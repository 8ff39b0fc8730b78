import PxcCore.Utils.ChainScheduler.Start

/-!
# Inactivating tasks

`inactivate_task` takes a task out of the count of its chains and lists those that may wait for it:
the one that the chain remembers and the first one.
-/

namespace PxcCore.ChainScheduler

open Lib

variable {ExtraT : Type} {s s' : ChainScheduler ExtraT} {client : Client} {todo : List TaskId}
  {t : TaskId} {task : Task ExtraT} {c : ChainId} {i : ℕ} {info : ChainInfo}
  {chains : List (ChainId × ℕ)} {wasActive failed : Bool}

/-! ## The loop over the chains -/

theorem ChainInfo.nodeGeneration_eq (h : (info.chain.map ChainNode.address).Nodup) {n : ChainNode}
    (hn : n ∈ info.chain) : info.nodeGeneration n.address = some n.generation := by
  rw [nodeGeneration, Option.map_eq_some_iff]
  cases hf : info.chain.find? (fun m ↦ decide (m.address = n.address)) with
  | none => exact absurd (decide_eq_true rfl) (List.find?_eq_none.1 hf n hn)
  | some m =>
    have ha : decide (m.address = n.address) = true :=
      List.find?_some (p := fun m : ChainNode ↦ decide (m.address = n.address)) hf
    have hm := List.inj_on_of_nodup_map h (List.mem_of_find?_eq_some hf) hn (of_decide_eq_true ha)
    exact ⟨m, rfl, congrArg ChainNode.generation hm⟩

/-- Who is listed because of a chain. -/
def WaitsAt (s : ChainScheduler ExtraT) (c : ChainId) (t : TaskId) : Prop :=
  s.limitedTasks c = some t ∨ ∃ info, s.chains c = some info ∧ info.getFirst = some t

theorem mem_tryStartTaskLater {t t' : TaskId} :
    t' ∈ (s.tryStartTaskLater t).toStart ↔ t' ∈ s.toStart ∨ t' = t := by
  rw [tryStartTaskLater, List.mem_append, List.mem_singleton]

theorem mem_ite_tryStartTaskLater {t₁ t' : TaskId} :
    t' ∈ (if t₁ ≠ t then s.tryStartTaskLater t₁ else s).toStart ↔
      t' ∈ s.toStart ∨ t' ≠ t ∧ t₁ = t' := by
  split_ifs with hne
  · rw [mem_tryStartTaskLater]
    refine or_congr_right ⟨?_, fun h ↦ h.2.symm⟩
    rintro rfl
    exact ⟨hne, rfl⟩
  · rw [not_not] at hne
    refine (or_iff_left ?_).symm
    rintro ⟨hne', rfl⟩
    exact hne' hne

theorem retryLimited_spec (t : TaskId) (s : ChainScheduler ExtraT) (c : ChainId) :
    (retryLimited t s c).chains = s.chains ∧
      (retryLimited t s c).limitedTasks = Function.update s.limitedTasks c none ∧
      (retryLimited t s c).tasks = s.tasks ∧ (retryLimited t s c).pendingTasks = s.pendingTasks ∧
      ∀ t', t' ∈ (retryLimited t s c).toStart ↔
        t' ∈ s.toStart ∨ t' ≠ t ∧ s.limitedTasks c = some t' := by
  rw [retryLimited]
  cases hl : s.limitedTasks c with
  | none =>
    refine ⟨rfl, ?_, rfl, rfl, fun t' ↦ (or_iff_left ?_).symm⟩
    · exact (Function.update_eq_self_iff.2 hl.symm).symm
    · rintro ⟨-, heq⟩
      cases heq
  | some t₁ =>
    dsimp only
    refine ⟨?_, ?_, ?_, ?_, fun t' ↦ ?_⟩
    iterate 4
      split_ifs
      · rfl
      · rfl
    · rw [mem_ite_tryStartTaskLater, Option.some.injEq]

theorem retryFirst_spec (t : TaskId) (s : ChainScheduler ExtraT) (info : ChainInfo) :
    ∃ toStart, retryFirst t s info = { s with toStart := toStart } ∧
      ∀ t', t' ∈ toStart ↔ t' ∈ s.toStart ∨ t' ≠ t ∧ info.getFirst = some t' := by
  rw [retryFirst]
  cases hf : info.getFirst with
  | none =>
    refine ⟨s.toStart, rfl, fun t' ↦ (or_iff_left ?_).symm⟩
    rintro ⟨-, heq⟩
    cases heq
  | some t₁ =>
    refine ⟨(if t₁ ≠ t then s.tryStartTaskLater t₁ else s).toStart, ?_, fun t' ↦ ?_⟩
    · dsimp only
      split_ifs
      · rfl
      · rfl
    · rw [mem_ite_tryStartTaskLater, Option.some.injEq]

theorem inactivateChain_spec (wasActive failed : Bool) (hc : s.chains c = some info) {g : ℕ}
    (hg : info.nodeGeneration (t, i) = some g) :
    ∃ s', inactivateChain t wasActive failed s (c, i) = .ok s' ∧
      s'.chains = Function.update s.chains c (some (info.inactivate g wasActive failed)) ∧
      s'.limitedTasks = Function.update s.limitedTasks c none ∧
      s'.tasks = s.tasks ∧ s'.pendingTasks = s.pendingTasks ∧
      ∀ t', t' ∈ s'.toStart ↔ t' ∈ s.toStart ∨ t' ≠ t ∧ s.WaitsAt c t' := by
  let info' := info.inactivate g wasActive failed
  obtain ⟨hchains, hlimited, htasks, hpending, hlater⟩ := retryLimited_spec t (s.setChain c info') c
  obtain ⟨toStart, hfirst, hmem⟩ :=
    retryFirst_spec t (retryLimited t (s.setChain c info') c) info'
  refine ⟨{ retryLimited t (s.setChain c info') c with toStart := toStart }, ?_, hchains, hlimited,
    htasks, hpending, fun t' ↦ (hmem t').trans ?_⟩
  · rw [inactivateChain, chainInfo_eq hc, ok_bind, hg]
    exact congrArg Except.ok hfirst
  · rw [hlater, or_assoc, ← and_or_left]
    refine or_congr_right (and_congr_right fun _ ↦ or_congr_right ?_)
    constructor
    · exact fun hf ↦ ⟨info, hc, hf⟩
    · rintro ⟨info₁, hc₁, hf⟩
      rwa [Option.some.inj (hc₁.symm.trans hc)] at hf

/-- What `inactivate_task` has done to some chains of the task. -/
structure Inactivated (t : TaskId) (wasActive failed : Bool) (s s' : ChainScheduler ExtraT)
    (chains : List (ChainId × ℕ)) : Prop where
  tasks : s'.tasks = s.tasks
  pendingTasks : s'.pendingTasks = s.pendingTasks
  of_notMem : ∀ {c}, c ∉ chains.map Prod.fst →
    s'.chains c = s.chains c ∧ s'.limitedTasks c = s.limitedTasks c
  of_mem : ∀ {c i}, (c, i) ∈ chains → ∃ info g, s.chains c = some info ∧
    info.nodeGeneration (t, i) = some g ∧
    s'.chains c = some (info.inactivate g wasActive failed) ∧ s'.limitedTasks c = none
  mem_toStart : ∀ t', t' ∈ s'.toStart ↔
    t' ∈ s.toStart ∨ t' ≠ t ∧ ∃ p ∈ chains, s.WaitsAt p.1 t'

theorem inactivateChains_spec (hn : (chains.map Prod.fst).Nodup) (hc : ∀ p ∈ chains, ∃ info g,
      s.chains p.1 = some info ∧ info.nodeGeneration (t, p.2) = some g) :
    ∃ s', chains.foldlM (inactivateChain t wasActive failed) s = .ok s' ∧
      Inactivated t wasActive failed s s' chains := by
  induction chains generalizing s with
  | nil =>
    refine ⟨s, rfl, rfl, rfl, fun _ ↦ ⟨rfl, rfl⟩, fun hm ↦ absurd hm List.not_mem_nil, fun t' ↦ ?_⟩
    refine (or_iff_left ?_).symm
    rintro ⟨-, p, hp, -⟩
    exact List.not_mem_nil hp
  | cons p chains ih =>
    obtain ⟨c, i⟩ := p
    obtain ⟨hnot, hn⟩ := List.nodup_cons.1 hn
    obtain ⟨info, g, hinfo, hg⟩ := hc (c, i) List.mem_cons_self
    obtain ⟨s₁, hok, hchains, hlimited, htasks, hpending, hmem⟩ :=
      inactivateChain_spec wasActive failed hinfo hg
    have hne {c'} (hm : c' ∈ chains.map Prod.fst) : c' ≠ c := fun he ↦ hnot (he ▸ hm)
    have hold {c'} (hm : c' ≠ c) : s₁.chains c' = s.chains c' ∧
        s₁.limitedTasks c' = s.limitedTasks c' := by
      rw [hchains, hlimited, Function.update_of_ne hm, Function.update_of_ne hm]
      exact ⟨rfl, rfl⟩
    have hc' : ∀ p ∈ chains, ∃ info g, s₁.chains p.1 = some info ∧
        info.nodeGeneration (t, p.2) = some g := by
      intro p hp
      rw [(hold (hne (List.mem_map_of_mem hp))).1]
      exact hc p (List.mem_cons_of_mem _ hp)
    obtain ⟨s₂, hok', h⟩ := ih hn hc'
    refine ⟨s₂, by rw [List.foldlM_cons, hok, ok_bind, hok'], h.tasks.trans htasks,
      h.pendingTasks.trans hpending, fun hm ↦ ?_, fun hm ↦ ?_, fun t' ↦ ?_⟩
    · rw [List.map_cons, List.mem_cons, not_or] at hm
      rw [(h.of_notMem hm.2).1, (h.of_notMem hm.2).2]
      exact hold hm.1
    · rcases List.mem_cons.1 hm with hp | hm
      · obtain ⟨rfl, rfl⟩ := Prod.mk.inj hp
        refine ⟨info, g, hinfo, hg, ?_, ?_⟩
        · rw [(h.of_notMem hnot).1, hchains, Function.update_self]
        · rw [(h.of_notMem hnot).2, hlimited, Function.update_self]
      · have := h.of_mem hm
        rwa [(hold (hne (List.mem_map_of_mem hm))).1] at this
    · have hwaits : (∃ p ∈ chains, s₁.WaitsAt p.1 t') ↔ ∃ p ∈ chains, s.WaitsAt p.1 t' := by
        refine exists_congr fun p ↦ and_congr_right fun hp ↦ ?_
        rw [WaitsAt, WaitsAt, (hold (hne (List.mem_map_of_mem hp))).1,
          (hold (hne (List.mem_map_of_mem hp))).2]
      rw [h.mem_toStart, hmem, hwaits, or_assoc, ← and_or_left]
      simp only [List.mem_cons, exists_eq_or_imp]

/-! ## The chains -/

theorem ChainInfo.le_generation_inactivate (info : ChainInfo) (g : ℕ) (wasActive failed : Bool) :
    info.generation ≤ (info.inactivate g wasActive failed).generation := by
  rw [inactivate]
  dsimp only
  split_ifs
  · exact le_max_left _ _
  · exact le_rfl

/-- A task that waits for the one before it goes on to wait. -/
theorem ChainInfo.Ready.of_inactivate {node : TaskId × ℕ} {g : ℕ}
    (hr : (info.inactivate g wasActive failed).Ready node)
    (hle : ∀ n ∈ info.chain, n.generation ≤ info.generation)
    (hm : node ∈ info.chain.map ChainNode.address) : info.Ready node := by
  intro parent hp
  have hg : parent.generation = (info.inactivate g wasActive failed).generation := hr parent hp
  refine le_antisymm (hle parent (Sound.getParent_mem hm hp)) ?_
  rw [hg]
  exact le_generation_inactivate info g wasActive failed

namespace ChainInfo.Sound

variable {tasks tasks' : TaskId → Option (Task ExtraT)} {number : TaskId → ℕ}
  (h : info.Sound tasks number c) (ht : tasks t = some task) (hnodup : task.chains.Nodup)
  (hix : task.chains[i]? = some c)

include h ht hnodup hix

/-- The count of a chain when a task is no longer active. -/
theorem activeTasks_eq_add_one (hi : (t, i) ∈ info.chain.map ChainNode.address)
    (hp : task.state = .active) (hother : ∀ t', t' ≠ t → tasks' t' = tasks t')
    (hnot : ¬HasState tasks' t .active) : info.activeTasks =
      info.chain.countP (fun n ↦ decide (HasState tasks' n.taskId .active)) + 1 := by
  rw [h.active]
  refine countP_eq_add_one h.nodup hi (fun n hn hne ↦ ?_) fun n hn he ↦ ?_
  · have hnt : n.taskId ≠ t := fun hnt ↦ hne (h.address_of_taskId ht hnodup hix hn hnt)
    rw [decide_eq_decide, HasState, HasState, hother _ hnt]
  · rw [show n.taskId = t from congrArg Prod.fst he]
    exact ⟨decide_eq_true (hasState_iff.2 ⟨task, ht, hp⟩), decide_eq_false hnot⟩

/-- The generation of a chain after a failure: the tasks that have it are those that had the old
one, without the one that has failed. -/
theorem generation_inactivate {n : ChainNode} (hn : n ∈ info.chain) (ha : n.address = (t, i))
    {m : ChainNode} (hm : m ∈ info.chain) (hg : m.generation =
      (info.inactivate n.generation (decide (task.state = .active)) true).generation) :
    m.generation = info.generation ∧ m.taskId ≠ t := by
  simp only [ChainInfo.inactivate, Bool.and_true, decide_eq_true_eq] at hg
  split_ifs at hg with hp
  · have hle := h.le m hm
    have hmax : m.generation = info.generation :=
      le_antisymm hle (hg ▸ le_max_left _ _)
    refine ⟨hmax, fun hmt ↦ ?_⟩
    have heq : m = n := List.inj_on_of_nodup_map h.nodup hm hn
      ((h.address_of_taskId ht hnodup hix hm hmt).trans ha.symm)
    have hlt : n.generation + 1 ≤ m.generation := hg ▸ le_max_right _ _
    rw [heq] at hlt
    exact absurd hlt (Nat.not_succ_le_self _)
  · refine ⟨hg, fun hmt ↦ ?_⟩
    have hs := h.current m hm hg
    rw [hmt] at hs
    exact hs.not (Ne.symm hp) (hasState_iff.2 ⟨task, ht, rfl⟩)

/-- A task of the chain has failed. -/
theorem inactivate {n : ChainNode} (hn : n ∈ info.chain) (ha : n.address = (t, i)) {state : State}
    (hst : state ≠ .active) :
    (info.inactivate n.generation (decide (task.state = .active)) true).Sound
      (Function.update tasks t (some { task with state := state })) number c where
  nodup := h.nodup
  node := by
    intro m hm
    obtain ⟨task', ht', hi'⟩ := h.node m hm
    by_cases he : m.taskId = t
    · rw [he] at ht'
      obtain rfl := Option.some.inj (ht.symm.trans ht')
      exact ⟨_, update_eq_some_iff.2 (.inl ⟨he, rfl⟩), hi'⟩
    · exact ⟨task', update_eq_some_iff.2 (.inr ⟨he, ht'⟩), hi'⟩
  active := by
    have hnot : ¬HasState (Function.update tasks t (some { task with state := state })) t
        .active := fun hs ↦ hst (hasState_update_self.1 hs)
    simp only [ChainInfo.inactivate, decide_eq_true_eq]
    split_ifs with hp
    · have hmem : (t, i) ∈ info.chain.map ChainNode.address := List.mem_map.2 ⟨n, hn, ha⟩
      rw [h.activeTasks_eq_add_one ht hnodup hix hmem hp
        (fun t' ht' ↦ Function.update_of_ne ht' _ _) hnot, Nat.add_sub_cancel]
    · rw [h.active]
      refine List.countP_congr fun m _ ↦ ?_
      rw [decide_eq_true_iff, decide_eq_true_iff]
      by_cases he : m.taskId = t
      · rw [he]
        refine iff_of_false (fun hs ↦ ?_) hnot
        obtain ⟨task', ht', hp'⟩ := hasState_iff.1 hs
        exact hp (Option.some.inj (ht.symm.trans ht') ▸ hp')
      · rw [hasState_update_of_ne he]
  active_le := by
    refine le_trans ?_ h.active_le
    rw [ChainInfo.inactivate]
    dsimp only
    split_ifs
    · exact Nat.sub_le _ _
    · exact le_rfl
  pos := h.pos.trans_le (le_generation_inactivate info _ _ _)
  le m hm := (h.le m hm).trans (le_generation_inactivate info _ _ _)
  leading := by
    refine List.Pairwise.imp_of_mem (fun {a b} _ hb hab hg ↦ ?_) h.leading
    have hold := (h.generation_inactivate ht hnodup hix hn ha hb hg).1
    exact (hab hold).trans (hold.symm.trans hg)
  current := by
    intro m hm hg
    obtain ⟨hold, hne⟩ := h.generation_inactivate ht hnodup hix hn ha hm hg
    exact (hasState_update_of_ne hne).2 (h.current m hm hold)
  sorted := h.sorted

end ChainInfo.Sound

/-! ## Failures -/

namespace Inactivated

variable (hin : Inactivated t wasActive failed (s.setState t .pending) s' task.chains.zipIdx)

include hin

theorem chains_of_notMem (hc : c ∉ task.chains) :
    s'.chains c = s.chains c ∧ s'.limitedTasks c = s.limitedTasks c :=
  hin.of_notMem (by rwa [map_fst_zipIdx])

theorem limitedTasks_of_mem (hc : c ∈ task.chains) : s'.limitedTasks c = none := by
  obtain ⟨i, hi⟩ := List.mem_iff_getElem?.1 hc
  obtain ⟨-, -, -, -, -, hl⟩ := hin.of_mem (mem_zipIdx.2 hi)
  exact hl

theorem chains_of_mem (h : Inv s client todo) (ht : s.task t = some task) (hc : c ∈ task.chains) :
    ∃ i info n, task.chains[i]? = some c ∧ s.chains c = some info ∧ n ∈ info.chain ∧
      n.address = (t, i) ∧
      s'.chains c = some (info.inactivate n.generation wasActive failed) := by
  obtain ⟨i, hi⟩ := List.mem_iff_getElem?.1 hc
  obtain ⟨info, g, hinfo, hg, hc', -⟩ := hin.of_mem (mem_zipIdx.2 hi)
  obtain ⟨info₁, hinfo₁, hm, hsound⟩ := h.exists_chain ht hi
  obtain rfl : info = info₁ := Option.some.inj (hinfo.symm.trans hinfo₁)
  obtain ⟨n, hn, ha⟩ := List.mem_map.1 hm
  rw [← ha, ChainInfo.nodeGeneration_eq hsound.nodup hn, Option.some.injEq] at hg
  exact ⟨i, info, n, hi, hinfo, hn, ha, hg ▸ hc'⟩

end Inactivated

/-- `inactivate_task` finds the chains of a task that it may be called for. -/
theorem Inv.inactivateTask_eq (h : Inv s client todo) (ht : s.task t = some task)
    (hs : task.state ≠ .pending) (failed : Bool) :
    ∃ s', s.inactivateTask t failed = .ok s' ∧ Inactivated t (decide (task.state = .active)) failed
      (s.setState t .pending) s' task.chains.zipIdx := by
  rw [inactivateTask, getTask_eq h.wf ht, ok_bind]
  refine inactivateChains_spec ?_ fun p hp ↦ ?_
  · rw [map_fst_zipIdx]
    exact h.chains_nodup ht hs
  · obtain ⟨c, i⟩ := p
    obtain ⟨info, hc, hm, hsound⟩ := h.exists_chain ht (mem_zipIdx.1 hp)
    obtain ⟨n, hn, ha⟩ := List.mem_map.1 hm
    exact ⟨info, n.generation, hc, ha ▸ ChainInfo.nodeGeneration_eq hsound.nodup hn⟩

/-- A task that is listed is there. -/
theorem Inv.exists_task_of_waitsAt (h : Inv s client todo) (hw : s.WaitsAt c t) :
    ∃ task, s.task t = some task := by
  rcases hw with hl | ⟨info, hc, hf⟩
  · obtain ⟨task, -, -, ht, -⟩ := h.limited hl
    exact ⟨task, ht⟩
  · obtain ⟨n, hn, rfl⟩ := Option.map_eq_some_iff.1 hf
    obtain ⟨task, ht, -⟩ := (h.sound hc).node n (List.mem_of_head? hn)
    exact ⟨task, ht⟩

/-- The task that a chain remembers is listed. -/
theorem Inv.mem_toStart_of_limited (h : Inv s client todo) (ht : s.task t = some task)
    (hs : task.state ≠ .pending)
    (hin : Inactivated t wasActive failed (s.setState t .pending) s' task.chains.zipIdx)
    (hcm : c ∈ task.chains) {t' : TaskId} (hl : s.limitedTasks c = some t') :
    t' ∈ s'.toStart := by
  obtain ⟨i, hi⟩ := List.mem_iff_getElem?.1 hcm
  rw [hin.mem_toStart]
  refine .inr ⟨?_, (c, i), mem_zipIdx.2 hi, .inl hl⟩
  rintro rfl
  obtain ⟨task', -, -, ht', hp', -⟩ := h.limited hl
  obtain rfl := Option.some.inj (ht.symm.trans ht')
  exact hs hp'

/-- A task that is not pending changes, or goes, and these are to be tried. -/
structure Changed (s s' : ChainScheduler ExtraT) (number : TaskId → ℕ) (t : TaskId)
    (chains : List ChainId) (o : Option (Task ExtraT)) (todo : List TaskId) : Prop where
  wf : s'.tasks.Wf
  toStart : s'.toStart = []
  pendingTasks : s'.pendingTasks = s.pendingTasks
  task : s'.task = Function.update s.task t o
  chains : ∀ task', o = some task' → task'.chains = chains
  state : ∀ task', o = some task' → task'.state = .pending → t ∈ todo
  sound : ∀ {c info}, s'.chains c = some info → info.Sound s'.task number c
  ne_nil : ∀ {c info}, s'.chains c = some info → info.chain ≠ []
  chain : ∀ {c info node}, s.chains c = some info → node ∈ info.chain.map ChainNode.address →
    s'.task node.1 ≠ none → ∃ info', s'.chains c = some info' ∧
      node ∈ info'.chain.map ChainNode.address ∧
      (¬info.Ready node → node.1 ∈ todo ∨ ¬info'.Ready node)
  limited : ∀ c, (s'.limitedTasks c = none ∧ ∀ t', s.limitedTasks c = some t' → t' ∈ todo) ∨
    s'.limitedTasks c = s.limitedTasks c ∧ s'.chains c = s.chains c
  todo : ∀ t' ∈ todo, s'.task t' ≠ none

/-- The invariant after such a change. -/
theorem Inv.change (h : Inv s client []) (ht : s.task t = some task) (hs : task.state ≠ .pending)
    (hnp : t ∉ s.pendingTasks) {o : Option (Task ExtraT)}
    (hch : Changed s s' client.number t task.chains o todo) {client' : Client}
    (hstarted : client'.started = client.started.erase t)
    (hpaused : client'.paused.Nodup ∧ ∀ t' ∈ client'.paused,
      t' = t ∧ o.map Task.state = some .paused ∨ t' ≠ t ∧ t' ∈ client.paused)
    (hcreated : client'.created = client.created) (hnumber : client'.number = client.number) :
    Inv s' client' todo := by
  -- what a task is after the change
  have hold {t' : TaskId} {task' : Task ExtraT} (ht' : s'.task t' = some task') :
      t' = t ∧ o = some task' ∨ t' ≠ t ∧ s.task t' = some task' := by
    rw [hch.task, Function.update_apply] at ht'
    split_ifs at ht' with he
    · exact .inl ⟨he, ht'⟩
    · exact .inr ⟨he, ht'⟩
  have hchains {t' : TaskId} {task' : Task ExtraT} (ht' : s'.task t' = some task') :
      ∃ task₀, s.task t' = some task₀ ∧ task'.chains = task₀.chains := by
    rcases hold ht' with ⟨rfl, ho⟩ | ⟨-, ht'⟩
    · exact ⟨task, ht, hch.chains task' ho⟩
    · exact ⟨task', ht', rfl⟩
  have hother {t' : TaskId} (hne : t' ≠ t) : s'.task t' = s.task t' := by
    rw [hch.task, Function.update_of_ne hne]
  constructor
  case wf => exact hch.wf
  case toStart => exact hch.toStart
  case chains_nodup =>
    intro t' task' ht' hs'
    rcases hold ht' with ⟨rfl, ho⟩ | ⟨-, ht'⟩
    · rw [hch.chains task' ho]
      exact h.chains_nodup ht hs
    · exact h.chains_nodup ht' hs'
  case mem =>
    intro t' task' ht' i c hi
    obtain ⟨task₀, ht₀, heq⟩ := hchains ht'
    rw [heq] at hi
    obtain ⟨info, hc, hm⟩ := h.mem ht₀ hi
    obtain ⟨info', hc', hm', -⟩ := hch.chain hc hm (Option.ne_none_iff_exists'.2 ⟨task', ht'⟩)
    exact ⟨info', hc', hm'⟩
  case ne_nil => exact hch.ne_nil
  case sound =>
    intro c info hc
    rw [hnumber]
    exact hch.sound hc
  case limited =>
    intro c t' hl
    rcases hch.limited c with ⟨hnone, -⟩ | ⟨hlimited, hchain⟩
    · rw [hnone] at hl
      cases hl
    · rw [hlimited] at hl
      obtain ⟨task', i, info, ht', hp', hi, hc, hrest⟩ := h.limited hl
      have hne : t' ≠ t := by
        rintro rfl
        obtain rfl := Option.some.inj (ht.symm.trans ht')
        exact hs hp'
      exact ⟨task', i, info, (hother hne).trans ht', hp', hi, hchain.trans hc, hrest⟩
  case blocked =>
    intro t' task' ht' hp' hn
    rcases hold ht' with ⟨rfl, ho⟩ | ⟨hne, ht₀⟩
    · exact absurd (hch.state task' ho hp') hn
    · obtain ⟨i, c, hi, hb⟩ := h.blocked ht₀ hp' List.not_mem_nil
      refine ⟨i, c, hi, ?_⟩
      rcases hb with hl | ⟨info, hc, hr⟩
      · rcases hch.limited c with ⟨-, htodo⟩ | ⟨hlimited, -⟩
        · exact absurd (htodo t' hl) hn
        · exact .inl (hlimited.trans hl)
      · obtain ⟨info₀, hc₀, hm⟩ := h.mem ht₀ hi
        obtain rfl := Option.some.inj (hc.symm.trans hc₀)
        obtain ⟨info', hc', -, hready⟩ :=
          hch.chain hc hm (Option.ne_none_iff_exists'.2 ⟨task', ht'⟩)
        exact .inr ⟨info', hc', (hready hr).resolve_left hn⟩
  case todo => exact fun t' ht' ↦ Option.ne_none_iff_exists'.1 (hch.todo t' ht')
  case started_nodup =>
    rw [hch.pendingTasks, hstarted]
    exact h.started_nodup.sublist (List.Sublist.append_left List.erase_sublist _)
  case started =>
    intro t' ht'
    rw [hch.pendingTasks, hstarted] at ht'
    obtain ⟨hne, hm⟩ : t' ≠ t ∧ t' ∈ s.pendingTasks ++ client.started := by
      rcases List.mem_append.1 ht' with hm | hm
      · exact ⟨fun he ↦ hnp (he ▸ hm), List.mem_append_left _ hm⟩
      · obtain ⟨hne, hm⟩ := (List.nodup_append.1 h.started_nodup).2.1.mem_erase_iff.1 hm
        exact ⟨hne, List.mem_append_right _ hm⟩
    rw [HasState, hother hne]
    exact h.started t' hm
  case paused =>
    intro t' ht'
    rcases hpaused.2 t' ht' with ⟨rfl, ho⟩ | ⟨hne, hm⟩
    · rwa [HasState, hch.task, Function.update_self]
    · rw [HasState, hother hne]
      exact h.paused t' hm
  case paused_nodup => exact hpaused.1
  case created =>
    intro t' task' ht'
    obtain ⟨task₀, ht₀, heq⟩ := hchains ht'
    rw [hcreated, hnumber, heq]
    exact h.created ht₀
  case number =>
    have hlive {t' : TaskId} (ht' : s'.task t' ≠ none) : s.task t' ≠ none := by
      obtain ⟨task', ht'⟩ := Option.ne_none_iff_exists'.1 ht'
      obtain ⟨task₀, ht₀, -⟩ := hchains ht'
      exact Option.ne_none_iff_exists'.2 ⟨task₀, ht₀⟩
    intro t₁ t₂ ht₁ ht₂ hnum
    rw [hnumber] at hnum
    exact h.number (hlive ht₁) (hlive ht₂) hnum

/-- A task has failed: those that may wait for it are to be tried, and itself if it is not
paused. -/
theorem Inv.fail (h : Inv s client []) (ht : s.task t = some task) (hs : task.state ≠ .pending)
    (hin : Inactivated t (decide (task.state = .active)) true (s.setState t .pending) s'
      task.chains.zipIdx)
    {state : State} (hst : state ≠ .active) {tasks : Container (Task ExtraT)} (hwf : tasks.Wf)
    (htasks : tasks.object = Function.update s.task t (some { task with state := state }))
    (htodo : ∀ t', t' ∈ todo ↔ t' ∈ s'.toStart ∨ t' = t ∧ state = .pending) :
    Changed s { s' with tasks := tasks, toStart := [] } client.number t task.chains
      (some { task with state := state }) todo where
  wf := hwf
  toStart := rfl
  pendingTasks := hin.pendingTasks
  task := htasks
  chains := by
    intro task' ho
    rw [← Option.some.inj ho]
  state := by
    intro task' ho hp
    rw [← Option.some.inj ho] at hp
    exact (htodo t).2 (.inr ⟨rfl, hp⟩)
  sound := by
    intro c info hc
    refine (htasks ▸ ?_ : info.Sound tasks.object client.number c)
    by_cases hm : c ∈ task.chains
    · obtain ⟨i, info₀, n, hi, hc₀, hn, ha, hc'⟩ := hin.chains_of_mem h ht hm
      obtain rfl := Option.some.inj (hc'.symm.trans hc)
      exact (h.sound hc₀).inactivate ht (h.chains_nodup ht hs) hi hn ha hst
    · have hc₀ := (hin.chains_of_notMem hm).1.symm.trans hc
      refine (h.sound hc₀).congr fun n hn ↦ Function.update_of_ne ?_ _ _
      intro he
      exact hm (List.mem_iff_getElem?.2 ⟨_, h.chain_of_mem hc₀ hn (he ▸ ht)⟩)
  ne_nil := by
    intro c info hc
    by_cases hcm : c ∈ task.chains
    · obtain ⟨-, info₀, n, -, hc₀, -, -, hc'⟩ := hin.chains_of_mem h ht hcm
      have hne := h.ne_nil hc₀
      rwa [Option.some.inj (hc.symm.trans hc')]
    · exact h.ne_nil ((hin.chains_of_notMem hcm).1.symm.trans hc)
  chain := by
    intro c info node hc hm _
    by_cases hcm : c ∈ task.chains
    · obtain ⟨-, info₀, n, -, hc₀, -, -, hc'⟩ := hin.chains_of_mem h ht hcm
      obtain rfl := Option.some.inj (hc.symm.trans hc₀)
      exact ⟨_, hc', hm, fun hr ↦ .inr fun hr' ↦ hr (hr'.of_inactivate (h.sound hc).le hm)⟩
    · exact ⟨info, (hin.chains_of_notMem hcm).1.trans hc, hm, .inr⟩
  limited := by
    intro c
    by_cases hcm : c ∈ task.chains
    · exact .inl ⟨hin.limitedTasks_of_mem hcm, fun t' hl ↦ (htodo t').2
        (.inl (h.mem_toStart_of_limited ht hs hin hcm hl))⟩
    · exact .inr (hin.chains_of_notMem hcm).symm
  todo := by
    intro t' ht'
    refine Option.ne_none_iff_exists'.2 (?_ : ∃ task', tasks.object t' = some task')
    rw [htasks]
    by_cases he : t' = t
    · exact ⟨_, update_eq_some_iff.2 (.inl ⟨he, rfl⟩)⟩
    · rw [htodo, hin.mem_toStart, or_iff_left (not_and_of_not_left _ he),
        show (s.setState t .pending).toStart = [] from h.toStart,
        or_iff_right List.not_mem_nil] at ht'
      obtain ⟨-, p, -, hw⟩ := ht'
      obtain ⟨task', ht'⟩ := h.exists_task_of_waitsAt hw
      exact ⟨task', update_eq_some_iff.2 (.inr ⟨he, ht'⟩)⟩

end PxcCore.ChainScheduler
