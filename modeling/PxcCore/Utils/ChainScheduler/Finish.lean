import PxcCore.Utils.ChainScheduler.Inactivate

/-!
# Finishing tasks

`finish_task` takes the nodes of the task out of its chains, and what came after them is to be
tried.  A chain without nodes goes.
-/

namespace PxcCore.ChainScheduler

open Lib

variable {ExtraT : Type} {s s' : ChainScheduler ExtraT} {client : Client} {todo : List TaskId}
  {t : TaskId} {task : Task ExtraT} {c : ChainId} {i : ℕ} {info : ChainInfo}
  {chains : List (ChainId × ℕ)}

/-! ## The chains -/

/-- A chain that an active task has left. -/
def ChainInfo.leave (info : ChainInfo) (g : ℕ) (node : TaskId × ℕ) : ChainInfo :=
  (info.inactivate g true false).finishTask node

namespace ChainInfo

@[simp] theorem leave_generation (info : ChainInfo) (g : ℕ) (node : TaskId × ℕ) :
    (info.leave g node).generation = info.generation := rfl

@[simp] theorem leave_chain (info : ChainInfo) (g : ℕ) (node : TaskId × ℕ) :
    (info.leave g node).chain = info.chain.filter fun n ↦ n.address ≠ node := rfl

theorem mem_leave {g : ℕ} {node : TaskId × ℕ} {n : ChainNode} :
    n ∈ (info.leave g node).chain ↔ n ∈ info.chain ∧ n.address ≠ node := by
  rw [leave_chain, List.mem_filter, decide_eq_true_eq]

theorem mem_map_address_leave {g : ℕ} {node node' : TaskId × ℕ} :
    node' ∈ (info.leave g node).chain.map ChainNode.address ↔
      node' ∈ info.chain.map ChainNode.address ∧ node' ≠ node := by
  rw [List.mem_map, List.mem_map]
  constructor
  · rintro ⟨n, hn, rfl⟩
    obtain ⟨hn, hne⟩ := mem_leave.1 hn
    exact ⟨⟨n, hn, rfl⟩, hne⟩
  · rintro ⟨⟨n, hn, rfl⟩, hne⟩
    exact ⟨n, mem_leave.2 ⟨hn, hne⟩, rfl⟩

/-- A task that waits for the one before it goes on to wait, if that is not the one that leaves. -/
theorem Ready.of_leave {g : ℕ} {node node' : TaskId × ℕ} (hr : (info.leave g node').Ready node)
    (hm : node ∈ info.chain.map ChainNode.address) (hne : node ≠ node')
    (hparent : ∀ parent, info.getParent node = some parent → parent.address ≠ node') :
    info.Ready node :=
  fun parent hp ↦ hr parent (before_filter hm hne hp (hparent parent hp))

/-- A task of the chain has finished. -/
theorem Sound.leave {tasks : TaskId → Option (Task ExtraT)} {number : TaskId → ℕ}
    (h : info.Sound tasks number c) (ht : tasks t = some task) (hp : task.state = .active)
    (hnodup : task.chains.Nodup) (hix : task.chains[i]? = some c)
    (hi : (t, i) ∈ info.chain.map ChainNode.address) {g : ℕ} :
    (info.leave g (t, i)).Sound (Function.update tasks t none) number c := by
  have hsub : ((info.leave g (t, i)).chain).Sublist info.chain := List.filter_sublist
  have hother {n : ChainNode} (hn : n ∈ (info.leave g (t, i)).chain) : n.taskId ≠ t := by
    obtain ⟨hn, hne⟩ := mem_leave.1 hn
    exact fun hnt ↦ hne (h.address_of_taskId ht hnodup hix hn hnt)
  have hnone : ¬HasState (Function.update tasks t none) t .active := by
    rw [HasState, Function.update_self, Option.map_none]
    exact Option.some_ne_none _ ∘ Eq.symm
  constructor
  case nodup => exact h.nodup.sublist (hsub.map _)
  case node =>
    intro n hn
    rw [Function.update_of_ne (hother hn)]
    exact h.node n (hsub.subset hn)
  case active =>
    have hcount := h.activeTasks_eq_add_one ht hnodup hix hi hp
      (fun t' ht' ↦ Function.update_of_ne ht' none tasks) hnone
    rw [leave_chain, List.countP_filter]
    refine (Nat.sub_eq_of_eq_add hcount).trans (List.countP_congr fun n hn ↦ ?_)
    rw [Bool.and_eq_true, decide_eq_true_iff, decide_eq_true_iff]
    refine (and_iff_left_of_imp fun hs ha ↦ hnone ?_).symm
    rwa [show n.taskId = t from congrArg Prod.fst ha] at hs
  case active_le => exact (Nat.sub_le _ _).trans h.active_le
  case pos => exact h.pos
  case le => exact fun n hn ↦ h.le n (hsub.subset hn)
  case leading => exact h.leading.sublist hsub
  case current =>
    intro n hn hg
    exact (hasState_update_of_ne (hother hn)).2 (h.current n (hsub.subset hn) hg)
  case sorted => exact h.sorted.sublist (hsub.map _)

end ChainInfo

/-! ## The loops -/

/-- The tasks that come after the one that finishes are listed. -/
theorem forEachChild_later (hc : ∀ p ∈ chains, ∃ info, s.chains p.1 = some info) :
    chains.foldlM (forChild t fun s child ↦ .ok (s.tryStartTaskLater child)) s =
      .ok { s with toStart := s.toStart ++ s.childrenOf t chains } := by
  induction chains generalizing s with
  | nil =>
    rw [childrenOf, List.filterMap_nil, List.append_nil]
    rfl
  | cons p chains ih =>
    obtain ⟨info, hinfo⟩ := hc p List.mem_cons_self
    have hc' : ∀ q ∈ chains, ∃ info, s.chains q.1 = some info :=
      fun q hq ↦ hc q (List.mem_cons_of_mem _ hq)
    rw [List.foldlM_cons, forChild, chainInfo_eq hinfo, ok_bind]
    cases hchild : info.getChild (t, p.2) with
    | none =>
      have heq : s.childrenOf t (p :: chains) = s.childrenOf t chains :=
        List.filterMap_cons_none (by rw [hinfo, Option.bind_some, hchild])
      rw [heq]
      exact ih hc'
    | some child =>
      have heq : s.childrenOf t (p :: chains) = child :: s.childrenOf t chains :=
        List.filterMap_cons_some (by rw [hinfo, Option.bind_some, hchild])
      have hrest := ih (s := s.tryStartTaskLater child) hc'
      rw [heq]
      refine hrest.trans ?_
      rw [tryStartTaskLater, List.append_assoc, List.singleton_append]
      rfl

theorem finishChains_spec (hn : (chains.map Prod.fst).Nodup)
    (hc : ∀ p ∈ chains, ∃ info, s.chains p.1 = some info) :
    ∃ f, chains.foldlM (finishChainTask t) s = .ok { s with chains := f } ∧
      (∀ {c}, c ∉ chains.map Prod.fst → f c = s.chains c) ∧
      ∀ {c i info}, (c, i) ∈ chains → s.chains c = some info →
        f c = if (info.finishTask (t, i)).chain = [] then none
          else some (info.finishTask (t, i)) := by
  induction chains generalizing s with
  | nil => exact ⟨s.chains, rfl, fun _ ↦ rfl, fun hm ↦ absurd hm List.not_mem_nil⟩
  | cons p chains ih =>
    obtain ⟨c, i⟩ := p
    obtain ⟨hnot, hn⟩ := List.nodup_cons.1 hn
    obtain ⟨info, hinfo⟩ := hc (c, i) List.mem_cons_self
    let o := if (info.finishTask (t, i)).chain = [] then none else some (info.finishTask (t, i))
    have hok : finishChainTask t s (c, i) =
        .ok { s with chains := Function.update s.chains c o } := by
      rw [finishChainTask, chainInfo_eq hinfo, ok_bind]
      simp only [o]
      split_ifs <;> rfl
    have hne {c'} (hm : c' ∈ chains.map Prod.fst) : c' ≠ c := fun he ↦ hnot (he ▸ hm)
    have hc' : ∀ p ∈ chains, ∃ info, Function.update s.chains c o p.1 = some info := by
      intro p hp
      rw [Function.update_of_ne (hne (List.mem_map_of_mem hp))]
      exact hc p (List.mem_cons_of_mem _ hp)
    obtain ⟨f, hok', hnotMem, hmem⟩ :=
      ih (s := { s with chains := Function.update s.chains c o }) hn hc'
    refine ⟨f, by rw [List.foldlM_cons, hok, ok_bind, hok'], fun hm ↦ ?_, fun hm hi ↦ ?_⟩
    · rw [List.map_cons, List.mem_cons, not_or] at hm
      rw [hnotMem hm.2]
      exact Function.update_of_ne hm.1 _ _
    · rcases List.mem_cons.1 hm with hp | hm
      · obtain ⟨rfl, rfl⟩ := Prod.mk.inj hp
        obtain rfl := Option.some.inj (hinfo.symm.trans hi)
        rw [hnotMem hnot]
        exact Function.update_self _ _ _
      · refine hmem hm ?_
        rw [← hi]
        exact Function.update_of_ne (hne (List.mem_map_of_mem hm)) _ _

/-! ## The task goes -/

section

variable (h : Inv s client []) (ht : s.task t = some task) (hp : task.state = .active)
  (hin : Inactivated t true false (s.setState t .pending) s' task.chains.zipIdx)

include h ht hp hin

omit hp in
/-- The chains of the task after it has left them. -/
theorem Inv.leave_chain {f : ChainId → Option ChainInfo}
    (hf : ∀ {c i info}, (c, i) ∈ task.chains.zipIdx → s'.chains c = some info →
      f c = if (info.finishTask (t, i)).chain = [] then none else some (info.finishTask (t, i)))
    (hcm : c ∈ task.chains) :
    ∃ i info g, task.chains[i]? = some c ∧ s.chains c = some info ∧
      (t, i) ∈ info.chain.map ChainNode.address ∧
      s'.chains c = some (info.inactivate g true false) ∧
      f c = if (info.leave g (t, i)).chain = [] then none else some (info.leave g (t, i)) := by
  obtain ⟨i, info, n, hi, hc, hn, ha, hc'⟩ := hin.chains_of_mem h ht hcm
  exact ⟨i, info, n.generation, hi, hc, List.mem_map.2 ⟨n, hn, ha⟩, hc',
    hf (mem_zipIdx.2 hi) hc'⟩

/-- What came after the task is another task, which is there. -/
theorem Inv.child_ne {t' : TaskId} (ht' : t' ∈ s'.childrenOf t task.chains.zipIdx) :
    t' ≠ t ∧ s.task t' ≠ none := by
  obtain ⟨⟨c, i⟩, hm, hb⟩ := List.mem_filterMap.1 ht'
  obtain ⟨info', hc', hch⟩ := Option.bind_eq_some_iff.1 hb
  obtain ⟨n, hn, rfl⟩ := Option.map_eq_some_iff.1 hch
  have hi := mem_zipIdx.1 hm
  obtain ⟨j, info, m, -, hc, -, -, hc₁⟩ :=
    hin.chains_of_mem h ht (List.mem_iff_getElem?.2 ⟨i, hi⟩)
  obtain rfl := Option.some.inj (hc₁.symm.trans hc')
  have hsound := h.sound hc
  have hmem : n ∈ info.chain := mem_of_after hn
  have hnodup := h.chains_nodup ht (by rw [hp]; exact State.noConfusion)
  refine ⟨fun hnt ↦ ?_, ?_⟩
  · exact key_ne_of_after hsound.nodup hn (hsound.address_of_taskId ht hnodup hi hmem hnt)
  · obtain ⟨task', ht', -⟩ := hsound.node n hmem
    exact Option.ne_none_iff_exists'.2 ⟨task', ht'⟩

/-- A task has finished: those that may wait for it are to be tried. -/
theorem Inv.finish {f : ChainId → Option ChainInfo}
    (hnot : ∀ {c}, c ∉ task.chains → f c = s'.chains c)
    (hf : ∀ {c i info}, (c, i) ∈ task.chains.zipIdx → s'.chains c = some info →
      f c = if (info.finishTask (t, i)).chain = [] then none else some (info.finishTask (t, i)))
    {tasks : Container (Task ExtraT)} (hwf : tasks.Wf)
    (htasks : tasks.object = Function.update s.task t none) :
    Changed s { s' with chains := f, tasks := tasks, toStart := [] } client.number t task.chains
      none (s'.toStart ++ s'.childrenOf t task.chains.zipIdx) := by
  have hs : task.state ≠ .pending := by
    rw [hp]
    exact State.noConfusion
  have hnodup := h.chains_nodup ht hs
  have htask : ({ s' with chains := f, tasks := tasks, toStart := [] } :
      ChainScheduler ExtraT).task = Function.update s.task t none := htasks
  constructor
  case wf => exact hwf
  case toStart => rfl
  case pendingTasks => exact hin.pendingTasks
  case task => exact htasks
  case chains =>
    intro task' ho
    cases ho
  case state =>
    intro task' ho
    cases ho
  case sound =>
    intro c info hc
    rw [htask]
    by_cases hcm : c ∈ task.chains
    · obtain ⟨i, info₀, g, hi, hc₀, hm, -, hfc⟩ := h.leave_chain ht hin hf hcm
      rw [show f c = some info from hc] at hfc
      split_ifs at hfc with hnil
      rw [Option.some.inj hfc]
      exact (h.sound hc₀).leave ht hp hnodup hi hm
    · have hc₀ := (hin.chains_of_notMem hcm).1.symm.trans ((hnot hcm).symm.trans hc)
      refine (h.sound hc₀).congr fun n hn ↦ Function.update_of_ne ?_ _ _
      intro he
      exact hcm (List.mem_iff_getElem?.2 ⟨_, h.chain_of_mem hc₀ hn (he ▸ ht)⟩)
  case ne_nil =>
    intro c info hc
    by_cases hcm : c ∈ task.chains
    · obtain ⟨i, info₀, g, -, -, -, -, hfc⟩ := h.leave_chain ht hin hf hcm
      rw [show f c = some info from hc] at hfc
      split_ifs at hfc with hnil
      rwa [Option.some.inj hfc]
    · exact h.ne_nil ((hin.chains_of_notMem hcm).1.symm.trans ((hnot hcm).symm.trans hc))
  case chain =>
    intro c info node hc hm hlive
    have hne : node.1 ≠ t := by
      rintro rfl
      rw [htask, Function.update_self] at hlive
      exact hlive rfl
    by_cases hcm : c ∈ task.chains
    · obtain ⟨i, info₀, g, hi, hc₀, -, hc', hfc⟩ := h.leave_chain ht hin hf hcm
      obtain rfl := Option.some.inj (hc.symm.trans hc₀)
      have hneq : node ≠ (t, i) := fun he ↦ hne (congrArg Prod.fst he)
      have hm' : node ∈ (info.leave g (t, i)).chain.map ChainNode.address :=
        ChainInfo.mem_map_address_leave.2 ⟨hm, hneq⟩
      rw [if_neg (fun hnil ↦ by rw [hnil] at hm'; exact List.not_mem_nil hm')] at hfc
      refine ⟨_, hfc, hm', fun hr ↦ ?_⟩
      by_cases hchild : node.1 ∈ s'.childrenOf t task.chains.zipIdx
      · exact .inl (List.mem_append_right _ hchild)
      · refine .inr fun hr' ↦ hr (hr'.of_leave hm hneq fun parent hpar ha ↦ hchild ?_)
        refine mem_childrenOf (mem_zipIdx.2 hi) hc' ?_
        have hget := (h.sound hc).getChild_getParent hm hpar
        rwa [ha] at hget
    · exact ⟨info, (hnot hcm).trans ((hin.chains_of_notMem hcm).1.trans hc), hm, .inr⟩
  case limited =>
    intro c
    by_cases hcm : c ∈ task.chains
    · exact .inl ⟨hin.limitedTasks_of_mem hcm, fun t' hl ↦ List.mem_append_left _
        (h.mem_toStart_of_limited ht hs hin hcm hl)⟩
    · exact .inr ⟨(hin.chains_of_notMem hcm).2, (hnot hcm).trans (hin.chains_of_notMem hcm).1⟩
  case todo =>
    intro t' ht'
    obtain ⟨hne, hlive⟩ : t' ≠ t ∧ s.task t' ≠ none := by
      rcases List.mem_append.1 ht' with hm | hm
      · rw [hin.mem_toStart, show (s.setState t .pending).toStart = [] from h.toStart,
          or_iff_right List.not_mem_nil] at hm
        obtain ⟨hne, p, -, hw⟩ := hm
        exact ⟨hne, Option.ne_none_iff_exists'.2 (h.exists_task_of_waitsAt hw)⟩
      · exact h.child_ne ht hp hin hm
    rw [htask, Function.update_of_ne hne]
    exact hlive

end

end PxcCore.ChainScheduler
