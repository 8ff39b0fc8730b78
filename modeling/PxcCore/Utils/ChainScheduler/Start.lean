import PxcCore.Utils.ChainScheduler.Invariant

/-!
# Starting tasks

`try_start_task` takes the task off those that are still to be tried: it is started, with all that
can be started after it, or it has a reason to wait.
-/

namespace PxcCore.ChainScheduler

open Lib

variable {ExtraT : Type} {s s' : ChainScheduler ExtraT} {client : Client} {todo : List TaskId}
  {t : TaskId} {task : Task ExtraT} {c : ChainId} {i : ℕ} {info : ChainInfo}

/-! ## The chains of a task -/

/-- A change of some chains, one after another. -/
def updateChains (g : ChainId × ℕ → ChainInfo → ChainInfo) (s : ChainScheduler ExtraT)
    (chains : List (ChainId × ℕ)) : ChainScheduler ExtraT :=
  chains.foldl (fun s chain ↦ s.setChain chain.1 (g chain (s.getChainInfo chain.1))) s

variable {g : ChainId × ℕ → ChainInfo → ChainInfo} {chains : List (ChainId × ℕ)}

theorem updateChains_eq (s : ChainScheduler ExtraT) (chains : List (ChainId × ℕ)) :
    updateChains g s chains = { s with chains := (updateChains g s chains).chains } := by
  induction chains generalizing s with
  | nil => rfl
  | cons chain chains ih =>
    change updateChains g (s.setChain _ _) chains = _
    rw [ih]
    rfl

theorem updateChains_of_notMem (hc : c ∉ chains.map Prod.fst) :
    (updateChains g s chains).chains c = s.chains c := by
  induction chains generalizing s with
  | nil => rfl
  | cons chain chains ih =>
    rw [List.map_cons, List.mem_cons, not_or] at hc
    change (updateChains g (s.setChain _ _) chains).chains c = _
    rw [ih hc.2]
    exact Function.update_of_ne hc.1 _ _

theorem updateChains_of_mem (hn : (chains.map Prod.fst).Nodup) (hc : (c, i) ∈ chains) :
    (updateChains g s chains).chains c = some (g (c, i) (s.getChainInfo c)) := by
  induction chains generalizing s with
  | nil => simp at hc
  | cons chain chains ih =>
    rw [List.map_cons, List.nodup_cons] at hn
    change (updateChains g (s.setChain _ _) chains).chains c = _
    rcases List.mem_cons.1 hc with rfl | hc
    · rw [updateChains_of_notMem hn.1]
      exact Function.update_self _ _ _
    · rw [ih hn.2 hc]
      have hne : c ≠ chain.1 := by
        rintro rfl
        exact hn.1 (List.mem_map.2 ⟨_, hc, rfl⟩)
      have hget : (s.setChain chain.1 (g chain (s.getChainInfo chain.1))).getChainInfo c =
          s.getChainInfo c :=
        congrArg (fun o : Option ChainInfo ↦ o.getD {}) (Function.update_of_ne hne _ _)
      rw [hget]

/-! ## `do_start_task` -/

theorem activate_eq (s : ChainScheduler ExtraT) (t : TaskId) (task : Task ExtraT) :
    s.activate t task =
      { s with
        chains := (updateChains (fun p info ↦ info.start (t, p.2)) s task.chains.zipIdx).chains
        tasks := s.tasks.modify t fun task ↦ { task with state := .active }
        pendingTasks := s.pendingTasks ++ [t] } := by
  let g (p : ChainId × ℕ) (info : ChainInfo) : ChainInfo := info.start (t, p.2)
  let s' := updateChains g s task.chains.zipIdx
  have h : s.activate t task =
      { s'.setState t .active with pendingTasks := s'.pendingTasks ++ [t] } := rfl
  rw [h, show s' = _ from updateChains_eq s task.chains.zipIdx]
  rfl

theorem activate_chains_of_notMem (hc : c ∉ task.chains) :
    (s.activate t task).chains c = s.chains c := by
  rw [activate_eq]
  exact updateChains_of_notMem (by rwa [map_fst_zipIdx])

theorem activate_chains (hn : task.chains.Nodup) (hi : task.chains[i]? = some c)
    (hc : s.chains c = some info) :
    (s.activate t task).chains c = some (info.start (t, i)) := by
  rw [activate_eq]
  have := updateChains_of_mem (g := fun p info ↦ info.start (t, p.2)) (s := s)
    (by rwa [map_fst_zipIdx]) (mem_zipIdx.2 hi)
  rwa [getChainInfo, hc, Option.getD_some] at this

theorem activate_task (h : s.tasks.Wf) (ht : s.task t = some task) :
    (s.activate t task).task = Function.update s.task t (some { task with state := .active }) := by
  rw [activate_eq]
  refine (h.modify_object _ _).2.2.2.trans ?_
  show Function.update s.task t ((s.task t).map _) = _
  rw [ht]
  rfl

/-- A task that is started takes its place at the front of the chain. -/
theorem ChainInfo.Sound.start {tasks : TaskId → Option (Task ExtraT)} {number : TaskId → ℕ}
    (h : info.Sound tasks number c) (ht : tasks t = some task) (hp : task.state = .pending)
    (hnodup : task.chains.Nodup) (hix : task.chains[i]? = some c)
    (hi : (t, i) ∈ info.chain.map ChainNode.address) (hlt : info.activeTasks < 10)
    (hr : info.Ready (t, i)) :
    (info.start (t, i)).Sound (Function.update tasks t (some { task with state := .active }))
      number c where
  nodup := by
    rw [map_address_start]
    exact h.nodup
  node := by
    intro n hn
    obtain ⟨n₀, hn₀, rfl⟩ := List.mem_map.1 hn
    obtain ⟨task', htask, hix⟩ := h.node n₀ hn₀
    have haddr : ∀ n' : ChainNode, n'.taskId = n₀.taskId → n'.index = n₀.index →
        ∃ task'', Function.update tasks t (some { task with state := .active }) n'.taskId =
          some task'' ∧ task''.chains[n'.index]? = some c := by
      intro n' htaskId hindex
      rw [htaskId, hindex]
      by_cases he : n₀.taskId = t
      · rw [he] at htask ⊢
        obtain rfl := Option.some.inj (ht.symm.trans htask)
        rw [Function.update_self]
        exact ⟨_, rfl, hix⟩
      · rw [Function.update_of_ne he]
        exact ⟨task', htask, hix⟩
    split_ifs
    · exact haddr _ rfl rfl
    · exact haddr _ rfl rfl
  active := by
    have hmap : (info.start (t, i)).chain.countP (fun n ↦ decide (HasState
          (Function.update tasks t (some { task with state := .active })) n.taskId .active)) =
        info.chain.countP fun n ↦ decide (HasState
          (Function.update tasks t (some { task with state := .active })) n.taskId .active) := by
      rw [ChainInfo.start, List.countP_map]
      refine List.countP_congr fun n _ ↦ ?_
      rw [Function.comp_apply]
      split_ifs <;> rfl
    have hadd := countP_eq_add_one
      (p := fun n ↦ decide (HasState tasks n.taskId .active))
      (q := fun n ↦ decide (HasState
          (Function.update tasks t (some { task with state := .active })) n.taskId .active))
      h.nodup hi (fun n hn hne ↦ ?_) fun n hn he ↦ ?_
    · rw [hmap, hadd, ← h.active]
      rfl
    · have hnt : n.taskId ≠ t := fun hnt ↦ hne (h.address_of_taskId ht hnodup hix hn hnt)
      rw [decide_eq_decide, HasState, HasState, Function.update_of_ne hnt]
    · have hnt : n.taskId = t := congrArg Prod.fst he
      rw [hnt]
      refine ⟨decide_eq_true ?_, decide_eq_false ?_⟩
      · rw [HasState, Function.update_self]
        rfl
      · rw [HasState, ht, Option.map_some, hp]
        exact fun heq ↦ State.noConfusion (Option.some.inj heq)
  active_le := hlt
  pos := h.pos
  le := by
    intro n hn
    obtain ⟨n₀, hn₀, rfl⟩ := List.mem_map.1 hn
    split_ifs
    · exact le_rfl
    · exact h.le n₀ hn₀
  leading := by
    obtain ⟨xs, n₀, ys, hl, ha, hxs⟩ := exists_append_of_mem_map hi
    have hys : (t, i) ∉ ys.map ChainNode.address := by
      have := h.nodup
      rw [hl, List.map_append, List.map_cons, ha] at this
      exact (List.nodup_cons.1 (List.nodup_append.1 this).2.1).1
    have hid {zs : List ChainNode} (hz : (t, i) ∉ zs.map ChainNode.address) : zs.map (fun n ↦
        if n.address = (t, i) then { n with generation := info.generation } else n) = zs := by
      conv_rhs => rw [← List.map_id zs]
      refine List.map_congr_left fun n hn ↦ ?_
      rw [if_neg (fun he ↦ hz (List.mem_map.2 ⟨n, hn, he⟩)), id]
    have hlead := h.leading
    have hmem : n₀ ∈ info.chain := by
      rw [hl]
      exact List.mem_append_right _ List.mem_cons_self
    have hn₀ : ¬n₀.generation = info.generation := by
      refine h.not_current hmem ?_
      rw [show n₀.taskId = t from congrArg Prod.fst ha]
      rw [HasState, ht, Option.map_some, hp]
      exact fun heq ↦ State.noConfusion (Option.some.inj heq)
    rw [hl] at hlead
    rw [ChainInfo.start, hl, List.map_append, List.map_cons, hid hxs, hid hys, if_pos ha]
    exact leading_of_split (h.current_of_ready hr hl ha) rfl (hlead.not_of_not hn₀)
  current := by
    intro n hn hg
    obtain ⟨n₀, hn₀, rfl⟩ := List.mem_map.1 hn
    have hact : HasState tasks n₀.taskId .active ∨ n₀.taskId = t →
        HasState (Function.update tasks t (some { task with state := .active }))
          n₀.taskId .active := by
      intro hor
      by_cases he : n₀.taskId = t
      · rw [he, HasState, Function.update_self]
        rfl
      · rw [HasState, Function.update_of_ne he]
        exact hor.resolve_right he
    split_ifs at hg ⊢ with ha
    · exact hact (.inr (congrArg Prod.fst ha))
    · exact hact (.inl (h.current n₀ hn₀ hg))
  sorted := by
    rw [map_taskId_eq (map_address_start info _)]
    exact h.sorted

/-! ## What starting tasks does -/

/-- In some chain the one task comes before the other. -/
def Precedes (s : ChainScheduler ExtraT) (t' t : TaskId) : Prop :=
  ∃ c info, s.chains c = some info ∧ info.Precedes t' t

/-- The chains keep their nodes, and these tasks have been started, each after those that come
before it. -/
structure Frame (s s' : ChainScheduler ExtraT) (new : List TaskId) : Prop where
  address : ∀ c, (s'.chains c).map (fun info ↦ info.chain.map ChainNode.address) =
    (s.chains c).map fun info ↦ info.chain.map ChainNode.address
  chains : ∀ t, (s'.task t).map Task.chains = (s.task t).map Task.chains
  pending : ∀ t, HasState s'.task t .pending → HasState s.task t .pending
  active : ∀ t, HasState s'.task t .active ↔ HasState s.task t .active ∨ t ∈ new
  pendingTasks : s'.pendingTasks = s.pendingTasks ++ new
  order : ∀ {xs t ys}, new = xs ++ t :: ys → ∀ t', s.Precedes t' t →
    HasState s.task t' .active ∨ t' ∈ xs

theorem Frame.refl (s : ChainScheduler ExtraT) : Frame s s [] where
  address _ := rfl
  chains _ := rfl
  pending _ := id
  active _ := (or_iff_left List.not_mem_nil).symm
  pendingTasks := (List.append_nil _).symm
  order heq := absurd heq.symm (List.append_ne_nil_of_right_ne_nil _ (List.cons_ne_nil _ _))

variable {new new' : List TaskId}

theorem Frame.exists_chain (h : Frame s s' new) (hc : s.chains c = some info) :
    ∃ info', s'.chains c = some info' ∧
      info'.chain.map ChainNode.address = info.chain.map ChainNode.address := by
  have ha := h.address c
  rw [hc, Option.map_some, Option.map_eq_some_iff] at ha
  exact ha

theorem Frame.precedes (h : Frame s s' new) {t t' : TaskId} (hp : s.Precedes t' t) :
    s'.Precedes t' t := by
  obtain ⟨c, info, hc, hsub⟩ := hp
  obtain ⟨info', hc', ha⟩ := h.exists_chain hc
  refine ⟨c, info', hc', ?_⟩
  rwa [ChainInfo.Precedes, ChainInfo.map_taskId_eq ha]

theorem Frame.precedes_of (h : Frame s s' new) (hc : s'.chains c = some info) {t t' : TaskId}
    (hp : info.Precedes t' t) : s.Precedes t' t := by
  have ha := h.address c
  rw [hc, Option.map_some] at ha
  obtain ⟨info₀, hc₀, ha⟩ := Option.map_eq_some_iff.1 ha.symm
  refine ⟨c, info₀, hc₀, ?_⟩
  rwa [ChainInfo.Precedes, ChainInfo.map_taskId_eq ha]

theorem Frame.trans {s'' : ChainScheduler ExtraT} (h : Frame s s' new) (h' : Frame s' s'' new') :
    Frame s s'' (new ++ new') where
  address c := (h'.address c).trans (h.address c)
  chains t := (h'.chains t).trans (h.chains t)
  pending t ht := h.pending t (h'.pending t ht)
  active t := by rw [h'.active, h.active, List.mem_append, or_assoc]
  pendingTasks := by rw [h'.pendingTasks, h.pendingTasks, List.append_assoc]
  order := by
    intro xs t ys heq t' hp
    rcases List.append_eq_append_iff.1 heq with ⟨zs, rfl, hnew⟩ | ⟨zs, hnew, hrest⟩
    · -- the task is one of the second part
      rcases h'.order hnew t' (h.precedes hp) with hactive | hmem
      · rw [h.active] at hactive
        exact hactive.imp_right (List.mem_append_left _)
      · exact .inr (List.mem_append_right _ hmem)
    · cases zs with
      | nil =>
        rw [List.append_nil] at hnew
        obtain rfl := hnew
        have hnew : new' = [] ++ t :: ys := hrest.symm
        rcases h'.order hnew t' (h.precedes hp) with hactive | hmem
        · exact (h.active t').1 hactive
        · cases hmem
      | cons z zs =>
        obtain ⟨rfl, -⟩ := List.cons.inj hrest
        exact h.order hnew t' hp

/-- The tasks that come after a task in these of its chains. -/
def childrenOf (s : ChainScheduler ExtraT) (t : TaskId) (chains : List (ChainId × ℕ)) :
    List TaskId :=
  chains.filterMap fun chain ↦ (s.chains chain.1).bind fun info ↦ info.getChild (t, chain.2)

theorem Frame.childrenOf (h : Frame s s' new) (t : TaskId) (chains : List (ChainId × ℕ)) :
    s'.childrenOf t chains = s.childrenOf t chains := by
  refine List.filterMap_congr fun chain _ ↦ ?_
  have ha := h.address chain.1
  cases hc : s.chains chain.1 with
  | none =>
    rw [hc, Option.map_none, Option.map_eq_none_iff] at ha
    rw [ha, Option.bind_none]
  | some info =>
    rw [hc, Option.map_some, Option.map_eq_some_iff] at ha
    obtain ⟨info', hc', ha⟩ := ha
    rw [hc', Option.bind_some, Option.bind_some, ChainInfo.getChild_congr ha]

theorem mem_childrenOf {chains : List (ChainId × ℕ)} (hi : (c, i) ∈ chains)
    (hc : s.chains c = some info) {t' : TaskId} (ht' : info.getChild (t, i) = some t') :
    t' ∈ s.childrenOf t chains :=
  List.mem_filterMap.2 ⟨(c, i), hi, by rw [hc, Option.bind_some, ht']⟩

/-- The tasks that come after a task are there. -/
theorem exists_task_of_mem_childrenOf {number : TaskId → ℕ}
    {tasks : TaskId → Option (Task ExtraT)}
    (h : ∀ {c info}, s.chains c = some info → info.Sound tasks number c)
    {chains : List (ChainId × ℕ)} {t' : TaskId} (ht' : t' ∈ s.childrenOf t chains) :
    ∃ task, tasks t' = some task := by
  obtain ⟨chain, -, hb⟩ := List.mem_filterMap.1 ht'
  obtain ⟨info, hc, hch⟩ := Option.bind_eq_some_iff.1 hb
  obtain ⟨n, hn, rfl⟩ := Option.map_eq_some_iff.1 hch
  obtain ⟨task, htask, -⟩ := (h hc).node n (mem_of_after hn)
  exact ⟨task, htask⟩

/-! ## Tasks that can be started -/

/-- What `try_start_task` finds out about a task that it starts. -/
def Startable (s : ChainScheduler ExtraT) (t : TaskId) (chains : List (ChainId × ℕ)) : Prop :=
  ∀ c i, (c, i) ∈ chains →
    ∃ info, s.chains c = some info ∧ info.Ready (t, i) ∧ info.activeTasks < 10

/-- A node stays blocked by another node than the one that is started. -/
theorem ChainInfo.not_ready_start {node node' : TaskId × ℕ} (h : ¬info.Ready node)
    (hne : ∀ parent, info.getParent node = some parent → parent.address ≠ node') :
    ¬(info.start node').Ready node := by
  intro hr
  refine h fun parent hp ↦ ?_
  have haddr : ∀ n : ChainNode, ChainNode.address
      (if n.address = node' then { n with generation := info.generation } else n) = n.address := by
    intro n
    split_ifs <;> rfl
  refine hr parent ?_
  rw [getParent, ChainInfo.start, before_map haddr]
  change Option.map _ (info.getParent node) = _
  rw [hp, Option.map_some, if_neg (hne parent hp)]

theorem update_eq_some_iff {α β : Type} [DecidableEq α] {f : α → Option β} {a x : α} {b y : β} :
    Function.update f a (some b) x = some y ↔ x = a ∧ b = y ∨ x ≠ a ∧ f x = some y := by
  rw [Function.update_apply]
  split_ifs with hx
  · rw [Option.some.injEq, and_iff_right hx, or_iff_left (not_and_of_not_left _ (not_not_intro hx))]
  · rw [and_iff_right hx, or_iff_right (not_and_of_not_left _ hx)]

theorem hasState_update_self {tasks : TaskId → Option (Task ExtraT)} {state : State} :
    HasState (Function.update tasks t (some task)) t state ↔ task.state = state := by
  rw [HasState, Function.update_self, Option.map_some, Option.some.injEq]

theorem hasState_update_of_ne {tasks : TaskId → Option (Task ExtraT)} {state : State}
    {t' : TaskId} {o : Option (Task ExtraT)} (hne : t' ≠ t) :
    HasState (Function.update tasks t o) t' state ↔ HasState tasks t' state := by
  rw [HasState, HasState, Function.update_of_ne hne]

namespace Inv

/-- Where a pending task waits in a chain. -/
theorem exists_waiting (h : Inv s client todo) (ht : s.task t = some task)
    (hp : task.state = .pending) (hi : task.chains[i]? = some c) (hc : s.chains c = some info)
    (hr : info.Ready (t, i)) : ∃ n ∈ info.chain, n.address = (t, i) ∧
      n.generation ≠ info.generation ∧
      ∀ p, before ChainNode.address n.address info.chain = some p →
        p.generation = info.generation := by
  obtain ⟨info', hinfo', hm⟩ := h.mem ht hi
  obtain rfl := Option.some.inj (hc.symm.trans hinfo')
  obtain ⟨n, hn, ha⟩ := List.mem_map.1 hm
  refine ⟨n, hn, ha, (h.sound hc).not_current hn ?_, ?_⟩
  · rw [show n.taskId = t from congrArg Prod.fst ha]
    exact (hasState_iff.2 ⟨task, ht, hp⟩ : HasState s.task t .pending).not (by decide)
  · rw [ha]
    exact hr

/-- One node of a chain at most waits and is ready. -/
theorem ready_unique (h : Inv s client todo) {t' : TaskId} {task' : Task ExtraT} {j : ℕ}
    (ht : s.task t = some task) (hp : task.state = .pending) (hi : task.chains[i]? = some c)
    (ht' : s.task t' = some task') (hp' : task'.state = .pending)
    (hj : task'.chains[j]? = some c) (hc : s.chains c = some info) (hr : info.Ready (t, i))
    (hr' : info.Ready (t', j)) : t = t' ∧ i = j := by
  obtain ⟨n, hn, ha, hng, hb⟩ := h.exists_waiting ht hp hi hc hr
  obtain ⟨n', hn', ha', hng', hb'⟩ := h.exists_waiting ht' hp' hj hc hr'
  have hsound := h.sound hc
  have hnn := hsound.leading.frontier_unique hsound.nodup hn hn' hng hng' hb hb'
  rw [hnn, ha', Prod.mk.injEq] at ha
  exact ⟨ha.1.symm, ha.2.symm⟩

/-- A pending task that is first in line twice in one chain would be behind itself. -/
theorem nodup_of_startable (h : Inv s client todo) (ht : s.task t = some task)
    (hp : task.state = .pending) (hs : s.Startable t task.chains.zipIdx) : task.chains.Nodup := by
  rw [List.nodup_iff_getElem?_ne_getElem?]
  intro i j hij hj heq
  obtain ⟨c, hc⟩ : ∃ c, task.chains[j]? = some c := ⟨_, List.getElem?_eq_getElem hj⟩
  rw [hc] at heq
  obtain ⟨info, hinfo, hri, -⟩ := hs c i (mem_zipIdx.2 heq)
  obtain ⟨info', hinfo', hrj, -⟩ := hs c j (mem_zipIdx.2 hc)
  obtain rfl := Option.some.inj (hinfo.symm.trans hinfo')
  exact absurd (h.ready_unique ht hp heq ht hp hc hinfo hri hrj).2 hij.ne

/-- What comes before a task that is first in line everywhere has been started. -/
theorem active_of_precedes (h : Inv s client todo) (ht : s.task t = some task)
    (hn : task.chains.Nodup) (hr : ∀ {c i info}, task.chains[i]? = some c →
      s.chains c = some info → info.Ready (t, i)) {t' : TaskId} (hp : s.Precedes t' t) :
    HasState s.task t' .active := by
  obtain ⟨c, info, hc, hsub⟩ := hp
  have hsound := h.sound hc
  obtain ⟨n, hnm, rfl⟩ := List.mem_map.1 (hsub.subset (List.mem_cons_of_mem _ List.mem_cons_self))
  have hi := h.chain_of_mem hc hnm ht
  have hmem : n.address ∈ info.chain.map ChainNode.address := List.mem_map_of_mem hnm
  obtain ⟨xs, n', ys, hl, ha, -⟩ := exists_append_of_mem_map hmem
  have hys : n.taskId ∉ ys.map ChainNode.taskId := by
    intro hm
    obtain ⟨m, hm, hmt⟩ := List.mem_map.1 hm
    have hmem : m ∈ info.chain := by
      rw [hl]
      exact List.mem_append_right _ (List.mem_cons_of_mem _ hm)
    have hnodup := hsound.nodup
    rw [hl, List.map_append, List.map_cons, ha] at hnodup
    refine (List.nodup_cons.1 (List.nodup_append.1 hnodup).2.1).1 ?_
    exact List.mem_map.2 ⟨m, hm, hsound.address_of_taskId ht hn hi hmem hmt⟩
  rw [ChainInfo.Precedes, hl, List.map_append, List.map_cons,
    show n'.taskId = n.taskId from congrArg Prod.fst ha] at hsub
  obtain ⟨m, hm, rfl⟩ := List.mem_map.1 (precedes_of_notMem hys hsub)
  refine hsound.current m ?_ (hsound.current_of_ready (hr hi hc) hl ha m hm)
  rw [hl]
  exact List.mem_append_left _ hm

section Activate

variable (h : Inv s client (t :: todo)) (ht : s.task t = some task) (hp : task.state = .pending)
  (hs : s.Startable t task.chains.zipIdx)

include h ht hp hs

theorem activate_sound {info : ChainInfo} (hc : (s.activate t task).chains c = some info) :
    info.Sound (s.activate t task).task client.number c := by
  have hn := h.nodup_of_startable ht hp hs
  rw [activate_task h.wf ht]
  by_cases hm : c ∈ task.chains
  · obtain ⟨i, hi⟩ := List.mem_iff_getElem?.1 hm
    obtain ⟨info₀, hc₀, hr, hlt⟩ := hs c i (mem_zipIdx.2 hi)
    rw [activate_chains hn hi hc₀] at hc
    obtain ⟨info₁, hc₁, hmem, hsound⟩ := h.exists_chain ht hi
    obtain rfl : info₀ = info₁ := Option.some.inj (hc₀.symm.trans hc₁)
    obtain rfl := Option.some.inj hc
    exact hsound.start ht hp hn hi hmem hlt hr
  · rw [activate_chains_of_notMem hm] at hc
    refine (h.sound hc).congr fun n hnm ↦ Function.update_of_ne ?_ _ _
    intro he
    exact hm (List.mem_iff_getElem?.2 ⟨_, h.chain_of_mem hc hnm (he ▸ ht)⟩)

theorem activate_frame : Frame s (s.activate t task) [t] where
  address := by
    intro c
    by_cases hm : c ∈ task.chains
    · obtain ⟨i, hi⟩ := List.mem_iff_getElem?.1 hm
      obtain ⟨info, hc, -⟩ := hs c i (mem_zipIdx.2 hi)
      rw [activate_chains (h.nodup_of_startable ht hp hs) hi hc, hc, Option.map_some,
        Option.map_some, ChainInfo.map_address_start]
    · rw [activate_chains_of_notMem hm]
  chains := by
    intro t'
    rw [activate_task h.wf ht]
    by_cases he : t' = t
    · rw [he, Function.update_self, ht]
      rfl
    · rw [Function.update_of_ne he]
  pending := by
    intro t' hs'
    rw [activate_task h.wf ht] at hs'
    by_cases he : t' = t
    · rw [he]
      exact hasState_iff.2 ⟨task, ht, hp⟩
    · rwa [hasState_update_of_ne he] at hs'
  active := by
    intro t'
    rw [activate_task h.wf ht, List.mem_singleton]
    by_cases he : t' = t
    · rw [he, hasState_update_self]
      exact iff_of_true rfl (.inr rfl)
    · rw [hasState_update_of_ne he, or_iff_left he]
  pendingTasks := by
    rw [activate_eq]
  order := by
    intro xs t₁ ys heq t' hpre
    obtain ⟨rfl, rfl⟩ : xs = [] ∧ t = t₁ := by
      rcases List.singleton_eq_append_iff.1 heq with ⟨hxs, hy⟩ | ⟨-, hy⟩
      · exact ⟨hxs, (List.cons.inj hy).1.symm⟩
      · cases hy
    refine .inl (h.active_of_precedes ht (h.nodup_of_startable ht hp hs) ?_ hpre)
    intro c i info hi hc
    obtain ⟨info', hc', hr, -⟩ := hs c i (mem_zipIdx.2 hi)
    rwa [Option.some.inj (hc.symm.trans hc')]

/-- The task has been started; the ones after it are to be tried. -/
theorem activate : Inv (s.activate t task) client
    ((s.activate t task).childrenOf t task.chains.zipIdx ++ todo) where
  wf := by
    rw [activate_eq]
    exact (h.wf.modify_object t fun task ↦ { task with state := .active }).1
  toStart := by
    rw [activate_eq]
    exact h.toStart
  chains_nodup := by
    intro t' task' ht' hp'
    rw [activate_task h.wf ht] at ht'
    have hn := h.nodup_of_startable ht hp hs
    rcases update_eq_some_iff.1 ht' with ⟨-, rfl⟩ | ⟨-, ht'⟩
    · exact hn
    · exact h.chains_nodup ht' hp'
  mem := by
    intro t' task' ht' i c hi
    obtain ⟨info, hc, hm⟩ : ∃ info, s.chains c = some info ∧
        (t', i) ∈ info.chain.map ChainNode.address := by
      rw [activate_task h.wf ht] at ht'
      rcases update_eq_some_iff.1 ht' with ⟨rfl, rfl⟩ | ⟨-, ht'⟩
      · exact h.mem ht hi
      · exact h.mem ht' hi
    obtain ⟨info', hc', ha⟩ := (h.activate_frame ht hp hs).exists_chain hc
    exact ⟨info', hc', ha ▸ hm⟩
  ne_nil := by
    intro c info hc hnil
    have ha := (h.activate_frame ht hp hs).address c
    rw [hc, Option.map_some, hnil] at ha
    obtain ⟨info₀, hc₀, ha⟩ := Option.map_eq_some_iff.1 ha.symm
    exact h.ne_nil hc₀ (List.map_eq_nil_iff.1 ha)
  sound := h.activate_sound ht hp hs
  limited := by
    intro c t' hl
    rw [activate_eq] at hl
    obtain ⟨task', i, info, ht', hp', hi, hc, hten, hr⟩ := h.limited hl
    have hm : c ∉ task.chains := by
      intro hm
      obtain ⟨j, hj⟩ := List.mem_iff_getElem?.1 hm
      obtain ⟨info', hc', -, hlt⟩ := hs c j (mem_zipIdx.2 hj)
      obtain rfl := Option.some.inj (hc.symm.trans hc')
      exact absurd hten hlt.ne
    have hne : t' ≠ t := by
      rintro rfl
      obtain rfl := Option.some.inj (ht.symm.trans ht')
      exact hm (List.mem_iff_getElem?.2 ⟨i, hi⟩)
    refine ⟨task', i, info, ?_, hp', hi, ?_, hten, hr⟩
    · rw [activate_task h.wf ht, Function.update_of_ne hne, ht']
    · rw [activate_chains_of_notMem hm, hc]
  blocked := by
    intro t' task' ht' hp' hn
    rw [activate_task h.wf ht] at ht'
    obtain ⟨-, rfl⟩ | ⟨hne, ht'⟩ := update_eq_some_iff.1 ht'
    · cases hp'
    · rw [List.mem_append, not_or] at hn
      obtain ⟨i, c, hi, hb⟩ := h.blocked ht' hp' (List.not_mem_cons_of_ne_of_not_mem hne hn.2)
      refine ⟨i, c, hi, ?_⟩
      rcases hb with hl | ⟨info, hc, hr⟩
      · rw [activate_eq]
        exact .inl hl
      · right
        by_cases hm : c ∈ task.chains
        · obtain ⟨j, hj⟩ := List.mem_iff_getElem?.1 hm
          have hc' : (s.activate t task).chains c = _ :=
            activate_chains (h.nodup_of_startable ht hp hs) hj hc
          refine ⟨_, hc', ChainInfo.not_ready_start hr fun parent hpar hadd ↦ hn.1 ?_⟩
          obtain ⟨info', hc'', hmem, hsound⟩ := h.exists_chain ht' hi
          obtain rfl := Option.some.inj (hc.symm.trans hc'')
          refine mem_childrenOf (mem_zipIdx.2 hj) hc' ?_
          rw [ChainInfo.getChild_congr (ChainInfo.map_address_start info _), ← hadd]
          exact hsound.getChild_getParent hmem hpar
        · exact ⟨info, by rw [activate_chains_of_notMem hm, hc], hr⟩
  todo := by
    intro t' ht'
    rcases List.mem_append.1 ht' with hc | hc
    · exact exists_task_of_mem_childrenOf (h.activate_sound ht hp hs) hc
    · obtain ⟨task', ht'⟩ := h.todo t' (List.mem_cons_of_mem _ hc)
      rw [activate_task h.wf ht]
      by_cases he : t' = t
      · exact ⟨_, update_eq_some_iff.2 (.inl ⟨he, rfl⟩)⟩
      · exact ⟨task', update_eq_some_iff.2 (.inr ⟨he, ht'⟩)⟩
  started_nodup := by
    rw [activate_eq]
    have hnm : t ∉ s.pendingTasks ++ client.started := fun hm ↦
      (h.started t hm).not (by decide) (hasState_iff.2 ⟨task, ht, hp⟩)
    change (s.pendingTasks ++ [t] ++ client.started).Nodup
    rw [List.append_assoc, List.singleton_append]
    exact (List.nodup_middle).2 (List.nodup_cons.2 ⟨hnm, h.started_nodup⟩)
  started := by
    intro t' ht'
    rw [(h.activate_frame ht hp hs).active, List.mem_singleton]
    rw [activate_eq] at ht'
    change t' ∈ s.pendingTasks ++ [t] ++ client.started at ht'
    rw [List.append_assoc, List.singleton_append, List.mem_append, List.mem_cons, or_left_comm,
      ← List.mem_append] at ht'
    exact ht'.symm.imp_left (h.started t')
  paused := by
    intro t' ht'
    have hpa := h.paused t' ht'
    rw [activate_task h.wf ht, hasState_update_of_ne]
    · exact hpa
    · rintro rfl
      exact hpa.not (by decide) (hasState_iff.2 ⟨task, ht, hp⟩)
  paused_nodup := h.paused_nodup
  created := by
    intro t' task' ht'
    rw [activate_task h.wf ht] at ht'
    have hcreated := h.created ht
    rcases update_eq_some_iff.1 ht' with ⟨rfl, rfl⟩ | ⟨-, ht'⟩
    · exact hcreated
    · exact h.created ht'
  number := by
    have hlive {t' : TaskId} (ht' : (s.activate t task).task t' ≠ none) : s.task t' ≠ none := by
      intro hnone
      have hchains := (h.activate_frame ht hp hs).chains t'
      rw [hnone, Option.map_none, Option.map_eq_none_iff] at hchains
      exact ht' hchains
    intro t₁ t₂ ht₁ ht₂ hnum
    exact h.number (hlive ht₁) (hlive ht₂) hnum

/-- There is one pending task less. -/
theorem activate_ncard : {t' | HasState (s.activate t task).task t' .pending}.ncard <
    {t' | HasState s.task t' .pending}.ncard := by
  refine Set.ncard_lt_ncard ⟨(h.activate_frame ht hp hs).pending, fun hsub ↦ ?_⟩
    (h.finite_hasState _)
  have hst : HasState (s.activate t task).task t .pending := hsub (hasState_iff.2 ⟨task, ht, hp⟩)
  rw [activate_task h.wf ht, hasState_update_self] at hst
  cases hst

end Activate

end Inv

/-! ## `try_start_task` -/

/-- The loop over the chains of a task finds that the task can be started, a chain in which it is
not ready, or one in which it is but that is full. -/
theorem checkChains_spec {chains : List (ChainId × ℕ)}
    (h : ∀ p ∈ chains, ∃ info, s.chains p.1 = some info) :
    (s.checkChains t chains = .ok .start ∧ s.Startable t chains) ∨
    (s.checkChains t chains = .ok .wait ∧ ∃ c i info, (c, i) ∈ chains ∧
      s.chains c = some info ∧ ¬info.Ready (t, i)) ∨
    (∃ c i info, s.checkChains t chains = .ok (.limited c) ∧ (c, i) ∈ chains ∧
      s.chains c = some info ∧ info.Ready (t, i) ∧ 10 ≤ info.activeTasks) := by
  induction chains with
  | nil => exact .inl ⟨rfl, fun _ _ hm ↦ absurd hm List.not_mem_nil⟩
  | cons p chains ih =>
    obtain ⟨c, i⟩ := p
    obtain ⟨info, hc⟩ := h (c, i) List.mem_cons_self
    have hready : ((info.getParent (t, i)).any fun parent ↦
        decide (parent.generation ≠ info.generation)) = true ↔ ¬info.Ready (t, i) := by
      rw [ChainInfo.Ready, Option.any_eq_true]
      simp only [decide_eq_true_eq, not_forall, exists_prop]
    rw [checkChains, chainInfo_eq hc, ok_bind]
    by_cases hr : info.Ready (t, i)
    · rw [if_neg (not_not_intro hr ∘ hready.1)]
      by_cases hten : 10 ≤ info.activeTasks
      · rw [if_pos hten]
        exact .inr (.inr ⟨c, i, info, rfl, List.mem_cons_self, hc, hr, hten⟩)
      · rw [if_neg hten]
        rcases ih fun p hp ↦ h p (List.mem_cons_of_mem _ hp) with
          ⟨heq, hs⟩ | ⟨heq, c', i', info', hm, hrest⟩ | ⟨c', i', info', heq, hm, hrest⟩
        · refine .inl ⟨heq, fun c' i' hm ↦ ?_⟩
          rcases List.mem_cons.1 hm with hp | hm
          · obtain ⟨rfl, rfl⟩ := Prod.mk.inj hp
            exact ⟨info, hc, hr, not_le.1 hten⟩
          · exact hs c' i' hm
        · exact .inr (.inl ⟨heq, c', i', info', List.mem_cons_of_mem _ hm, hrest⟩)
        · exact .inr (.inr ⟨c', i', info', heq, List.mem_cons_of_mem _ hm, hrest⟩)
    · rw [if_pos (hready.2 hr)]
      exact .inr (.inl ⟨rfl, c, i, info, List.mem_cons_self, hc, hr⟩)

namespace Inv

/-- The task is not one of those that are to be tried: it is not pending, or it has a reason to
wait. -/
theorem skip (h : Inv s client (t :: todo)) (ht : s.task t = some task)
    (hb : task.state = .pending → ∃ i c, task.chains[i]? = some c ∧
      (s.limitedTasks c = some t ∨ ∃ info, s.chains c = some info ∧ ¬info.Ready (t, i))) :
    Inv s client todo :=
  { h with
    blocked := by
      intro t' task' ht' hp hn
      by_cases he : t' = t
      · subst he
        obtain rfl := Option.some.inj (ht.symm.trans ht')
        exact hb hp
      · exact h.blocked ht' hp (List.not_mem_cons_of_ne_of_not_mem he hn)
    todo := fun t' ht' ↦ h.todo t' (List.mem_cons_of_mem _ ht') }

/-- A full chain remembers the task that is first in line.  It can remember one only. -/
theorem limit (h : Inv s client (t :: todo)) (ht : s.task t = some task)
    (hp : task.state = .pending) (hi : task.chains[i]? = some c) (hc : s.chains c = some info)
    (hr : info.Ready (t, i)) (hten : 10 ≤ info.activeTasks) :
    Inv { s with limitedTasks := Function.update s.limitedTasks c (some t) } client todo := by
  have hfull : info.activeTasks = 10 := le_antisymm (h.sound hc).active_le hten
  refine Inv.skip { h with limited := ?_, blocked := ?_ } ht ?_
  · intro c' t' hl
    rcases update_eq_some_iff.1 hl with ⟨rfl, rfl⟩ | ⟨-, hl⟩
    · exact ⟨task, i, info, ht, hp, hi, hc, hfull, hr⟩
    · exact h.limited hl
  · intro t' task' ht' hp' hn
    obtain ⟨j, c', hj, hb⟩ := h.blocked ht' hp' hn
    refine ⟨j, c', hj, hb.imp_left fun hl ↦ update_eq_some_iff.2 ?_⟩
    by_cases he : c' = c
    · -- the chain remembered the same task before
      refine .inl ⟨he, ?_⟩
      subst he
      obtain ⟨task₁, j₁, info₁, ht₁, hp₁, hj₁, hc₁, -, hr₁⟩ := h.limited hl
      obtain rfl := Option.some.inj (hc.symm.trans hc₁)
      exact (h.ready_unique ht hp hi ht₁ hp₁ hj₁ hc hr hr₁).1
    · exact .inr ⟨he, hl⟩
  · exact fun _ ↦ ⟨i, c, hi, .inl (Function.update_self _ _ _)⟩

end Inv

theorem Frame.ncard_le (h : Inv s client todo) (hf : Frame s s' new) :
    {t | HasState s'.task t .pending}.ncard ≤ {t | HasState s.task t .pending}.ncard :=
  Set.ncard_le_ncard hf.pending (h.finite_hasState _)

/-- All the tasks that come after a task are tried, if one is. -/
theorem forEachChild_spec
    {f : ChainScheduler ExtraT → TaskId → Except Fault (ChainScheduler ExtraT)}
    {m : ℕ} (hf : ∀ {s t todo}, Inv s client (t :: todo) →
      {t | HasState s.task t .pending}.ncard < m →
      ∃ s' new, f s t = .ok s' ∧ Inv s' client todo ∧ Frame s s' new)
    {chains : List (ChainId × ℕ)} (hc : ∀ p ∈ chains, ∃ info, s.chains p.1 = some info)
    (h : Inv s client (s.childrenOf t chains ++ todo))
    (hm : {t | HasState s.task t .pending}.ncard < m) :
    ∃ s' new, chains.foldlM (forChild t f) s = .ok s' ∧ Inv s' client todo ∧ Frame s s' new := by
  induction chains generalizing s with
  | nil => exact ⟨s, [], rfl, h, .refl s⟩
  | cons p chains ih =>
    obtain ⟨info, hinfo⟩ := hc p List.mem_cons_self
    rw [List.foldlM_cons, forChild, chainInfo_eq hinfo, ok_bind]
    cases hchild : info.getChild (t, p.2) with
    | none =>
      have heq : s.childrenOf t (p :: chains) = s.childrenOf t chains :=
        List.filterMap_cons_none (by rw [hinfo, Option.bind_some, hchild])
      rw [heq] at h
      exact ih (fun q hq ↦ hc q (List.mem_cons_of_mem _ hq)) h hm
    | some child =>
      have heq : s.childrenOf t (p :: chains) = child :: s.childrenOf t chains :=
        List.filterMap_cons_some (by rw [hinfo, Option.bind_some, hchild])
      rw [heq, List.cons_append] at h
      obtain ⟨s₁, new, hok, h₁, hframe⟩ := hf h hm
      rw [← hframe.childrenOf] at h₁
      have hc' : ∀ q ∈ chains, ∃ info, s₁.chains q.1 = some info := by
        intro q hq
        obtain ⟨info', hinfo'⟩ := hc q (List.mem_cons_of_mem _ hq)
        obtain ⟨info'', hinfo'', -⟩ := hframe.exists_chain hinfo'
        exact ⟨info'', hinfo''⟩
      obtain ⟨s₂, new', hok', h₂, hframe'⟩ := ih hc' h₁ ((hframe.ncard_le h).trans_lt hm)
      refine ⟨s₂, new ++ new', ?_, h₂, hframe.trans hframe'⟩
      dsimp only
      rw [hok, ok_bind, hok']

/-- A task is tried, with enough fuel for the pending tasks. -/
theorem tryStartTaskRec_spec (fuel : ℕ) (h : Inv s client (t :: todo))
    (hfuel : {t | HasState s.task t .pending}.ncard < fuel) :
    ∃ s' new, tryStartTaskRec fuel s t = .ok s' ∧ Inv s' client todo ∧ Frame s s' new := by
  induction fuel generalizing s t todo with
  | zero => exact absurd hfuel (Nat.not_lt_zero _)
  | succ fuel ih =>
    obtain ⟨task, ht⟩ := h.todo t List.mem_cons_self
    rw [tryStartTaskRec, getTask_eq h.wf ht, ok_bind]
    by_cases hp : task.state = .pending
    · rw [if_neg (not_not_intro hp)]
      have hc : ∀ p ∈ task.chains.zipIdx, ∃ info, s.chains p.1 = some info := by
        rintro ⟨c, i⟩ hm
        obtain ⟨info, hc, -⟩ := h.mem ht (mem_zipIdx.1 hm)
        exact ⟨info, hc⟩
      rcases checkChains_spec (t := t) hc with
        ⟨heq, hs⟩ | ⟨heq, c, i, info, hm, hinfo, hr⟩ | ⟨c, i, info, heq, hm, hinfo, hr, hten⟩
      · rw [heq, ok_bind]
        have hframe := h.activate_frame ht hp hs
        have hc' : ∀ p ∈ task.chains.zipIdx,
            ∃ info, (s.activate t task).chains p.1 = some info := by
          intro p hm
          obtain ⟨info, hinfo⟩ := hc p hm
          obtain ⟨info', hinfo', -⟩ := hframe.exists_chain hinfo
          exact ⟨info', hinfo'⟩
        obtain ⟨s', new, hok, h', hframe'⟩ := forEachChild_spec ih hc' (h.activate ht hp hs)
          ((h.activate_ncard ht hp hs).trans_le (Nat.le_of_lt_succ hfuel))
        exact ⟨s', [t] ++ new, hok, h', hframe.trans hframe'⟩
      · rw [heq, ok_bind]
        exact ⟨s, [], rfl,
          h.skip ht fun _ ↦ ⟨i, c, mem_zipIdx.1 hm, .inr ⟨info, hinfo, hr⟩⟩, .refl s⟩
      · rw [heq, ok_bind]
        refine ⟨_, [], rfl, h.limit ht hp (mem_zipIdx.1 hm) hinfo hr hten, ?_⟩
        exact { Frame.refl s with }
    · rw [if_pos hp]
      exact ⟨s, [], rfl, h.skip ht (absurd · hp), .refl s⟩

/-- `try_start_task` always comes to an end. -/
theorem tryStartTask_spec (h : Inv s client (t :: todo)) :
    ∃ s' new, s.tryStartTask t = .ok s' ∧ Inv s' client todo ∧ Frame s s' new :=
  tryStartTaskRec_spec _ h (Nat.lt_succ_of_le (h.ncard_hasState_le _))

theorem foldlM_tryStartTask_spec {ts : List TaskId} (h : Inv s client (ts ++ todo)) :
    ∃ s' new, ts.foldlM tryStartTask s = .ok s' ∧ Inv s' client todo ∧ Frame s s' new := by
  induction ts generalizing s with
  | nil => exact ⟨s, [], rfl, h, .refl s⟩
  | cons t ts ih =>
    obtain ⟨s₁, new, hok, h₁, hframe⟩ := tryStartTask_spec h
    obtain ⟨s₂, new', hok', h₂, hframe'⟩ := ih h₁
    exact ⟨s₂, new ++ new', by rw [List.foldlM_cons, hok, ok_bind, hok'], h₂, hframe.trans hframe'⟩

end PxcCore.ChainScheduler
