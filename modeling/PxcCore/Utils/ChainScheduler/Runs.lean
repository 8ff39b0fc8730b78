import PxcCore.Utils.ChainScheduler.Operations

/-!
# Chains and waiting tasks

What a chain is after any run, and that no task is forgotten that could be started.
-/

namespace PxcCore.ChainScheduler

open Lib

variable {ExtraT : Type} {s s' : ChainScheduler ExtraT} {client client' : Client}
  {todo : List TaskId} {t : TaskId} {task : Task ExtraT} {c : ChainId} {i : ℕ} {info : ChainInfo}

/-! ## Chains -/

/-- The task is there and has this chain. -/
def BelongsTo (s : ChainScheduler ExtraT) (t : TaskId) (c : ChainId) : Prop :=
  ∃ task, s.task t = some task ∧ c ∈ task.chains

/-- The tasks of a chain that are active. -/
def activeIn (s : ChainScheduler ExtraT) (c : ChainId) : Set TaskId :=
  {t | HasState s.task t .active ∧ s.BelongsTo t c}

/-- A task of a chain has a node in it. -/
theorem Inv.belongsTo_iff (h : Inv s client todo) (hc : s.chains c = some info) :
    s.BelongsTo t c ↔ t ∈ info.chain.map ChainNode.taskId := by
  constructor
  · rintro ⟨task, ht, hm⟩
    obtain ⟨i, hi⟩ := List.mem_iff_getElem?.1 hm
    obtain ⟨info', hc', hm⟩ := h.mem ht hi
    obtain rfl := Option.some.inj (hc.symm.trans hc')
    obtain ⟨n, hn, ha⟩ := List.mem_map.1 hm
    exact List.mem_map.2 ⟨n, hn, congrArg Prod.fst ha⟩
  · intro hm
    obtain ⟨n, hn, rfl⟩ := List.mem_map.1 hm
    obtain ⟨task, ht, hi⟩ := (h.sound hc).node n hn
    exact ⟨task, ht, List.mem_of_getElem? hi⟩

theorem Inv.chains_ne_none (h : Inv s client todo) :
    s.chains c ≠ none ↔ ∃ t, s.BelongsTo t c := by
  constructor
  · intro hne
    obtain ⟨info, hc⟩ := Option.ne_none_iff_exists'.1 hne
    obtain ⟨n, hn⟩ := List.exists_mem_of_ne_nil _ (h.ne_nil hc)
    exact ⟨n.taskId, (h.belongsTo_iff hc).2 (List.mem_map_of_mem hn)⟩
  · rintro ⟨t, task, ht, hm⟩
    obtain ⟨i, hi⟩ := List.mem_iff_getElem?.1 hm
    obtain ⟨info, hc, -⟩ := h.mem ht hi
    exact Option.ne_none_iff_exists'.2 ⟨info, hc⟩

/-- The count of a chain counts tasks: an active one has one node in it. -/
theorem Inv.activeTasks_eq (h : Inv s client todo) (hc : s.chains c = some info) :
    info.activeTasks = (s.activeIn c).ncard := by
  have hsound := h.sound hc
  let nodes := info.chain.filter fun n ↦ decide (HasState s.task n.taskId .active)
  have hnodup : (nodes.map ChainNode.taskId).Nodup := by
    refine List.Nodup.map_on (fun n hn m hm heq ↦ ?_)
      ((List.Nodup.of_map _ hsound.nodup).filter _)
    obtain ⟨hn, hs⟩ := List.mem_filter.1 hn
    obtain ⟨task, ht, hactive⟩ := hasState_iff.1 (of_decide_eq_true hs)
    have hchains := h.chains_nodup ht (hactive ▸ State.noConfusion)
    have hi := h.chain_of_mem hc hn ht
    exact List.inj_on_of_nodup_map hsound.nodup hn (List.mem_filter.1 hm).1
      (hsound.address_of_taskId ht hchains hi (List.mem_filter.1 hm).1 heq.symm).symm
  have hset : s.activeIn c = {t | t ∈ nodes.map ChainNode.taskId} := by
    ext t
    rw [activeIn, Set.mem_ofPred_eq, Set.mem_ofPred_eq, h.belongsTo_iff hc, List.mem_map,
      List.mem_map]
    constructor
    · rintro ⟨hs, n, hn, rfl⟩
      exact ⟨n, List.mem_filter.2 ⟨hn, decide_eq_true hs⟩, rfl⟩
    · rintro ⟨n, hn, rfl⟩
      obtain ⟨hn, hs⟩ := List.mem_filter.1 hn
      exact ⟨of_decide_eq_true hs, n, hn, rfl⟩
  rw [hset, ← List.coe_toFinset, Set.ncard_coe_finset, List.toFinset_card_of_nodup hnodup,
    List.length_map, hsound.active, List.countP_eq_length_filter]

variable [Inhabited ExtraT]

/-- The chains after any run: the count of a chain is that of its active tasks, ten at most; a full
chain only remembers a task, one of its pending ones; the nodes that have been started since the
last failure are those at the front, and no node is newer; a chain is there as long as it has
tasks. -/
theorem Reachable.chains_sound {kind : Set (Op ExtraT)} (h : Reachable kind s client)
    (c : ChainId) :
    (∀ info, s.chains c = some info →
      info.activeTasks = (s.activeIn c).ncard ∧ info.activeTasks ≤ 10 ∧
      (∀ n ∈ info.chain, n.generation ≤ info.generation) ∧
      info.chain.filter (fun n ↦ n.generation = info.generation) <+: info.chain) ∧
    (∀ t, s.limitedTasks c = some t →
      HasState s.task t .pending ∧ s.BelongsTo t c ∧ (s.activeIn c).ncard = 10) ∧
    (s.chains c ≠ none ↔ ∃ t, s.BelongsTo t c) := by
  have hinv := h.inv
  refine ⟨fun info hc ↦ ?_, fun t hl ↦ ?_, hinv.chains_ne_none⟩
  · have hsound := hinv.sound hc
    exact ⟨hinv.activeTasks_eq hc, hsound.active_le, hsound.le, hsound.leading.filter_prefix⟩
  · obtain ⟨task, i, info, ht, hp, hi, hc, hten, -⟩ := hinv.limited hl
    refine ⟨hasState_iff.2 ⟨task, ht, hp⟩, ⟨task, ht, List.mem_of_getElem? hi⟩, ?_⟩
    rw [← hinv.activeTasks_eq hc, hten]

/-- A task of two chains that has been handed out. -/
theorem chains_sound_one : ∃ (s : ChainScheduler ℕ) (client : Client), client.handed = [0] ∧
    (s.activeIn 2).ncard = 1 ∧ ∃ t, s.BelongsTo t 2 := by
  obtain ⟨s, client, hreach, hhanded, info, hc, hone⟩ : ∃ (s : ChainScheduler ℕ) (client : Client),
      Reachable Set.univ s client ∧ client.handed = [0] ∧
      ∃ info, s.chains 2 = some info ∧ info.activeTasks = 1 := by
    refine ⟨_, _, .step (.step .init trivial ?_
      (rfl : step _ _ (.createTask [1, 2] 7) = .ok (_, _))) trivial ?_
      (rfl : step _ _ .startNextTask = .ok (_, _)), rfl, _, rfl, rfl⟩
    · exact (by decide : (0 : ChainId) ∉ [1, 2])
    · trivial
  obtain ⟨hchain, -, hlive⟩ := hreach.chains_sound 2
  refine ⟨s, client, hhanded, ?_, hlive.1 (hc ▸ Option.some_ne_none info)⟩
  rw [← (hchain info hc).1, hone]

/-! ## Waiting tasks -/

/-- What `create_task` is called with: chains that are pairwise distinct. -/
def Distinct : Set (Op ExtraT) :=
  {op | ∀ chains extra, op = .createTask chains extra → chains.Nodup}

/-- `try_start_task` would start the task. -/
def CouldStart (s : ChainScheduler ExtraT) (t : TaskId) : Prop :=
  ∃ task, s.task t = some task ∧ task.state = .pending ∧ s.Startable t task.chains.zipIdx

omit [Inhabited ExtraT] in
theorem Inv.not_couldStart (h : Inv s client []) (t : TaskId) : ¬s.CouldStart t := by
  rintro ⟨task, ht, hp, hs⟩
  obtain ⟨i, c, hi, hb⟩ := h.blocked ht hp List.not_mem_nil
  obtain ⟨info, hc, hr, hlt⟩ := hs c i (mem_zipIdx.2 hi)
  rcases hb with hl | ⟨info', hc', hr'⟩
  · obtain ⟨task', i', info', -, -, -, hc', hten, -⟩ := h.limited hl
    rw [Option.some.inj (hc.symm.trans hc'), hten] at hlt
    exact lt_irrefl _ hlt
  · rw [Option.some.inj (hc'.symm.trans hc)] at hr'
    exact hr' hr

/-- The chains of all tasks are pairwise distinct in such a run. -/
theorem Reachable.created_nodup (h : Reachable Distinct s client) :
    ∀ chains ∈ client.created, chains.Nodup := by
  induction h with
  | init => exact List.forall_mem_nil _
  | step hreach hkind hallows hstep ih =>
    cases (step_does hreach.inv hallows hstep).1 with
    | create =>
      intro chains hm
      rcases List.mem_append.1 hm with hm | hm
      · exact ih chains hm
      · rw [List.mem_singleton.1 hm]
        exact hkind _ _ rfl
    | idle => exact ih
    | start => exact ih
    | finish => exact ih
    | reset => exact ih
    | pause => exact ih

omit [Inhabited ExtraT] in
/-- The node before one of a task of pairwise distinct chains is of a task created earlier. -/
theorem Inv.number_parent_lt (h : Inv s client todo) (ht : s.task t = some task)
    (hn : task.chains.Nodup) (hi : task.chains[i]? = some c) (hc : s.chains c = some info)
    {parent : ChainNode} (hp : info.getParent (t, i) = some parent) :
    client.number parent.taskId < client.number t := by
  have hsound := h.sound hc
  obtain ⟨info', hc', hm⟩ := h.mem ht hi
  obtain rfl := Option.some.inj (hc.symm.trans hc')
  obtain ⟨xs, n, ys, hl, ha, hxs⟩ := exists_append_of_mem_map hm
  rw [ChainInfo.getParent, hl, before_append ha hxs] at hp
  have hmem : parent ∈ xs := List.mem_of_getLast? hp
  have hparent : parent ∈ info.chain := by
    rw [hl]
    exact List.mem_append_left _ hmem
  have hsorted := hsound.sorted
  rw [hl, List.map_append, List.map_cons, show n.taskId = t from congrArg Prod.fst ha] at hsorted
  have hle : client.number parent.taskId ≤ client.number t :=
    (List.pairwise_append.1 hsorted).2.2 _ (List.mem_map_of_mem hmem) _ List.mem_cons_self
  refine lt_of_le_of_ne hle fun heq ↦ hxs ?_
  obtain ⟨task', ht', -⟩ := hsound.node parent hparent
  have hpt : parent.taskId = t := h.number (Option.ne_none_iff_exists'.2 ⟨task', ht'⟩)
    (Option.ne_none_iff_exists'.2 ⟨task, ht⟩) heq
  exact List.mem_map.2 ⟨parent, hmem, hsound.address_of_taskId ht hn hi hparent hpt⟩

/-- No wake-up is lost: no task waits that could be started, and when none is active, paused or to
be handed out, there is none. -/
theorem Reachable.no_lost_wakeup (h : Reachable Distinct s client) :
    (∀ t, ¬s.CouldStart t) ∧
    (s.pendingTasks = [] →
      (∀ t, ¬HasState s.task t .active ∧ ¬HasState s.task t .paused) → ∀ t, s.task t = none) := by
  have hinv := h.inv
  refine ⟨hinv.not_couldStart, fun _ hidle t ↦ ?_⟩
  by_contra hne
  -- the oldest task could be started
  obtain ⟨t, hlive, hmin⟩ := (measure client.number).wf.has_min {t | s.task t ≠ none} ⟨t, hne⟩
  obtain ⟨task, ht⟩ := Option.ne_none_iff_exists'.1 hlive
  have hp : task.state = .pending := by
    cases hs : task.state with
    | pending => rfl
    | active => exact absurd (hasState_iff.2 ⟨task, ht, hs⟩) (hidle t).1
    | paused => exact absurd (hasState_iff.2 ⟨task, ht, hs⟩) (hidle t).2
  have hn : task.chains.Nodup := h.created_nodup _ (List.mem_of_getElem? (hinv.created ht))
  refine hinv.not_couldStart t ⟨task, ht, hp, fun c i hm ↦ ?_⟩
  have hi := mem_zipIdx.1 hm
  obtain ⟨info, hc, -, hsound⟩ := hinv.exists_chain ht hi
  refine ⟨info, hc, fun parent hparent ↦ ?_, ?_⟩
  · have hlt := hinv.number_parent_lt ht hn hi hc hparent
    refine absurd hlt (hmin parent.taskId ?_)
    obtain ⟨info', hc', hm⟩ := hinv.mem ht hi
    obtain rfl := Option.some.inj (hc.symm.trans hc')
    obtain ⟨task', ht', -⟩ := hsound.node parent (ChainInfo.Sound.getParent_mem hm hparent)
    exact Option.ne_none_iff_exists'.2 ⟨task', ht'⟩
  · have hzero : info.activeTasks = 0 := by
      rw [hsound.active, List.countP_eq_zero]
      intro n _
      rw [decide_eq_true_iff]
      exact (hidle n.taskId).1
    rw [hzero]
    decide

/-- The second of two tasks of a chain, after the first one has been paused. -/
theorem no_lost_wakeup_two : ∃ (s : ChainScheduler ℕ) (client : Client),
    client.paused.length = 1 ∧ client.created.length = 2 ∧ ∀ t, ¬s.CouldStart t := by
  obtain ⟨s, client, hreach, hpaused, hcreated⟩ : ∃ (s : ChainScheduler ℕ) (client : Client),
      Reachable Distinct s client ∧ client.paused.length = 1 ∧ client.created.length = 2 := by
    refine ⟨_, _, .step (.step (.step (.step .init ?_ ?_
      (rfl : step _ _ (.createTask [1, 2] 7) = .ok (_, _))) ?_ ?_
      (rfl : step _ _ (.createTask [2] 7) = .ok (_, _))) ?_ ?_
      (rfl : step _ _ .startNextTask = .ok (_, _))) ?_ ?_
      (rfl : step _ _ (.pauseTask (Container.makeId 0 256)) = .ok (_, _)), rfl, rfl⟩
    · rintro chains extra ⟨⟩
      decide
    · exact (by decide : (0 : ChainId) ∉ [1, 2])
    · rintro chains extra ⟨⟩
      decide
    · exact (by decide : (0 : ChainId) ∉ [2])
    · rintro chains extra ⟨⟩
    · trivial
    · rintro chains extra ⟨⟩
    · exact List.mem_cons_self
  exact ⟨s, client, hpaused, hcreated, hreach.no_lost_wakeup.1⟩

end PxcCore.ChainScheduler
