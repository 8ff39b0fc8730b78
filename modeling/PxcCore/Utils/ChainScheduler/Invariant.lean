import PxcCore.Utils.ChainScheduler.Scheduler

/-!
# The invariant of a ChainScheduler

What holds of a scheduler between operations, and, with the tasks that are still to be tried, in
the middle of one.
-/

namespace PxcCore.ChainScheduler

open Lib

variable {ExtraT : Type}

/-- The task with this identifier. -/
def task (s : ChainScheduler ExtraT) (t : TaskId) : Option (Task ExtraT) := s.tasks.object t

/-- The task is there and in this state. -/
def HasState (tasks : TaskId → Option (Task ExtraT)) (t : TaskId) (state : State) : Prop :=
  (tasks t).map Task.state = some state

instance decidableHasState (tasks : TaskId → Option (Task ExtraT)) (t : TaskId) (state : State) :
    Decidable (HasState tasks t state) := inferInstanceAs (Decidable (_ = _))

/-- The node comes first, or after one that has been started and not reset since. -/
def ChainInfo.Ready (info : ChainInfo) (node : TaskId × ℕ) : Prop :=
  ∀ parent, info.getParent node = some parent → parent.generation = info.generation

/-- What holds of a chain. -/
structure ChainInfo.Sound (tasks : TaskId → Option (Task ExtraT)) (number : TaskId → ℕ)
    (c : ChainId) (info : ChainInfo) : Prop where
  nodup : (info.chain.map ChainNode.address).Nodup
  node : ∀ n ∈ info.chain, ∃ task, tasks n.taskId = some task ∧ task.chains[n.index]? = some c
  active : info.activeTasks = info.chain.countP fun n ↦ decide (HasState tasks n.taskId .active)
  active_le : info.activeTasks ≤ 10
  pos : 0 < info.generation
  le : ∀ n ∈ info.chain, n.generation ≤ info.generation
  leading : Leading (fun n ↦ n.generation = info.generation) info.chain
  current : ∀ n ∈ info.chain, n.generation = info.generation → HasState tasks n.taskId .active
  sorted : (info.chain.map ChainNode.taskId).Pairwise fun t t' ↦ number t ≤ number t'

/-- What holds when the tasks of `todo` are still to be tried.  A pending task that is not one of
them waits for the node before it in some chain, or is the one that a full chain remembers. -/
structure Inv (s : ChainScheduler ExtraT) (client : Client) (todo : List TaskId) : Prop where
  wf : s.tasks.Wf
  toStart : s.toStart = []
  chains_nodup : ∀ {t task}, s.task t = some task → task.state ≠ .pending → task.chains.Nodup
  mem : ∀ {t task}, s.task t = some task → ∀ {i c}, task.chains[i]? = some c →
    ∃ info, s.chains c = some info ∧ (t, i) ∈ info.chain.map ChainNode.address
  ne_nil : ∀ {c info}, s.chains c = some info → info.chain ≠ []
  sound : ∀ {c info}, s.chains c = some info → info.Sound s.task client.number c
  limited : ∀ {c t}, s.limitedTasks c = some t → ∃ task i info, s.task t = some task ∧
    task.state = .pending ∧ task.chains[i]? = some c ∧ s.chains c = some info ∧
    info.activeTasks = 10 ∧ info.Ready (t, i)
  blocked : ∀ {t task}, s.task t = some task → task.state = .pending → t ∉ todo →
    ∃ i c, task.chains[i]? = some c ∧
      (s.limitedTasks c = some t ∨ ∃ info, s.chains c = some info ∧ ¬info.Ready (t, i))
  todo : ∀ t ∈ todo, ∃ task, s.task t = some task
  started_nodup : (s.pendingTasks ++ client.started).Nodup
  started : ∀ t ∈ s.pendingTasks ++ client.started, HasState s.task t .active
  paused : ∀ t ∈ client.paused, HasState s.task t .paused
  paused_nodup : client.paused.Nodup
  created : ∀ {t task}, s.task t = some task → client.created[client.number t]? = some task.chains
  number : ∀ {t t'}, s.task t ≠ none → s.task t' ≠ none → client.number t = client.number t' →
    t = t'

variable {s s' : ChainScheduler ExtraT} {client : Client} {todo : List TaskId} {t : TaskId}
  {task : Task ExtraT} {c : ChainId} {i : ℕ} {info : ChainInfo}
  {tasks tasks' : TaskId → Option (Task ExtraT)}

/-! ## Tasks -/

theorem hasState_iff {state : State} :
    HasState tasks t state ↔ ∃ task, tasks t = some task ∧ task.state = state :=
  Option.map_eq_some_iff

theorem HasState.eq {state state' : State} (h : HasState tasks t state)
    (h' : HasState tasks t state') : state = state' :=
  Option.some.inj (h.symm.trans h')

/-- A task is in one state. -/
theorem HasState.not {state state' : State} (h : HasState tasks t state) (hne : state ≠ state') :
    ¬HasState tasks t state' :=
  fun h' ↦ hne (h.eq h')

theorem getTask_eq (hwf : s.tasks.Wf) (h : s.task t = some task) : s.getTask t = .ok task := by
  rw [getTask, hwf.get_object h]

theorem chainInfo_eq (h : s.chains c = some info) : s.chainInfo c = .ok info := by
  rw [chainInfo, h]

theorem task_setState (h : s.tasks.Wf) (t : TaskId) (state : State) :
    (s.setState t state).task =
      Function.update s.task t ((s.task t).map fun task ↦ { task with state := state }) :=
  (h.modify_object _ _).2.2.2

theorem wf_setState (h : s.tasks.Wf) (t : TaskId) (state : State) :
    (s.setState t state).tasks.Wf :=
  (h.modify_object t fun task ↦ { task with state := state }).1

/-- The chains of a task with their numbers. -/
theorem mem_zipIdx {chains : List ChainId} : (c, i) ∈ chains.zipIdx ↔ chains[i]? = some c :=
  List.mem_zipIdx_iff_getElem?

theorem map_fst_zipIdx (chains : List ChainId) : chains.zipIdx.map Prod.fst = chains := by
  exact List.zipIdx_map_fst _ _

theorem index_unique {chains : List ChainId} (h : chains.Nodup) {j : ℕ} (hi : chains[i]? = some c)
    (hj : chains[j]? = some c) : i = j := by
  have hlt := (List.getElem?_eq_some_iff.1 hi).1
  exact (List.getElem?_inj hlt h).1 (hi.trans hj.symm)

/-! ## Chains -/

namespace ChainInfo

@[simp] theorem map_address_start (info : ChainInfo) (node : TaskId × ℕ) :
    (info.start node).chain.map ChainNode.address = info.chain.map ChainNode.address := by
  rw [start, List.map_map]
  refine List.map_congr_left fun n _ ↦ ?_
  rw [Function.comp_apply]
  split_ifs <;> rfl

theorem map_taskId_eq {info info' : ChainInfo}
    (h : info'.chain.map ChainNode.address = info.chain.map ChainNode.address) :
    info'.chain.map ChainNode.taskId = info.chain.map ChainNode.taskId := by
  have hmap (l : List ChainNode) :
      l.map ChainNode.taskId = (l.map ChainNode.address).map Prod.fst := by
    rw [List.map_map]
    rfl
  rw [hmap, hmap, h]

/-- Which task is the next depends on the addresses of the nodes only. -/
theorem getChild_congr {info info' : ChainInfo}
    (h : info'.chain.map ChainNode.address = info.chain.map ChainNode.address)
    (node : TaskId × ℕ) : info'.getChild node = info.getChild node := by
  have hchild (l : List ChainNode) :
      (after ChainNode.address node l).map ChainNode.taskId =
        (after id node (l.map ChainNode.address)).map Prod.fst := by
    induction l with
    | nil => rfl
    | cons a l ih =>
      rw [List.map_cons, after, after, id]
      split_ifs
      · rw [List.head?_map, Option.map_map]
        rfl
      · exact ih
  rw [getChild, getChild, hchild, hchild, h]

/-- The tasks of a chain before another one. -/
def Precedes (info : ChainInfo) (t' t : TaskId) : Prop :=
  [t', t].Sublist (info.chain.map ChainNode.taskId)

namespace Sound

variable {number : TaskId → ℕ} (h : info.Sound tasks number c)

include h

/-- A task of different chains has one node in each. -/
theorem address_of_taskId (ht : tasks t = some task) (hnodup : task.chains.Nodup)
    (hi : task.chains[i]? = some c) {n : ChainNode} (hn : n ∈ info.chain) (hnt : n.taskId = t) :
    n.address = (t, i) := by
  obtain ⟨task', ht', hi'⟩ := h.node n hn
  rw [hnt] at ht'
  obtain rfl := Option.some.inj (ht.symm.trans ht')
  rw [ChainNode.address, hnt, index_unique hnodup hi' hi]

/-- Only the tasks of the chain matter. -/
theorem congr (ht : ∀ n ∈ info.chain, tasks' n.taskId = tasks n.taskId) :
    info.Sound tasks' number c :=
  { h with
    node := fun n hn ↦ by
      rw [ht n hn]
      exact h.node n hn
    active := by
      rw [h.active]
      refine List.countP_congr fun n hn ↦ ?_
      rw [decide_eq_true_iff, decide_eq_true_iff, HasState, HasState, ht n hn]
    current := fun n hn hg ↦ by
      have := h.current n hn hg
      rwa [HasState, ht n hn] }

/-- A node that is not active is not one of those at the front. -/
theorem not_current {n : ChainNode} (hn : n ∈ info.chain)
    (hs : ¬HasState tasks n.taskId .active) : n.generation ≠ info.generation :=
  fun hg ↦ hs (h.current n hn hg)

omit h in
theorem getParent_mem {node : TaskId × ℕ} (hi : node ∈ info.chain.map ChainNode.address)
    {parent : ChainNode} (hp : info.getParent node = some parent) : parent ∈ info.chain :=
  mem_of_before hi hp

/-- The node after its predecessor is the node itself. -/
theorem getChild_getParent {node : TaskId × ℕ} (hi : node ∈ info.chain.map ChainNode.address)
    {parent : ChainNode} (hp : info.getParent node = some parent) :
    info.getChild parent.address = some node.1 := by
  obtain ⟨n, hn, rfl⟩ := after_of_before h.nodup hi hp
  rw [getChild, hn]
  rfl

/-- What comes before a node that is ready has been started. -/
theorem current_of_ready (hr : info.Ready (t, i)) {xs ys : List ChainNode} {n : ChainNode}
    (hchain : info.chain = xs ++ n :: ys) (hn : n.address = (t, i)) :
    ∀ x ∈ xs, x.generation = info.generation := by
  have hnodup := h.nodup
  have hleading := h.leading
  rw [hchain] at hleading hnodup
  refine hleading.of_getLast? fun parent hparent ↦ hr parent ?_
  rw [getParent, hchain, before_append hn, hparent]
  rw [List.map_append, List.map_cons, hn] at hnodup
  exact fun hm ↦ (List.nodup_append.1 hnodup).2.2 _ hm _ List.mem_cons_self rfl

end Sound

end ChainInfo

theorem precedes_of_notMem {α : Type} {xs ys : List α} {a b : α} (hys : b ∉ ys)
    (h : [a, b].Sublist (xs ++ b :: ys)) : a ∈ xs := by
  induction xs with
  | nil =>
    rw [List.nil_append, List.cons_sublist_cons'] at h
    rcases h with h | ⟨-, h⟩
    · exact absurd (h.subset (List.mem_cons_of_mem _ List.mem_cons_self)) hys
    · exact absurd (List.singleton_sublist.1 h) hys
  | cons x xs ih =>
    rw [List.cons_append, List.cons_sublist_cons'] at h
    rcases h with h | ⟨rfl, -⟩
    · exact List.mem_cons_of_mem _ (ih h)
    · exact List.mem_cons_self

/-! ## The invariant -/

namespace Inv

theorem init : Inv ({} : ChainScheduler ExtraT) {} [] where
  wf := .init
  toStart := rfl
  chains_nodup := by
    intro t task ht
    cases ht
  mem := by
    intro t task ht
    cases ht
  ne_nil := by
    intro c info hc
    cases hc
  sound := by
    intro c info hc
    cases hc
  limited := by
    intro c t hl
    cases hl
  blocked := by
    intro t task ht
    cases ht
  todo := List.forall_mem_nil _
  started_nodup := List.nodup_nil
  started := List.forall_mem_nil _
  paused := List.forall_mem_nil _
  paused_nodup := List.nodup_nil
  created := by
    intro t task ht
    cases ht
  number := by
    intro t t' ht
    exact absurd rfl ht

variable (h : Inv s client todo)

include h

/-- A chain of a task has a node of it. -/
theorem exists_chain (ht : s.task t = some task) (hi : task.chains[i]? = some c) :
    ∃ info, s.chains c = some info ∧ (t, i) ∈ info.chain.map ChainNode.address ∧
      info.Sound s.task client.number c := by
  obtain ⟨info, hc, hm⟩ := h.mem ht hi
  exact ⟨info, hc, hm, h.sound hc⟩

/-- A chain that has a node of a task is one of its chains. -/
theorem chain_of_mem (hc : s.chains c = some info) {n : ChainNode} (hn : n ∈ info.chain)
    (ht : s.task n.taskId = some task) : task.chains[n.index]? = some c := by
  obtain ⟨task', ht', hi⟩ := (h.sound hc).node n hn
  rwa [Option.some.inj (ht.symm.trans ht')]

/-- There are finitely many tasks. -/
theorem finite_task : {t | s.task t ≠ none}.Finite := by
  refine Set.Finite.of_injOn (f := client.number) (t := Set.Iio client.created.length) ?_ ?_
    (Set.finite_Iio _)
  · intro t ht
    obtain ⟨task, ht⟩ := Option.ne_none_iff_exists'.1 ht
    exact (List.getElem?_eq_some_iff.1 (h.created ht)).1
  · exact fun t ht t' ht' ↦ h.number ht ht'

theorem finite_hasState (state : State) : {t | HasState s.task t state}.Finite := by
  refine h.finite_task.subset fun t ht ↦ ?_
  obtain ⟨task, ht, -⟩ := hasState_iff.1 ht
  exact Option.ne_none_iff_exists'.2 ⟨task, ht⟩

theorem ncard_hasState_le (state : State) :
    {t | HasState s.task t state}.ncard ≤ s.tasks.slots.length := by
  have hfin := h.finite_hasState state
  rw [Set.ncard_eq_toFinset_card _ hfin, ← Finset.length_toList]
  refine h.wf.length_le (Finset.nodup_toList _) fun t ht ↦ ?_
  rw [Finset.mem_toList, Set.Finite.mem_toFinset] at ht
  obtain ⟨task, ht, -⟩ := hasState_iff.1 ht
  exact Option.ne_none_iff_exists'.2 ⟨task, ht⟩

/-- More tasks may be tried. -/
theorem mono {todo' : List TaskId} (hsub : todo ⊆ todo')
    (ht : ∀ t ∈ todo', ∃ task, s.task t = some task) : Inv s client todo' :=
  { h with
    blocked := fun ht hp hn ↦ h.blocked ht hp fun hm ↦ hn (hsub hm)
    todo := ht }

end Inv

end PxcCore.ChainScheduler
