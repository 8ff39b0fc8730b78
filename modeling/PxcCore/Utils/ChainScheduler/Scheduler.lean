import PxcCore.Lib.Neighbours
import PxcCore.Lib.Result
import PxcCore.Utils.Container.Objects

/-!
# ChainScheduler

`ChainScheduler.h`.  A task belongs to several chains and is started when in each of them it comes
first, or after a task that has been started and not reset since, and the chain has room.

The node that a task has in a chain is kept in the list of the chain; its address is the task and
the number of the `TaskChainInfo` that it is a field of.  Chains are followed by their identifiers,
where the code has pointers: to follow one whose chain has been erased is `Fault.dangling`.
-/

namespace PxcCore

open Lib

namespace ChainScheduler

abbrev TaskId := Container.Id

abbrev ChainId := UInt64

/-- How an operation ends other than by returning: a failed `CHECK`, a null pointer, a pointer to
what is no more, or a recursion that does not come to an end. -/
inductive Fault where
  | check
  | null
  | dangling
  | fuel
deriving DecidableEq, Repr

structure ChainNode where
  taskId : TaskId
  index : ℕ
  generation : ℕ
deriving DecidableEq

/-- Where the node is. -/
def ChainNode.address (node : ChainNode) : TaskId × ℕ := (node.taskId, node.index)

structure ChainInfo where
  chain : List ChainNode := []
  activeTasks : ℕ := 0
  generation : ℕ := 1

namespace ChainInfo

/-- `Chain::add_task` -/
def addTask (info : ChainInfo) (node : ChainNode) : ChainInfo :=
  { info with chain := info.chain ++ [node] }

/-- `Chain::get_first` -/
def getFirst (info : ChainInfo) : Option TaskId := info.chain.head?.map ChainNode.taskId

/-- `Chain::get_child` -/
def getChild (info : ChainInfo) (node : TaskId × ℕ) : Option TaskId :=
  (after ChainNode.address node info.chain).map ChainNode.taskId

/-- `Chain::get_parent` -/
def getParent (info : ChainInfo) (node : TaskId × ℕ) : Option ChainNode :=
  before ChainNode.address node info.chain

/-- `Chain::finish_task` -/
def finishTask (info : ChainInfo) (node : TaskId × ℕ) : ChainInfo :=
  { info with chain := info.chain.filter fun n ↦ n.address ≠ node }

/-- The generation of a node. -/
def nodeGeneration (info : ChainInfo) (node : TaskId × ℕ) : Option ℕ :=
  (info.chain.find? fun n ↦ n.address = node).map ChainNode.generation

/-- What `do_start_task` does to a chain of the task. -/
def start (info : ChainInfo) (node : TaskId × ℕ) : ChainInfo :=
  { info with
    activeTasks := info.activeTasks + 1
    chain := info.chain.map fun n ↦
      if n.address = node then { n with generation := info.generation } else n }

/-- What `inactivate_task` does to a chain of the task, with the generation of the node there. -/
def inactivate (info : ChainInfo) (generation : ℕ) (wasActive failed : Bool) : ChainInfo :=
  { info with
    activeTasks := if wasActive then info.activeTasks - 1 else info.activeTasks
    generation :=
      if wasActive && failed then max info.generation (generation + 1) else info.generation }

end ChainInfo

/-- `Task::State` -/
inductive State where
  | pending
  | active
  | paused
deriving DecidableEq

structure Task (ExtraT : Type) where
  state : State := .pending
  chains : List ChainId := []
  extra : ExtraT

instance inhabitedTask {ExtraT : Type} [Inhabited ExtraT] : Inhabited (Task ExtraT) :=
  ⟨{ extra := default }⟩

structure TaskWithParents where
  taskId : TaskId
  parents : List TaskId

/-- What the loop of `try_start_task` over the chains of a task comes to. -/
inductive Verdict where
  | start
  | wait
  | limited (chainId : ChainId)

end ChainScheduler

open ChainScheduler in
structure ChainScheduler (ExtraT : Type) where
  chains : ChainId → Option ChainInfo := fun _ ↦ none
  limitedTasks : ChainId → Option TaskId := fun _ ↦ none
  tasks : Container (ChainScheduler.Task ExtraT) := {}
  pendingTasks : List TaskId := []
  toStart : List TaskId := []

namespace ChainScheduler

variable {ExtraT : Type}

/-! ## Access -/

/-- `tasks_.get`, with the `CHECK` that it returns an object. -/
def getTask (s : ChainScheduler ExtraT) (taskId : TaskId) : Except Fault (Task ExtraT) :=
  match s.tasks.get taskId with
  | none => .error .check
  | some task => .ok task

/-- What `chain_info` points to. -/
def chainInfo (s : ChainScheduler ExtraT) (chainId : ChainId) : Except Fault ChainInfo :=
  match s.chains chainId with
  | none => .error .dangling
  | some info => .ok info

def setChain (s : ChainScheduler ExtraT) (chainId : ChainId) (info : ChainInfo) :
    ChainScheduler ExtraT :=
  { s with chains := Function.update s.chains chainId (some info) }

/-- `get_chain_info`: the chain, which is made if there is none. -/
def getChainInfo (s : ChainScheduler ExtraT) (chainId : ChainId) : ChainInfo :=
  (s.chains chainId).getD {}

def setState (s : ChainScheduler ExtraT) (taskId : TaskId) (state : State) :
    ChainScheduler ExtraT :=
  { s with tasks := s.tasks.modify taskId fun task ↦ { task with state := state } }

/-! ## Starting tasks -/

/-- The loop of `try_start_task`. -/
def checkChains (s : ChainScheduler ExtraT) (taskId : TaskId) :
    List (ChainId × ℕ) → Except Fault Verdict
  | [] => .ok .start
  | (chainId, index) :: chains => do
    let info ← s.chainInfo chainId
    if (info.getParent (taskId, index)).any fun parent ↦ parent.generation ≠ info.generation then
      return .wait
    if info.activeTasks ≥ 10 then
      return .limited chainId
    s.checkChains taskId chains

/-- What `for_each_child` does for one of the chains of the task. -/
def forChild (taskId : TaskId)
    (f : ChainScheduler ExtraT → TaskId → Except Fault (ChainScheduler ExtraT))
    (s : ChainScheduler ExtraT) : ChainId × ℕ → Except Fault (ChainScheduler ExtraT)
  | (chainId, index) => do
    let info ← s.chainInfo chainId
    match info.getChild (taskId, index) with
    | none => return s
    | some child => f s child

/-- `for_each_child` -/
def forEachChild (s : ChainScheduler ExtraT) (taskId : TaskId) (task : Task ExtraT)
    (f : ChainScheduler ExtraT → TaskId → Except Fault (ChainScheduler ExtraT)) :
    Except Fault (ChainScheduler ExtraT) :=
  task.chains.zipIdx.foldlM (forChild taskId f) s

/-- `do_start_task`, up to the tasks that come after this one. -/
def activate (s : ChainScheduler ExtraT) (taskId : TaskId) (task : Task ExtraT) :
    ChainScheduler ExtraT :=
  let s := task.chains.zipIdx.foldl (fun s (chainId, index) ↦
    s.setChain chainId ((s.getChainInfo chainId).start (taskId, index))) s
  let s := s.setState taskId .active
  { s with pendingTasks := s.pendingTasks ++ [taskId] }

/-- `try_start_task`, in which the calls of `do_start_task` and of `try_start_task` for the tasks
that come after this one may be nested so deep. -/
def tryStartTaskRec : ℕ → ChainScheduler ExtraT → TaskId → Except Fault (ChainScheduler ExtraT)
  | 0, _, _ => .error .fuel
  | fuel + 1, s, taskId => do
    let task ← s.getTask taskId
    if task.state ≠ .pending then
      return s
    match ← s.checkChains taskId task.chains.zipIdx with
    | .wait => return s
    | .limited chainId =>
      return { s with limitedTasks := Function.update s.limitedTasks chainId (some taskId) }
    | .start => (s.activate taskId task).forEachChild taskId task (tryStartTaskRec fuel)

/-- `try_start_task`.  Every task is started once at most. -/
def tryStartTask (s : ChainScheduler ExtraT) (taskId : TaskId) :
    Except Fault (ChainScheduler ExtraT) :=
  tryStartTaskRec (s.tasks.slots.length + 1) s taskId

def tryStartTaskLater (s : ChainScheduler ExtraT) (taskId : TaskId) : ChainScheduler ExtraT :=
  { s with toStart := s.toStart ++ [taskId] }

def flushTryStartTask (s : ChainScheduler ExtraT) : Except Fault (ChainScheduler ExtraT) := do
  let movedToStart := s.toStart
  let s ← movedToStart.foldlM tryStartTask { s with toStart := [] }
  if s.toStart ≠ [] then
    throw .check
  return s

/-! ## Inactivating tasks -/

/-- What `inactivate_task` does about the task that a chain remembers. -/
def retryLimited (taskId : TaskId) (s : ChainScheduler ExtraT) (chainId : ChainId) :
    ChainScheduler ExtraT :=
  match s.limitedTasks chainId with
  | none => s
  | some limitedTaskId =>
    let s := { s with limitedTasks := Function.update s.limitedTasks chainId none }
    if limitedTaskId ≠ taskId then s.tryStartTaskLater limitedTaskId else s

/-- What `inactivate_task` does about the task that comes first in a chain. -/
def retryFirst (taskId : TaskId) (s : ChainScheduler ExtraT) (info : ChainInfo) :
    ChainScheduler ExtraT :=
  match info.getFirst with
  | none => s
  | some firstTaskId => if firstTaskId ≠ taskId then s.tryStartTaskLater firstTaskId else s

/-- What `inactivate_task` does for one chain of the task. -/
def inactivateChain (taskId : TaskId) (wasActive failed : Bool) (s : ChainScheduler ExtraT) :
    ChainId × ℕ → Except Fault (ChainScheduler ExtraT)
  | (chainId, index) => do
    let info ← s.chainInfo chainId
    let some generation := info.nodeGeneration (taskId, index) | throw .dangling
    let info := info.inactivate generation wasActive failed
    return retryFirst taskId (retryLimited taskId (s.setChain chainId info) chainId) info

/-- `inactivate_task` -/
def inactivateTask (s : ChainScheduler ExtraT) (taskId : TaskId) (failed : Bool) :
    Except Fault (ChainScheduler ExtraT) := do
  let task ← s.getTask taskId
  let wasActive := task.state = .active
  let s := s.setState taskId .pending
  task.chains.zipIdx.foldlM (inactivateChain taskId wasActive failed) s

/-- `finish_chain_task` -/
def finishChainTask (taskId : TaskId) (s : ChainScheduler ExtraT) :
    ChainId × ℕ → Except Fault (ChainScheduler ExtraT)
  | (chainId, index) => do
    let info := (← s.chainInfo chainId).finishTask (taskId, index)
    if info.chain = [] then
      return { s with chains := Function.update s.chains chainId none }
    return s.setChain chainId info

/-! ## Operations -/

/-- What `create_task` does for one of the chains before it has the `TaskChainInfo`s. -/
def registerChain (s : ChainScheduler ExtraT) (chainId : ChainId) :
    Except Fault (ChainScheduler ExtraT) :=
  if chainId = 0 then .error .check else .ok (s.setChain chainId (s.getChainInfo chainId))

/-- What `create_task` does for one of the chains after that. -/
def addToChain (taskId : TaskId) (s : ChainScheduler ExtraT) :
    ChainId × ℕ → Except Fault (ChainScheduler ExtraT)
  | (chainId, index) => do
    let info ← s.chainInfo chainId
    return s.setChain chainId (info.addTask ⟨taskId, index, 0⟩)

/-- `create_task` -/
def createTask [Inhabited ExtraT] (s : ChainScheduler ExtraT) (chains : List ChainId)
    (extra : ExtraT) : Except Fault (TaskId × ChainScheduler ExtraT) := do
  let (taskId, tasks) ← (s.tasks.create default 0).mapError fun _ ↦ .check
  if tasks.get taskId = none then
    throw .null
  let s := { s with tasks := tasks.modify taskId fun task ↦ { task with extra := extra } }
  let s ← chains.foldlM registerChain s
  let s := { s with tasks := s.tasks.modify taskId fun task ↦ { task with chains := chains } }
  let s ← chains.zipIdx.foldlM (addToChain taskId) s
  return (taskId, ← s.tryStartTask taskId)

/-- `get_task_extra` -/
def getTaskExtra (s : ChainScheduler ExtraT) (taskId : TaskId) : Option ExtraT :=
  (s.tasks.get taskId).map Task.extra

/-- `start_next_task` -/
def startNextTask (s : ChainScheduler ExtraT) :
    Except Fault (Option TaskWithParents × ChainScheduler ExtraT) :=
  match s.pendingTasks with
  | [] => .ok (none, s)
  | taskId :: pendingTasks => do
    let s := { s with pendingTasks := pendingTasks }
    let task ← s.getTask taskId
    let parents ← task.chains.zipIdx.mapM fun (chainId, index) ↦ do
      return ((← s.chainInfo chainId).getParent (taskId, index)).map ChainNode.taskId
    return (some ⟨taskId, parents.reduceOption⟩, s)

/-- `finish_task` -/
def finishTask [Inhabited ExtraT] (s : ChainScheduler ExtraT) (taskId : TaskId) :
    Except Fault (ChainScheduler ExtraT) := do
  let task ← s.getTask taskId
  if s.toStart ≠ [] then
    throw .check
  let s ← s.inactivateTask taskId false
  let s ← s.forEachChild taskId task fun s child ↦ return s.tryStartTaskLater child
  let s ← task.chains.zipIdx.foldlM (finishChainTask taskId) s
  let s := { s with tasks := s.tasks.erase taskId }
  s.flushTryStartTask

/-- `reset_task` -/
def resetTask (s : ChainScheduler ExtraT) (taskId : TaskId) :
    Except Fault (ChainScheduler ExtraT) := do
  if s.toStart ≠ [] then
    throw .check
  let _ ← s.getTask taskId
  let s ← s.inactivateTask taskId true
  (s.tryStartTaskLater taskId).flushTryStartTask

/-- `pause_task` -/
def pauseTask (s : ChainScheduler ExtraT) (taskId : TaskId) :
    Except Fault (ChainScheduler ExtraT) := do
  let _ ← s.getTask taskId
  let s ← s.inactivateTask taskId true
  (s.setState taskId .paused).flushTryStartTask

/-! ## Runs -/

/-- What the caller of the scheduler knows: the tasks that `start_next_task` has returned and that
have not been finished, reset or paused since, the paused ones, the chains of all tasks in the order
of their creation, the number in it of the task that has an id, the numbers of the tasks that
`start_next_task` has returned, in this order, and of those that are finished. -/
structure Client where
  started : List TaskId := []
  paused : List TaskId := []
  created : List (List ChainId) := []
  number : TaskId → ℕ := fun _ ↦ 0
  handed : List ℕ := []
  finished : List ℕ := []

/-- What the caller knows after `create_task`. -/
def Client.create (client : Client) (taskId : TaskId) (chains : List ChainId) : Client :=
  { client with
    created := client.created ++ [chains]
    number := Function.update client.number taskId client.created.length }

/-- What the caller knows after `start_next_task`. -/
def Client.start (client : Client) (taskId : TaskId) : Client :=
  { client with
    started := client.started ++ [taskId]
    handed := client.handed ++ [client.number taskId] }

/-- What the caller knows after `finish_task`. -/
def Client.finish (client : Client) (taskId : TaskId) : Client :=
  { client with
    started := client.started.erase taskId
    finished := client.finished ++ [client.number taskId] }

/-- What the caller knows after `reset_task`. -/
def Client.reset (client : Client) (taskId : TaskId) : Client :=
  { client with
    started := client.started.erase taskId
    paused := client.paused.erase taskId }

/-- What the caller knows after `pause_task`. -/
def Client.pause (client : Client) (taskId : TaskId) : Client :=
  { client with
    started := client.started.erase taskId
    paused := taskId :: client.paused }

inductive Op (ExtraT : Type) where
  | createTask (chains : List ChainId) (extra : ExtraT)
  | startNextTask
  | finishTask (taskId : TaskId)
  | resetTask (taskId : TaskId)
  | pauseTask (taskId : TaskId)

/-- The operations that the caller may call. -/
def Client.Allows (client : Client) : Op ExtraT → Prop
  | .createTask chains _ => 0 ∉ chains
  | .startNextTask => True
  | .finishTask taskId => taskId ∈ client.started
  | .resetTask taskId => taskId ∈ client.started ∨ taskId ∈ client.paused
  | .pauseTask taskId => taskId ∈ client.started

/-- One operation, and what the caller knows after it. -/
def step [Inhabited ExtraT] (s : ChainScheduler ExtraT) (client : Client) :
    Op ExtraT → Except Fault (ChainScheduler ExtraT × Client)
  | .createTask chains extra => do
    let (taskId, s) ← s.createTask chains extra
    return (s, client.create taskId chains)
  | .startNextTask => do
    let (task, s) ← s.startNextTask
    return (s, task.elim client fun task ↦ client.start task.taskId)
  | .finishTask taskId => do
    let s ← s.finishTask taskId
    return (s, client.finish taskId)
  | .resetTask taskId => do
    let s ← s.resetTask taskId
    return (s, client.reset taskId)
  | .pauseTask taskId => do
    let s ← s.pauseTask taskId
    return (s, client.pause taskId)

/-- The states that a run of allowed operations, all of them of this kind, comes to. -/
inductive Reachable [Inhabited ExtraT] (kind : Set (Op ExtraT)) :
    ChainScheduler ExtraT → Client → Prop where
  | init : Reachable kind {} {}
  | step {s s' : ChainScheduler ExtraT} {client client' : Client} {op : Op ExtraT} :
    Reachable kind s client → op ∈ kind → client.Allows op →
    s.step client op = .ok (s', client') → Reachable kind s' client'

end ChainScheduler

end PxcCore
