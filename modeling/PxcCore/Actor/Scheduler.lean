import Mathlib

/-!
# Scheduler

`Scheduler.h` and `Scheduler.cpp`: schedulers that run actors, each on a thread of its own, and
exchange messages through inbound queues.  The handlers of the actors are not known: what runs on a
scheduler sends, stops, migrates, creates and returns as it likes, one call after another.

The call stack of a scheduler is a list of the event guards on it.  `sched_id_` is loaded with
relaxed order, so that another thread may see an earlier value, but none that is older than the last
one it has seen.  Contexts, link tokens, the guard of the scheduler, the count of the actors and the
messages that only wake a scheduler up are left out, and the queue of timeouts, which sends events
at any time; what fails a `CHECK` is an error with its text.
-/

namespace PxcCore.Scheduler

/-! ## State -/

/-- `Event`.  The scheduler itself makes `start` and `stop`. -/
inductive Event (E : Type) where
  | start
  | stop
  | data (data : E)
deriving DecidableEq

/-- `ActorSendType` -/
inductive ActorSendType where
  | immediate
  | later
deriving DecidableEq

/-- `ActorInfo`.  It is alive as long as weak pointers to it are, an event that has been moved from
is `none`, and `schedIds` are the values of `sched_id_` up to now: a scheduler, and whether the
actor is on its way there. -/
structure ActorInfo (S E : Type) where
  isAlive : Bool := false
  needStartUp : Bool := true
  mailbox : List (Option (Event E)) := []
  isRunning : Bool := false
  schedIds : List (S × Bool) := []

/-- What an event guard is there for. -/
inductive Task where
  | immediate
  | flushMailbox (i mailboxSize : ℕ)
  | stop
deriving DecidableEq

/-- `EventGuard`, with the flags of its `EventContext`. -/
structure EventGuard (S : Type) where
  task : Task
  stop : Bool := false
  migrate : Option S := none

/-- `EventFull` in an inbound queue. -/
inductive Message (A E : Type) where
  | actor (actor : A)
  | event (actor : A) (event : Event E)

/-- How far `clear` is. -/
inductive Phase where
  | open
  | clearPending
  | clearReady
  | cleared
deriving DecidableEq

/-- The members of `Scheduler`, with the `actors_list` of `run_mailbox`, the event guards on the
stack, which value of `sched_id_` the thread has seen last, and the actor, if there is one, for
which `do_migrate_actor` has stored `sched_id_` and not put its message yet. -/
structure Local (S A E : Type) where
  readyActorsList : List A := []
  pendingActorsList : List A := []
  actorsList : List A := []
  stack : List (A × EventGuard S) := []
  pendingEvents : A → List (Event E) := fun _ ↦ []
  inbound : List (Message A E) := []
  outgoing : List (S × A) := []
  phase : Phase := .open
  seen : A → ℕ := fun _ ↦ 0

/-- The schedulers and the actors, with the events that have been sent to an actor and the events
that it has processed. -/
structure System (S A E : Type) where
  info : A → ActorInfo S E := fun _ ↦ {}
  sched : S → Local S A E := fun _ ↦ {}
  sent : A → List (Event E) := fun _ ↦ []
  log : A → List (Event E) := fun _ ↦ []

namespace EventGuard

/-- `can_run` -/
def canRun {S : Type} (guard : EventGuard S) : Bool := !guard.stop && guard.migrate.isNone

end EventGuard

namespace System

variable {S A E : Type} [DecidableEq S] [DecidableEq A]

/-! ## Parts of the state -/

def modifyInfo (st : System S A E) (a : A) (f : ActorInfo S E → ActorInfo S E) : System S A E :=
  { st with info := Function.update st.info a (f (st.info a)) }

def modifyLocal (st : System S A E) (s : S) (f : Local S A E → Local S A E) : System S A E :=
  { st with sched := Function.update st.sched s (f (st.sched s)) }

/-- `node->remove()` -/
def removeNode (st : System S A E) (s : S) (a : A) : System S A E :=
  st.modifyLocal s fun sched ↦
    { sched with
      readyActorsList := sched.readyActorsList.erase a
      pendingActorsList := sched.pendingActorsList.erase a
      actorsList := sched.actorsList.erase a }

/-- `ready_actors_list_.put(node)` -/
def putReady (st : System S A E) (s : S) (a : A) : System S A E :=
  st.modifyLocal s fun sched ↦ { sched with readyActorsList := sched.readyActorsList ++ [a] }

/-- `pending_actors_list_.put(node)` -/
def putPending (st : System S A E) (s : S) (a : A) : System S A E :=
  st.modifyLocal s fun sched ↦ { sched with pendingActorsList := sched.pendingActorsList ++ [a] }

/-- `migrate_dest_flag_atomic`, for the thread that has written it. -/
def migrateDestFlag (st : System S A E) (a : A) : Option (S × Bool) :=
  (st.info a).schedIds.getLast?

/-- The thread knows the last value of `sched_id_`. -/
def see (st : System S A E) (s : S) (a : A) (j : ℕ) : System S A E :=
  st.modifyLocal s fun sched ↦ { sched with seen := Function.update sched.seen a j }

/-- `sched_id_.store` -/
def storeSchedId (st : System S A E) (s : S) (a : A) (value : S × Bool) : System S A E :=
  (st.see s a (st.info a).schedIds.length).modifyInfo a fun info ↦
    { info with schedIds := info.schedIds ++ [value] }

/-- `outbound_queues_[sched_id]->writer_put` -/
def writerPut (st : System S A E) (d : S) (message : Message A E) : System S A E :=
  st.modifyLocal d fun sched ↦ { sched with inbound := sched.inbound ++ [message] }

/-- `do_event`, up to what the handler does. -/
def doEvent (st : System S A E) (a : A) (event : Event E) : System S A E :=
  { st with log := Function.update st.log a (st.log a ++ [event]) }

/-! ## Event guards -/

/-- `EventGuard(scheduler, actor_info)` -/
def enter (st : System S A E) (s : S) (a : A) (task : Task) : Except String (System S A E) :=
  if (st.info a).isRunning then .error "LOG_CHECK(!is_running_)"
  else .ok ((st.modifyInfo a fun info ↦ { info with isRunning := true }).modifyLocal s
    fun sched ↦ { sched with stack := (a, { task := task }) :: sched.stack })

/-- The first half of `~EventGuard`, which ends the run of the actor. -/
def finishRun (st : System S A E) (s : S) (a : A) : System S A E :=
  let st := st.removeNode s a
  let st := if (st.info a).mailbox.isEmpty then st.putPending s a else st.putReady s a
  (st.modifyInfo a fun info ↦ { info with isRunning := false }).modifyLocal s
    fun sched ↦ { sched with stack := sched.stack.tail }

/-- The event context of the guard on top. -/
def setGuard (st : System S A E) (s : S) (a : A) (guard : EventGuard S) : System S A E :=
  st.modifyLocal s fun sched ↦ { sched with stack := (a, guard) :: sched.stack.tail }

/-! ## Actors come and go -/

/-- `ActorInfo::destroy_actor` and `Scheduler::destroy_actor`, and the end of the owner. -/
def destroyActor (st : System S A E) (s : S) (a : A) : Except String (System S A E) :=
  if (st.migrateDestFlag a).map Prod.fst = some s then
    .ok ((st.removeNode s a).modifyInfo a fun info ↦ { info with mailbox := [], isAlive := false })
  else .error "LOG_CHECK(actor_info->migrate_dest() == sched_id_)"

/-- `do_stop_actor`, up to the handler of the `Stop` event. -/
def doStopActor (st : System S A E) (s : S) (a : A) : Except String (System S A E) :=
  if (st.migrateDestFlag a).map Prod.snd ≠ some false then
    .error "CHECK(!actor_info->is_migrating())"
  else if (st.migrateDestFlag a).map Prod.fst ≠ some s then
    .error "LOG_CHECK(actor_info->migrate_dest() == sched_id_)"
  else if (st.info a).needStartUp then do
    let st ← st.enter s a .stop
    return st.doEvent a .stop
  else st.destroyActor s a

/-- `do_stop_actor`, from the end of the handler on. -/
def finishStop (st : System S A E) (s : S) (a : A) : Except String (System S A E) :=
  ((st.modifyInfo a fun info ↦ { info with mailbox := [] }).finishRun s a).destroyActor s a

/-- `start_migrate_actor` -/
def startMigrateActor (st : System S A E) (s : S) (a : A) (d : S) : System S A E :=
  (st.storeSchedId s a (d, true)).removeNode s a

/-- `do_migrate_actor`, up to `send_to_other_scheduler`. -/
def doMigrateActor (st : System S A E) (s : S) (a : A) (d : S) : System S A E :=
  if s = d then st
  else (st.startMigrateActor s a d).modifyLocal s fun sched ↦
    { sched with outgoing := sched.outgoing ++ [(d, a)] }

/-- `register_migrated_actor` -/
def registerMigratedActor (st : System S A E) (s : S) (a : A) : Except String (System S A E) :=
  if (st.migrateDestFlag a).map Prod.snd ≠ some true then
    .error "LOG_CHECK(actor_info->is_migrating())"
  else if (st.migrateDestFlag a).map Prod.fst ≠ some s then
    .error "CHECK(sched_id_ == actor_info->migrate_dest())"
  else
    let st := st.storeSchedId s a (s, false)
    let st := st.modifyInfo a fun info ↦
      { info with mailbox := info.mailbox ++ ((st.sched s).pendingEvents a).map some }
    let st := st.modifyLocal s fun sched ↦
      { sched with pendingEvents := Function.update sched.pendingEvents a [] }
    .ok (if (st.info a).mailbox.isEmpty then st.putPending s a else st.putReady s a)

/-- The second half of `~EventGuard`. -/
def leave (st : System S A E) (s : S) (a : A) (guard : EventGuard S) :
    Except String (System S A E) :=
  let st := st.finishRun s a
  if guard.stop then st.doStopActor s a
  else match guard.migrate with
    | none => .ok st
    | some d => .ok (st.doMigrateActor s a d)

/-! ## Sending -/

/-- The actor is there and the scheduler is not closing. -/
def Accepts (st : System S A E) (s : S) (a : A) : Prop :=
  (st.info a).isAlive ∧ (st.sched s).phase = .open

instance instDecidableAccepts (st : System S A E) (s : S) (a : A) : Decidable (st.Accepts s a) :=
  inferInstanceAs (Decidable ((st.info a).isAlive ∧ (st.sched s).phase = .open))

/-- `add_to_mailbox` -/
def addToMailbox (st : System S A E) (s : S) (a : A) (event : Event E) : System S A E :=
  let st := if (st.info a).isRunning then st else (st.removeNode s a).putReady s a
  st.modifyInfo a fun info ↦ { info with mailbox := info.mailbox ++ [some event] }

/-- `send_to_scheduler` -/
def sendToScheduler (st : System S A E) (s d : S) (a : A) (event : Event E) : System S A E :=
  if d = s then
    st.modifyLocal s fun sched ↦ { sched with
      pendingEvents := Function.update sched.pendingEvents a (sched.pendingEvents a ++ [event]) }
  else st.writerPut d (.event a event)

/-- `send_impl` to an actor that is there, for this value of `sched_id_`. -/
def deliver (st : System S A E) (s : S) (schedId : S × Bool) (sendType : ActorSendType) (a : A)
    (event : Event E) : Except String (System S A E) :=
  let onCurrentSched : Bool := !schedId.2 && decide (s = schedId.1)
  if sendType = .immediate ∧ onCurrentSched ∧ !(st.info a).isRunning ∧
      (st.info a).mailbox.isEmpty then do
    let st ← st.enter s a .immediate
    return st.doEvent a event
  else if onCurrentSched then .ok (st.addToMailbox s a event)
  else .ok (st.sendToScheduler s schedId.1 a event)

/-- `send` of a new event. -/
def send (st : System S A E) (s : S) (schedId : S × Bool) (sendType : ActorSendType) (a : A)
    (event : Event E) : Except String (System S A E) :=
  if st.Accepts s a then
    { st with sent := Function.update st.sent a (st.sent a ++ [event]) }.deliver s schedId
      sendType a event
  else .ok st

/-- `register_actor_impl` -/
def registerActorImpl (st : System S A E) (s d : S) (a : A) (needStartUp : Bool) :
    Except String (System S A E) :=
  let st := (st.see s a 0).modifyInfo a fun _ ↦
    { isAlive := true, needStartUp := needStartUp, schedIds := [(s, false)] }
  if d ≠ s then do
    let st ← st.send s (s, false) .later a .start
    return st.doMigrateActor s a d
  else
    let st := st.putPending s a
    if needStartUp then st.send s (s, false) .later a .start else .ok st

/-! ## Running -/

/-- `do_event(actor_info, std::move(mailbox[i]))` -/
def doMailboxEvent (st : System S A E) (a : A) (i : ℕ) : Except String (System S A E) :=
  match ((st.info a).mailbox[i]?).join with
  | none => .error "UNREACHABLE()"
  | some event =>
    .ok ((st.modifyInfo a fun info ↦ { info with mailbox := info.mailbox.set i none }).doEvent
      a event)

/-- `flush_mailbox`, up to the first handler. -/
def flushMailbox (st : System S A E) (s : S) (a : A) : Except String (System S A E) :=
  let mailboxSize := (st.info a).mailbox.length
  if mailboxSize = 0 then .error "CHECK(mailbox_size != 0)"
  else do
    let st ← st.enter s a (.flushMailbox 0 mailboxSize)
    st.doMailboxEvent a 0

/-- The handler on top of the stack returns to the scheduler. -/
def handlerReturns (st : System S A E) (s : S) (a : A) (guard : EventGuard S) :
    Except String (System S A E) :=
  match guard.task with
  | .immediate => st.leave s a guard
  | .flushMailbox i mailboxSize =>
    if i + 1 < mailboxSize ∧ guard.canRun then
      (st.setGuard s a { guard with task := .flushMailbox (i + 1) mailboxSize }).doMailboxEvent
        a (i + 1)
    else
      (st.modifyInfo a fun info ↦ { info with mailbox := info.mailbox.drop (i + 1) }).leave
        s a guard
  | .stop => st.finishStop s a

/-! ## Steps -/

end System

/-- What a scheduler does next.  A send or a receive loads the value `j` of `sched_id_`.  The owner
of an actor calls `do_stop`, when the actor does not run, and it takes an actor that is a member of
it along with `start_migrate`, when the member does not run, and `finish_migrate`. -/
inductive Step (S A E : Type) where
  | send (s : S) (j : ℕ) (sendType : ActorSendType) (a : A) (data : E)
  | stop (s : S)
  | migrate (s d : S)
  | register (s d : S) (a : A) (needStartUp : Bool)
  | doStop (s : S) (a : A)
  | handlerReturns (s : S)
  | runMailbox (s : S)
  | nextActor (s : S)
  | receive (s : S) (j : ℕ)
  | putActor (s : S)
  | startMigrate (s d : S) (a : A)
  | finishMigrate (s : S) (a : A)
  | clear (s : S)
  | clearNext (s : S)

/-- The scheduler that makes the step. -/
def Step.sched {S A E : Type} : Step S A E → S
  | .send s .. => s
  | .stop s => s
  | .migrate s _ => s
  | .register s .. => s
  | .doStop s _ => s
  | .handlerReturns s => s
  | .runMailbox s => s
  | .nextActor s => s
  | .receive s _ => s
  | .putActor s => s
  | .startMigrate s .. => s
  | .finishMigrate s _ => s
  | .clear s => s
  | .clearNext s => s

namespace System

variable {S A E : Type} [DecidableEq S] [DecidableEq A]

/-- A load of `sched_id_`. -/
def load (st : System S A E) (s : S) (a : A) (j : ℕ) : Option (S × Bool) :=
  if (st.sched s).seen a ≤ j then (st.info a).schedIds[j]? else none

/-- What `ServiceActor::loop` does with one message. -/
def receiveMessage (st : System S A E) (s : S) (j : ℕ) :
    Message A E → Option (Except String (System S A E))
  | .actor a => some (st.registerMigratedActor s a)
  | .event a event =>
    if st.Accepts s a then
      (st.load s a j).map fun schedId ↦ (st.see s a j).deliver s schedId .immediate a event
    else some (.ok st)

/-- One step of a scheduler that is not in the middle of `do_migrate_actor`, or `none` if it cannot
be made.  `service` are the service actors. -/
def perform (service : S → A) (st : System S A E) :
    Step S A E → Option (Except String (System S A E))
  | .send s j sendType a data =>
    if st.Accepts s a then
      (st.load s a j).map fun schedId ↦ (st.see s a j).send s schedId sendType a (.data data)
    else some (.ok st)
  | .stop s =>
    match (st.sched s).stack with
    | [] => none
    | (a, guard) :: _ => some (.ok (st.setGuard s a { guard with stop := true }))
  | .migrate s d =>
    match (st.sched s).stack with
    | [] => none
    | (a, guard) :: _ =>
      if s = d then some (.ok st) else some (.ok (st.setGuard s a { guard with migrate := some d }))
  | .register s d a needStartUp =>
    if (st.info a).schedIds = [] then some (st.registerActorImpl s d a needStartUp) else none
  | .doStop s a =>
    if (st.info a).isAlive ∧ !(st.info a).isRunning then some (st.doStopActor s a) else none
  | .handlerReturns s =>
    match (st.sched s).stack with
    | [] => none
    | (a, guard) :: _ => some (st.handlerReturns s a guard)
  | .runMailbox s =>
    if (st.sched s).stack = [] ∧ (st.sched s).actorsList = [] ∧ (st.sched s).phase = .open then
      some (.ok (st.modifyLocal s fun sched ↦
        { sched with actorsList := sched.readyActorsList, readyActorsList := [] }))
    else none
  | .nextActor s =>
    match (st.sched s).stack, (st.sched s).actorsList with
    | [], a :: rest =>
      some ((st.modifyLocal s fun sched ↦ { sched with actorsList := rest }).flushMailbox s a)
    | _, _ => none
  | .receive s j =>
    if (st.sched s).stack.head?.map Prod.fst = some (service s) then
      match (st.sched s).inbound with
      | [] => none
      | message :: rest =>
        (st.modifyLocal s fun sched ↦ { sched with inbound := rest }).receiveMessage s j message
    else none
  | .putActor _ => none
  | .startMigrate s d a =>
    if (st.info a).isAlive ∧ st.migrateDestFlag a = some (s, false) ∧ !(st.info a).isRunning ∧
        s ≠ d then
      some (.ok (st.startMigrateActor s a d))
    else none
  | .finishMigrate s a =>
    if (st.info a).isAlive ∧ st.migrateDestFlag a = some (s, true) then
      some (st.registerMigratedActor s a)
    else none
  | .clear s =>
    if (st.sched s).stack = [] ∧ (st.sched s).actorsList = [] ∧ (st.sched s).phase = .open ∧
        (st.info (service s)).isAlive then
      some ((st.modifyLocal s fun sched ↦ { sched with phase := .clearPending }).doStopActor s
        (service s))
    else none
  | .clearNext s =>
    match (st.sched s).stack, (st.sched s).phase with
    | [], .clearPending =>
      match (st.sched s).pendingActorsList with
      | [] => some (.ok (st.modifyLocal s fun sched ↦ { sched with phase := .clearReady }))
      | a :: rest =>
        some ((st.modifyLocal s fun sched ↦ { sched with pendingActorsList := rest }).doStopActor
          s a)
    | [], .clearReady =>
      match (st.sched s).readyActorsList with
      | [] => some (.ok (st.modifyLocal s fun sched ↦ { sched with phase := .cleared }))
      | a :: rest =>
        some ((st.modifyLocal s fun sched ↦ { sched with readyActorsList := rest }).doStopActor
          s a)
    | _, _ => none

/-- One step.  After `start_migrate_actor` the next thing that a scheduler does is
`send_to_other_scheduler`. -/
def step (service : S → A) (st : System S A E) (x : Step S A E) :
    Option (Except String (System S A E)) :=
  match (st.sched x.sched).outgoing, x with
  | [], x => st.perform service x
  | (d, a) :: rest, .putActor s =>
    some (.ok ((st.modifyLocal s fun sched ↦ { sched with outgoing := rest }).writerPut d
      (.actor a)))
  | _, _ => none

/-- Steps one after another. -/
def run (service : S → A) : List (Step S A E) → System S A E →
    Option (Except String (System S A E))
  | [], st => some (.ok st)
  | x :: xs, st =>
    match st.step service x with
    | some (.ok st) => run service xs st
    | result => result

end System

end PxcCore.Scheduler
