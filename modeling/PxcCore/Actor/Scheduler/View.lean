import PxcCore.Actor.Scheduler.Life

/-!
# What the state says of one actor

The part of the state that is about one actor.
-/

namespace PxcCore.Scheduler

open Lib

/-- What the members of a scheduler say of an actor. -/
structure LocalView (S E : Type) where
  ready : ℕ
  pending : ℕ
  frames : List (EventGuard S)
  parked : List (Event E)
  inbound : List (Option (Event E))
  outgoing : List S
  seen : ℕ

/-- What the state says of an actor: its `ActorInfo`, how often it is in the lists of the
schedulers, the event guards for it, the events that wait at the schedulers, what there is for it in
the inbound queues and what is put there next, and what is known of its `sched_id_`. -/
structure View (S E : Type) where
  info : ActorInfo S E
  ready : S → ℕ
  pending : S → ℕ
  frames : S → List (EventGuard S)
  parked : S → List (Event E)
  inbound : S → List (Option (Event E))
  outgoing : S → List S
  seen : S → ℕ
  sent : List (Event E)
  log : List (Event E)

variable {S A E : Type} [DecidableEq S] [DecidableEq A]

/-- What a message is to this actor: an event for it, or the one that brings it. -/
def Message.about (a : A) : Message A E → Option (Option (Event E))
  | .actor b => if b = a then some none else none
  | .event b e => if b = a then some (some e) else none

def Local.view (sched : Local S A E) (a : A) : LocalView S E where
  ready := sched.readyActorsList.count a + sched.actorsList.count a
  pending := sched.pendingActorsList.count a
  frames := (sched.stack.filter fun frame ↦ frame.1 = a).map Prod.snd
  parked := sched.pendingEvents a
  inbound := sched.inbound.filterMap (Message.about a)
  outgoing := (sched.outgoing.filter fun message ↦ message.2 = a).map Prod.fst
  seen := sched.seen a

namespace System

variable {st st' : System S A E} {s t d : S} {a b : A} {guard : EventGuard S} {event : Event E}

def view (st : System S A E) (a : A) : View S E where
  info := st.info a
  ready s := ((st.sched s).view a).ready
  pending s := ((st.sched s).view a).pending
  frames s := ((st.sched s).view a).frames
  parked s := ((st.sched s).view a).parked
  inbound s := ((st.sched s).view a).inbound
  outgoing s := ((st.sched s).view a).outgoing
  seen s := ((st.sched s).view a).seen
  sent := st.sent a
  log := st.log a

/-! ## Parts of the state -/

section Info

omit [DecidableEq S]

theorem view_modifyInfo (f : ActorInfo S E → ActorInfo S E) :
    (st.modifyInfo a f).view a = { st.view a with info := f (st.info a) } := by
  simp [view, modifyInfo]

@[simp] theorem info_modifyInfo (f : ActorInfo S E → ActorInfo S E) :
    (st.modifyInfo a f).info a = f (st.info a) := Function.update_self ..

@[simp] theorem sched_modifyInfo (f : ActorInfo S E → ActorInfo S E) :
    (st.modifyInfo a f).sched = st.sched := rfl

end Info

theorem view_modifyLocal {f : Local S A E → Local S A E} {l : LocalView S E}
    (h : (f (st.sched s)).view b = l) :
    (st.modifyLocal s f).view b =
      { st.view b with
        ready := Function.update (st.view b).ready s l.ready
        pending := Function.update (st.view b).pending s l.pending
        frames := Function.update (st.view b).frames s l.frames
        parked := Function.update (st.view b).parked s l.parked
        inbound := Function.update (st.view b).inbound s l.inbound
        outgoing := Function.update (st.view b).outgoing s l.outgoing
        seen := Function.update (st.view b).seen s l.seen } := by
  have hupdate {β : Type} (g : LocalView S E → β) :
      (fun t ↦ g (((st.modifyLocal s f).sched t).view b)) =
        Function.update (fun t ↦ g ((st.sched t).view b)) s (g l) := by
    subst h
    exact Function.comp_update (fun sched : Local S A E ↦ g (sched.view b)) st.sched s _
  simp only [view, View.mk.injEq]
  exact ⟨rfl, hupdate LocalView.ready, hupdate LocalView.pending, hupdate LocalView.frames,
    hupdate LocalView.parked, hupdate LocalView.inbound, hupdate LocalView.outgoing,
    hupdate LocalView.seen, rfl, rfl⟩

theorem view_modifyLocal_eq {f : Local S A E → Local S A E}
    (h : (f (st.sched s)).view b = (st.sched s).view b) :
    (st.modifyLocal s f).view b = st.view b := by
  rw [view_modifyLocal h]
  simp [view]

omit [DecidableEq A] in
@[simp] theorem sched_modifyLocal (f : Local S A E → Local S A E) :
    (st.modifyLocal s f).sched s = f (st.sched s) := Function.update_self ..

omit [DecidableEq A] in
@[simp] theorem info_modifyLocal (f : Local S A E → Local S A E) :
    (st.modifyLocal s f).info = st.info := rfl

/-! ## The actor itself -/

section Self

theorem view_see (j : ℕ) : (st.see s a j).view a =
    { st.view a with seen := Function.update (st.view a).seen s j } := by
  rw [see, view_modifyLocal rfl]
  simp [view, Local.view]

theorem view_putReady : (st.putReady s a).view a =
    { st.view a with
      ready := Function.update (st.view a).ready s ((st.view a).ready s + 1) } := by
  rw [putReady, view_modifyLocal rfl]
  simp [view, Local.view, Nat.add_right_comm]

theorem view_putPending : (st.putPending s a).view a =
    { st.view a with
      pending := Function.update (st.view a).pending s ((st.view a).pending s + 1) } := by
  rw [putPending, view_modifyLocal rfl]
  simp [view, Local.view]

/-- A node that is in one list at most is in none afterwards. -/
theorem view_removeNode (h : (st.view a).ready s + (st.view a).pending s ≤ 1) :
    (st.removeNode s a).view a =
      { st.view a with
        ready := Function.update (st.view a).ready s 0
        pending := Function.update (st.view a).pending s 0 } := by
  simp only [view, Local.view] at h
  have hview : Local.view { st.sched s with
      readyActorsList := (st.sched s).readyActorsList.erase a
      pendingActorsList := (st.sched s).pendingActorsList.erase a
      actorsList := (st.sched s).actorsList.erase a } a =
        { (st.sched s).view a with ready := 0, pending := 0 } := by
    simp only [Local.view, List.count_erase_self, LocalView.mk.injEq, and_true]
    omega
  rw [removeNode, view_modifyLocal hview]
  simp [view]

theorem view_writerPut_event : (st.writerPut d (.event a event)).view a =
    { st.view a with
      inbound := Function.update (st.view a).inbound d
        ((st.view a).inbound d ++ [some event]) } := by
  rw [writerPut, view_modifyLocal rfl]
  simp [view, Local.view, Message.about]

theorem view_writerPut_actor : (st.writerPut d (.actor a)).view a =
    { st.view a with
      inbound := Function.update (st.view a).inbound d ((st.view a).inbound d ++ [none]) } := by
  rw [writerPut, view_modifyLocal rfl]
  simp [view, Local.view, Message.about]

theorem view_storeSchedId (value : S × Bool) : (st.storeSchedId s a value).view a =
    { st.view a with
      info := { (st.view a).info with schedIds := (st.view a).info.schedIds ++ [value] }
      seen := Function.update (st.view a).seen s (st.view a).info.schedIds.length } := by
  rw [storeSchedId, view_modifyInfo, view_see]
  rfl

omit [DecidableEq S] in
theorem view_doEvent :
    (st.doEvent a event).view a = { st.view a with log := (st.view a).log ++ [event] } := by
  simp [view, doEvent]

/-- An actor that is not running can be entered. -/
theorem enter_eq_ok (h : (st.info a).isRunning = false) (task : Task) :
    ∃ st', st.enter s a task = .ok st' ∧ st'.view a =
      { st.view a with
        info := { (st.view a).info with isRunning := true }
        frames := Function.update (st.view a).frames s
          ({ task := task } :: (st.view a).frames s) } := by
  unfold enter
  rw [if_neg (by simp [h])]
  refine ⟨_, rfl, ?_⟩
  rw [view_modifyLocal rfl, view_modifyInfo]
  simp [view, Local.view]

theorem view_setGuard {old : EventGuard S} {rest : List (A × EventGuard S)}
    (hstack : (st.sched s).stack = (a, old) :: rest) : (st.setGuard s a guard).view a =
      { st.view a with
        frames := Function.update (st.view a).frames s
          (guard :: ((st.view a).frames s).tail) } := by
  rw [setGuard, view_modifyLocal rfl]
  simp [view, Local.view, hstack]

end Self

end System

end PxcCore.Scheduler
