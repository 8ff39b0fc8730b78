import PxcCore.Actor.Scheduler.View
import PxcCore.Lib.Result

/-!
# What a scheduler leaves as it is

What is done to an actor changes nothing that the state says of the other actors, and closes no
scheduler.
-/

namespace PxcCore.Scheduler.System

open Lib

variable {S A E : Type} [DecidableEq S] [DecidableEq A] {st st' st'' : System S A E} {s d : S}
  {a : A} {guard : EventGuard S} {event : Event E}

/-- Only what the state says of this actor changes. -/
structure Frame (a : A) (st st' : System S A E) : Prop where
  view : ∀ b ≠ a, st'.view b = st.view b
  phase : ∀ t, (st'.sched t).phase = (st.sched t).phase

namespace Frame

section

omit [DecidableEq S]

theorem refl (a : A) (st : System S A E) : Frame a st st where
  view _ _ := rfl
  phase _ := rfl

theorem trans (h : Frame a st st') (h' : Frame a st' st'') : Frame a st st'' where
  view b hb := (h'.view b hb).trans (h.view b hb)
  phase t := (h'.phase t).trans (h.phase t)

theorem modifyInfo (f : ActorInfo S E → ActorInfo S E) : Frame a st (st.modifyInfo a f) where
  view b hb := by simp [System.view, System.modifyInfo, hb]
  phase _ := rfl

theorem doEvent : Frame a st (st.doEvent a event) where
  view b hb := by simp [System.view, System.doEvent, hb]
  phase _ := rfl

theorem send : Frame a st
    { st with sent := Function.update st.sent a (st.sent a ++ [event]) } where
  view b hb := by simp [System.view, hb]
  phase _ := rfl

end

theorem modifyLocal {f : Local S A E → Local S A E}
    (hview : ∀ b ≠ a, (f (st.sched s)).view b = (st.sched s).view b)
    (hphase : (f (st.sched s)).phase = (st.sched s).phase) : Frame a st (st.modifyLocal s f) where
  view b hb := view_modifyLocal_eq (hview b hb)
  phase t := by
    rcases eq_or_ne t s with rfl | ht
    · rwa [sched_modifyLocal]
    · exact congrArg Local.phase (Function.update_of_ne ht _ _)

/-! ## Parts of the state -/

theorem removeNode : Frame a st (st.removeNode s a) :=
  .modifyLocal (fun b hb ↦ by simp [Local.view, List.count_erase_of_ne hb]) rfl

theorem putReady : Frame a st (st.putReady s a) :=
  .modifyLocal (fun b hb ↦ by simp [Local.view, hb.symm]) rfl

theorem putPending : Frame a st (st.putPending s a) :=
  .modifyLocal (fun b hb ↦ by simp [Local.view, hb.symm]) rfl

/-- The actor is put into the list that its mailbox calls for. -/
theorem put {P : Prop} [Decidable P] :
    Frame a st (if P then st.putPending s a else st.putReady s a) := by
  split
  · exact putPending
  · exact putReady

theorem see (j : ℕ) : Frame a st (st.see s a j) :=
  .modifyLocal (fun b hb ↦ by simp [Local.view, hb]) rfl

theorem storeSchedId (value : S × Bool) : Frame a st (st.storeSchedId s a value) :=
  (see _).trans (modifyInfo _)

theorem writerPut_event : Frame a st (st.writerPut d (.event a event)) :=
  .modifyLocal (fun b hb ↦ by simp [Local.view, Message.about, hb.symm]) rfl

theorem writerPut_actor : Frame a st (st.writerPut d (.actor a)) :=
  .modifyLocal (fun b hb ↦ by simp [Local.view, Message.about, hb.symm]) rfl

/-! ## Runs of the actor -/

theorem enter {task : Task} (hok : st.enter s a task = .ok st') : Frame a st st' := by
  unfold System.enter at hok
  split at hok
  · cases hok
  · cases hok
    exact (modifyInfo _).trans (.modifyLocal (fun b hb ↦ by simp [Local.view, hb.symm]) rfl)

variable {rest : List (A × EventGuard S)}

theorem setGuard {old : EventGuard S} (hstack : (st.sched s).stack = (a, old) :: rest) :
    Frame a st (st.setGuard s a guard) :=
  .modifyLocal (fun b hb ↦ by simp [Local.view, hstack, hb.symm]) rfl

theorem finishRun (hstack : (st.sched s).stack = (a, guard) :: rest) :
    Frame a st (st.finishRun s a) := by
  unfold System.finishRun
  refine ((removeNode.trans put).trans (modifyInfo _)).trans (.modifyLocal (fun b hb ↦ ?_) rfl)
  split <;>
    simp [Local.view, System.putReady, System.putPending, System.removeNode, hstack, hb.symm]

omit [DecidableEq S] in
theorem doMailboxEvent {i : ℕ} (hok : st.doMailboxEvent a i = .ok st') : Frame a st st' := by
  unfold System.doMailboxEvent at hok
  split at hok
  · cases hok
  · cases hok
    exact (modifyInfo _).trans doEvent

theorem flushMailbox (hok : st.flushMailbox s a = .ok st') : Frame a st st' := by
  simp only [System.flushMailbox] at hok
  split at hok
  · cases hok
  · obtain ⟨st₁, henter, hevent⟩ := bind_eq_ok.mp hok
    exact (enter henter).trans (doMailboxEvent hevent)

/-! ## Actors come and go -/

theorem destroyActor (hok : st.destroyActor s a = .ok st') : Frame a st st' := by
  unfold System.destroyActor at hok
  split at hok
  · cases hok
    exact removeNode.trans (modifyInfo _)
  · cases hok

theorem doStopActor (hok : st.doStopActor s a = .ok st') : Frame a st st' := by
  unfold System.doStopActor at hok
  split_ifs at hok
  · obtain ⟨st₁, henter, hret⟩ := bind_eq_ok.mp hok
    cases hret
    exact (enter henter).trans doEvent
  · exact destroyActor hok

theorem finishStop (hstack : (st.sched s).stack = (a, guard) :: rest)
    (hok : st.finishStop s a = .ok st') : Frame a st st' := by
  refine Frame.trans ?_ (destroyActor hok)
  exact (modifyInfo _).trans (finishRun hstack)

theorem startMigrateActor : Frame a st (st.startMigrateActor s a d) :=
  (storeSchedId _).trans removeNode

theorem doMigrateActor : Frame a st (st.doMigrateActor s a d) := by
  unfold System.doMigrateActor
  split
  · exact refl a st
  · exact startMigrateActor.trans (.modifyLocal (fun b hb ↦ by simp [Local.view, hb.symm]) rfl)

theorem registerMigratedActor (hok : st.registerMigratedActor s a = .ok st') :
    Frame a st st' := by
  unfold System.registerMigratedActor at hok
  split_ifs at hok
  cases hok
  refine Frame.trans (((storeSchedId _).trans (modifyInfo _)).trans
    (.modifyLocal (fun b hb ↦ ?_) rfl)) put
  simp [Local.view, hb]

theorem leave (hstack : (st.sched s).stack = (a, guard) :: rest)
    (hok : st.leave s a guard = .ok st') : Frame a st st' := by
  unfold System.leave at hok
  split at hok
  · exact (finishRun hstack).trans (doStopActor hok)
  · split at hok
    · cases hok
      exact finishRun hstack
    · cases hok
      exact (finishRun hstack).trans doMigrateActor

theorem handlerReturns (hstack : (st.sched s).stack = (a, guard) :: rest)
    (hok : st.handlerReturns s a guard = .ok st') : Frame a st st' := by
  unfold System.handlerReturns at hok
  split at hok
  · exact leave hstack hok
  · split at hok
    · exact (setGuard hstack).trans (doMailboxEvent hok)
    · exact (modifyInfo _).trans (leave hstack hok)
  · exact finishStop hstack hok

/-! ## Sending -/

theorem addToMailbox : Frame a st (st.addToMailbox s a event) := by
  unfold System.addToMailbox
  split
  · exact modifyInfo _
  · exact (removeNode.trans putReady).trans (modifyInfo _)

theorem sendToScheduler : Frame a st (st.sendToScheduler s d a event) := by
  unfold System.sendToScheduler
  split
  · exact .modifyLocal (fun b hb ↦ by simp [Local.view, hb]) rfl
  · exact writerPut_event

theorem deliver {schedId : S × Bool} {sendType : ActorSendType}
    (hok : st.deliver s schedId sendType a event = .ok st') : Frame a st st' := by
  simp only [System.deliver] at hok
  split_ifs at hok
  · obtain ⟨st₁, henter, hret⟩ := bind_eq_ok.mp hok
    cases hret
    exact (enter henter).trans doEvent
  · cases hok
    exact addToMailbox
  · cases hok
    exact sendToScheduler

theorem sends {schedId : S × Bool} {sendType : ActorSendType}
    (hok : st.send s schedId sendType a event = .ok st') : Frame a st st' := by
  unfold System.send at hok
  split at hok
  · exact send.trans (deliver hok)
  · cases hok
    exact refl a st

theorem registerActorImpl {needStartUp : Bool}
    (hok : st.registerActorImpl s d a needStartUp = .ok st') : Frame a st st' := by
  unfold System.registerActorImpl at hok
  split_ifs at hok
  · obtain ⟨st₁, hsend, hret⟩ := bind_eq_ok.mp hok
    cases hret
    exact (((see 0).trans (modifyInfo _)).trans (sends hsend)).trans doMigrateActor
  · exact (((see 0).trans (modifyInfo _)).trans putPending).trans (sends hok)
  · cases hok
    exact ((see 0).trans (modifyInfo _)).trans putPending

end Frame

end PxcCore.Scheduler.System
