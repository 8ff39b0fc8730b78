import PxcCore.Actor.Scheduler.Frame
import PxcCore.Actor.Scheduler.Simulation

/-!
# The steps of the schedulers

In each step one actor at most goes on with its life.  A step fails only if the owner stops an actor
that is on another scheduler, or takes in one that a message brings.
-/

namespace PxcCore.Scheduler

open Lib

variable {S A E : Type} [DecidableEq S] [DecidableEq A]

/-- The step is a part of `clear`. -/
def Step.closes : Step S A E → Bool
  | .clear _ => true
  | .clearNext _ => true
  | _ => false

/-- The step stops an actor that has not asked for it. -/
def Step.told : Step S A E → Bool
  | .doStop .. => true
  | .clear _ => true
  | .clearNext _ => true
  | _ => false

namespace System

/-- The scheduler is not closing. -/
def isOpen (st : System S A E) (s : S) : Bool := decide ((st.sched s).phase = .open)

variable {st st₁ st' : System S A E} {x : Step S A E} {s d : S} {a : A} {lives : A → Life S E}
  {y : Life S E} {guard : EventGuard S} {isOpen told : Bool} {result : Except String (System S A E)}

/-- No scheduler is opened, and none is closed by other steps than those of `clear`. -/
def Closes (closes : Bool) (st st' : System S A E) : Prop :=
  ∀ t, (st'.sched t).phase = (st.sched t).phase ∨ closes ∧ (st'.sched t).phase ≠ .open

/-- The state shows the lives of the actors after a step of `s`. -/
def Advances (s : S) (isOpen told : Bool) (lives : A → Life S E) (st' : System S A E) : Prop :=
  ∃ lives' : A → Life S E, (∀ a, Shows (st'.view a) (lives' a)) ∧
    ∀ a, lives' a = lives a ∨ Life.Next s isOpen told (lives a) (lives' a)

/-- An actor is not where `s` takes it to be, or is in a message to `s`. -/
def Astray (s : S) (lives : A → Life S E) : Prop :=
  ∃ a, (lives a).place.isAlive ∧ (lives a).place.home ≠ some s ∨ none ∈ (lives a).inbound s

/-- What a step may come to: the actors go on with their lives, or a check fails. -/
inductive Proceeds (x : Step S A E) (st : System S A E) (lives : A → Life S E) :
    Except String (System S A E) → Prop where
  | ok {st' : System S A E} : Closes x.closes st st' →
    Advances x.sched (st.isOpen x.sched) x.told lives st' → Proceeds x st lives (.ok st')
  | error {e : String} : Astray x.sched lives → Proceeds x st lives (.error e)

omit [DecidableEq S] in
theorem Frame.closes (h : Frame a st st') (closes : Bool) : Closes closes st st' :=
  fun t ↦ .inl (h.phase t)

/-- The step changes what the state says of one actor. -/
theorem advances_of_next (h : ∀ b, Shows (st.view b) (lives b))
    (hother : ∀ b ≠ a, st'.view b = st.view b)
    (hnext : Life.Next s isOpen told (lives a) y) (hshows : Shows (st'.view a) y) :
    Advances s isOpen told lives st' := by
  refine ⟨Function.update lives a y, fun b ↦ ?_, fun b ↦ ?_⟩
  · rcases eq_or_ne b a with rfl | hb
    · rwa [Function.update_self]
    · rw [Function.update_of_ne hb, hother b hb]
      exact h b
  · rcases eq_or_ne b a with rfl | hb
    · rw [Function.update_self]
      exact .inr hnext
    · exact .inl (Function.update_of_ne hb _ _)

namespace Proceeds

/-- The step changes what the state says of no actor. -/
theorem of_view (h : ∀ b, Shows (st.view b) (lives b)) (hview : ∀ b, st'.view b = st.view b)
    (hcloses : Closes x.closes st st') : Proceeds x st lives (.ok st') :=
  .ok hcloses ⟨lives, fun b ↦ hview b ▸ h b, fun _ ↦ .inl rfl⟩

theorem refl (h : ∀ b, Shows (st.view b) (lives b)) : Proceeds x st lives (.ok st) :=
  of_view h (fun _ ↦ rfl) fun _ ↦ .inl rfl

theorem of_next (h : ∀ b, Shows (st.view b) (lives b))
    (hframe : ∀ st', result = .ok st' →
      (∀ b ≠ a, st'.view b = st.view b) ∧ Closes x.closes st st')
    (hspec : ∃ st', result = .ok st' ∧
      ∃ y, Life.Next x.sched (st.isOpen x.sched) x.told (lives a) y ∧ Shows (st'.view a) y) :
    Proceeds x st lives result := by
  obtain ⟨st', rfl, y, hnext, hshows⟩ := hspec
  obtain ⟨hother, hcloses⟩ := hframe st' rfl
  exact .ok hcloses (advances_of_next h hother hnext hshows)

/-- The step does something for one actor. -/
theorem of_frame (h : ∀ b, Shows (st.view b) (lives b))
    (hframe : ∀ st', result = .ok st' → Frame a st st')
    (hspec : ∃ st', result = .ok st' ∧
      ∃ y, Life.Next x.sched (st.isOpen x.sched) x.told (lives a) y ∧ Shows (st'.view a) y) :
    Proceeds x st lives result :=
  of_next h (fun st' hok ↦ ⟨(hframe st' hok).view, (hframe st' hok).closes _⟩) hspec

theorem of_error (hastray : Astray x.sched lives) (hspec : ∃ e, result = .error e) :
    Proceeds x st lives result := by
  obtain ⟨e, rfl⟩ := hspec
  exact .error hastray

end Proceeds

/-! ## Which actors are where -/

theorem place_of_stack {rest : List (A × EventGuard S)} (h : Shows (st.view a) y)
    (hstack : (st.sched s).stack = (a, guard) :: rest) : y.place = .running s guard := by
  have hframes : y.place.frames s =
      guard :: (rest.filter fun frame ↦ frame.1 = a).map Prod.snd := by
    rw [← h.looks.frames]
    simp [view, Local.view, hstack]
  exact Place.eq_of_frames hframes

/-- No actor runs at a scheduler without event guards. -/
theorem resting_of_stack (h : Shows (st.view a) y) (hhome : y.place.home = some s)
    (hstack : (st.sched s).stack = []) : y.place = .resting s := by
  obtain hplace | ⟨guard, hplace⟩ := Place.home_eq_some.mp hhome
  · exact hplace
  · have hframes := congrFun h.looks.frames s
    simp [view, Local.view, hstack, hplace, Place.frames] at hframes

/-! ## Actors that are stopped by others -/

omit [DecidableEq S] [DecidableEq A] in
theorem eq_of_place {x : Life S E} {place : Place S} (h : x.place = place) :
    x = { x with place := place } := by
  subst h
  rfl

/-- An actor that rests is stopped. -/
theorem doStopActor_told {x : Life S E} (h : Looks 0 (st.view a) x) (hplace : x.place = .resting s)
    (hloose : Loose s (st.view a).ready (st.view a).pending) :
    ∃ st', st.doStopActor s a = .ok st' ∧
      ∃ y, Life.Next s isOpen true x y ∧ Shows (st'.view a) y :=
  doStopActor_spec (.inl ⟨rfl, hplace⟩) (eq_of_place hplace) h hloose

/-- An actor that is not here is not stopped. -/
theorem doStopActor_error {x : Life S E} (h : Shows (st.view a) x) (halive : x.place.isAlive)
    (hhome : x.place.home ≠ some s) : ∃ e, st.doStopActor s a = .error e := by
  unfold doStopActor
  rw [migrateDestFlag_eq h.looks]
  obtain ⟨t, ht⟩ | ⟨d, hplace⟩ := Place.home_or_migrating halive
  · have hts : t ≠ s := fun hts ↦ hhome (hts ▸ ht)
    rw [Place.schedId_of_home ht]
    exact ⟨_, (if_neg (by simp)).trans (if_pos (by simpa using hts))⟩
  · rw [hplace]
    exact ⟨_, if_pos (by simp [Place.schedId])⟩

/-- An actor that is not on its way here is not taken in. -/
theorem registerMigratedActor_error {x : Life S E} (h : Shows (st.view a) x)
    (hplace : x.place ≠ .migrating s) : ∃ e, st.registerMigratedActor s a = .error e := by
  unfold registerMigratedActor
  rw [migrateDestFlag_eq h.looks]
  split_ifs with hmigrating hdest
  · exact ⟨_, rfl⟩
  · exact ⟨_, rfl⟩
  · refine absurd ?_ hplace
    cases hx : x.place <;> simp_all [Place.schedId]

/-! ## Lists -/

/-- The actor is taken out of a list of `s`, or the list becomes another one. -/
theorem looks_take {x : Life S E} {f : Local S A E → Local S A E} (ready pending : ℕ)
    (h : Shows (st.view a) x) (hplace : x.place = .resting s)
    (hview : (f (st.sched s)).view a =
      { (st.sched s).view a with ready := ready, pending := pending })
    (hready : ready ≤ (st.view a).ready s) (hpending : pending ≤ (st.view a).pending s) :
    Looks 0 ((st.modifyLocal s f).view a) x ∧
      Loose s ((st.modifyLocal s f).view a).ready ((st.modifyLocal s f).view a).pending := by
  have hlooks := h.looks_of_resting hplace
  have hloose := h.listed.loose (by rw [hplace]; rfl)
  rw [view_modifyLocal hview]
  refine ⟨?_, ?_, fun t ht ↦ ?_⟩
  · simpa [view] using hlooks.setLists _ _
  · simp only [Function.update_self]
    have hhere := hloose.here
    omega
  · simp only [Function.update_of_ne ht]
    exact hloose.elsewhere t ht

/-! ## One step after the other -/

section Perform

variable {service : S → A}

omit [DecidableEq S] in
theorem load_eq_some {j : ℕ} {schedId : S × Bool} (h : st.load s a j = some schedId) :
    (st.view a).seen s ≤ j ∧ (st.info a).schedIds[j]? = some schedId := by
  unfold load at h
  split_ifs at h with hseen
  exact ⟨hseen, h⟩

/-- A scheduler loads a value of `sched_id_`. -/
theorem shows_see {j : ℕ} {y : Life S E} (h : Shows (st.view a) y)
    (hseen : (st.view a).seen s ≤ j) :
    Shows ((st.see s a j).view a) y ∧ ((st.see s a j).view a).seen s ≤ j := by
  rw [view_see]
  exact ⟨h.see hseen, (Function.update_self _ _ _).le⟩

theorem proceeds_send {j : ℕ} {sendType : ActorSendType} {data : E}
    (h : ∀ b, Shows (st.view b) (lives b))
    (hstep : st.perform service (.send s j sendType a data) = some result) :
    Proceeds (.send s j sendType a data) st lives result := by
  simp only [perform] at hstep
  split_ifs at hstep with haccepts
  · obtain ⟨schedId, hload, rfl⟩ := Option.map_eq_some_iff.mp hstep
    obtain ⟨hseen, hvalue⟩ := load_eq_some hload
    obtain ⟨hsee, hlast⟩ := shows_see (h a) hseen
    have haccepts' : (st.see s a j).Accepts s a := by simpa [Accepts, see] using haccepts
    have hopen : st.isOpen s = true := decide_eq_true haccepts.2
    refine .of_frame h (fun st' hok ↦ (Frame.see j).trans (.sends hok)) ?_
    simp only [Step.sched, hopen]
    exact send_spec hsee haccepts' hlast hvalue sendType data
  · cases hstep
    exact .refl h

theorem proceeds_register {needStartUp : Bool} (h : ∀ b, Shows (st.view b) (lives b))
    (hstep : st.perform service (.register s d a needStartUp) = some result) :
    Proceeds (.register s d a needStartUp) st lives result := by
  simp only [perform] at hstep
  split_ifs at hstep with hnew
  cases hstep
  exact .of_frame h (fun st' hok ↦ .registerActorImpl hok)
    (registerActorImpl_spec (h a) hnew d needStartUp)

/-- The event context of the actor that runs changes. -/
theorem proceeds_setGuard {rest : List (A × EventGuard S)} {guard' : EventGuard S}
    (h : ∀ b, Shows (st.view b) (lives b)) (hsched : x.sched = s)
    (hstack : (st.sched s).stack = (a, guard) :: rest) (htask : guard'.task = guard.task) :
    Proceeds x st lives (.ok (st.setGuard s a guard')) := by
  subst hsched
  have hplace := place_of_stack (h a) hstack
  refine .of_frame h (fun st' hok ↦ ?_) ⟨_, rfl, _, .flag hplace htask, ?_, ?_⟩
  · cases hok
    exact .setGuard hstack
  · rw [view_setGuard hstack]
    have hlooks := (h a).looks
    have hfits := hlooks.fits
    rw [hplace] at hfits
    have hset := hlooks.setGuard hplace (show guard'.task.Fits _ by rw [htask]; exact hfits)
    rw [hplace] at hset
    simpa [Place.moved, htask] using hset
  · rw [view_setGuard hstack]
    exact (h a).listed.loose (by rw [hplace]; rfl)

theorem proceeds_stop (h : ∀ b, Shows (st.view b) (lives b))
    (hstep : st.perform service (.stop s) = some result) :
    Proceeds (.stop s) st lives result := by
  simp only [perform] at hstep
  split at hstep
  · cases hstep
  · rename_i hstack
    cases hstep
    exact proceeds_setGuard h rfl hstack rfl

theorem proceeds_migrate (h : ∀ b, Shows (st.view b) (lives b))
    (hstep : st.perform service (.migrate s d) = some result) :
    Proceeds (.migrate s d) st lives result := by
  simp only [perform] at hstep
  split at hstep
  · cases hstep
  · rename_i hstack
    split_ifs at hstep
    · cases hstep
      exact .refl h
    · cases hstep
      exact proceeds_setGuard h rfl hstack rfl

theorem proceeds_handlerReturns (h : ∀ b, Shows (st.view b) (lives b))
    (hstep : st.perform service (.handlerReturns s) = some result) :
    Proceeds (.handlerReturns s) st lives result := by
  simp only [perform] at hstep
  split at hstep
  · cases hstep
  · rename_i hstack
    cases hstep
    exact .of_frame h (fun st' hok ↦ .handlerReturns hstack hok)
      (handlerReturns_spec (h _) (place_of_stack (h _) hstack) hstack)

theorem proceeds_doStop (h : ∀ b, Shows (st.view b) (lives b))
    (hstep : st.perform service (.doStop s a) = some result) :
    Proceeds (.doStop s a) st lives result := by
  simp only [perform] at hstep
  split_ifs at hstep with hidle
  cases hstep
  have halive : (lives a).place.isAlive := (h a).looks.isAlive ▸ hidle.1
  by_cases hhome : (lives a).place.home = some s
  · have hplace := (h a).resting hhome (by simpa [view] using hidle.2)
    exact .of_frame h (fun st' hok ↦ .doStopActor hok)
      (doStopActor_told ((h a).looks_of_resting hplace) hplace ((h a).listed.loose hhome))
  · exact .of_error ⟨a, .inl ⟨halive, hhome⟩⟩ (doStopActor_error (h a) halive hhome)

theorem proceeds_runMailbox (h : ∀ b, Shows (st.view b) (lives b))
    (hstep : st.perform service (.runMailbox s) = some result) :
    Proceeds (.runMailbox s) st lives result := by
  simp only [perform] at hstep
  split_ifs at hstep with hidle
  cases hstep
  refine .of_view h (fun b ↦ view_modifyLocal_eq ?_) fun t ↦ .inl ?_
  · simp [Local.view, hidle.2.1]
  · rcases eq_or_ne t s with rfl | ht
    · rw [sched_modifyLocal]
    · exact congrArg Local.phase (Function.update_of_ne ht _ _)

theorem proceeds_nextActor (h : ∀ b, Shows (st.view b) (lives b))
    (hstep : st.perform service (.nextActor s) = some result) :
    Proceeds (.nextActor s) st lives result := by
  simp only [perform] at hstep
  split at hstep
  · rename_i a rest hstack hlist
    cases hstep
    have hready : (st.view a).ready s =
        (st.sched s).readyActorsList.count a + (rest.count a + 1) := by
      simp [view, Local.view, hlist]
    have hplace : (lives a).place = .resting s :=
      resting_of_stack (h a) ((h a).listed.home (by omega)) hstack
    have hmailbox : (lives a).mailbox.isEmpty = false := by
      have hlisted := (h a).listed
      rw [hplace] at hlisted
      exact hlisted.not_isEmpty (by omega)
    obtain ⟨event, events, hevents⟩ := List.exists_cons_of_ne_nil
      (List.isEmpty_eq_false_iff.mp hmailbox)
    obtain ⟨hlooks, hloose⟩ := looks_take (f := fun sched ↦ { sched with actorsList := rest })
      ((st.sched s).readyActorsList.count a + rest.count a) ((st.view a).pending s) (h a) hplace rfl
      (by omega) le_rfl
    refine .of_frame h (fun st' hok ↦ .trans (.modifyLocal (fun b hb ↦ ?_) rfl)
      (.flushMailbox hok)) (flushMailbox_spec hlooks hplace hevents hloose)
    simp [Local.view, hlist, hb.symm]
  · cases hstep

/-! ## Messages -/

section Receive

variable {message : Message A E} {rest : List (Message A E)} {event : Event E}

theorem view_read : (st.modifyLocal s fun sched ↦ { sched with inbound := rest }).view a =
    { st.view a with
      inbound := Function.update (st.view a).inbound s (rest.filterMap (Message.about a)) } := by
  rw [view_modifyLocal rfl]
  simp [view, Local.view]

theorem inbound_eq {m : Option (Event E)} {y : Life S E} (h : Shows (st.view a) y)
    (hinbound : (st.sched s).inbound = message :: rest) (habout : message.about a = some m) :
    y.inbound s = m :: rest.filterMap (Message.about a) := by
  rw [← h.looks.inbound]
  simp [view, Local.view, hinbound, habout]

theorem shows_read {m : Option (Event E)} {y : Life S E} (h : Shows (st.view a) y)
    (hinbound : (st.sched s).inbound = message :: rest) (habout : message.about a = some m) :
    Shows ((st.modifyLocal s fun sched ↦ { sched with inbound := rest }).view a)
      { y with
        inbound := Function.update y.inbound s (rest.filterMap (Message.about a)) } := by
  have hlife := inbound_eq h hinbound habout
  rw [view_read, h.looks.inbound]
  refine h.setInbound (h.ne_unborn fun hy ↦ ?_) _
  rw [hy] at hlife
  cases hlife

/-- A message is read that is about this actor. -/
theorem frame_read (hinbound : (st.sched s).inbound = message :: rest)
    (habout : ∀ b ≠ a, message.about b = none) :
    Frame a st (st.modifyLocal s fun sched ↦ { sched with inbound := rest }) :=
  .modifyLocal (fun b hb ↦ by simp [Local.view, hinbound, habout b hb]) rfl

theorem proceeds_receive_actor {j : ℕ} (h : ∀ b, Shows (st.view b) (lives b))
    (hinbound : (st.sched s).inbound = .actor a :: rest) :
    Proceeds (.receive s j) st lives
      ((st.modifyLocal s fun sched ↦ { sched with inbound := rest }).registerMigratedActor
        s a) := by
  have habout : (Message.actor a : Message A E).about a = some none := by simp [Message.about]
  have hshows := shows_read (h a) hinbound habout
  have hlife := inbound_eq (h a) hinbound habout
  by_cases hplace : (lives a).place = .migrating s
  · obtain ⟨st', hok, hshows'⟩ := registerMigratedActor_spec hshows hplace
    refine .of_frame h (fun st' hok ↦ ?_) ⟨st', hok, _, .arrive hplace hlife, hshows'⟩
    exact (frame_read hinbound fun b hb ↦ by simp [Message.about, hb.symm]).trans
      (.registerMigratedActor hok)
  · refine .of_error ⟨a, .inr ?_⟩ (registerMigratedActor_error hshows hplace)
    simp [Step.sched, hlife]

theorem proceeds_receive_event {j : ℕ} (h : ∀ b, Shows (st.view b) (lives b))
    (hinbound : (st.sched s).inbound = .event a event :: rest)
    (hstep : (st.modifyLocal s fun sched ↦ { sched with inbound := rest }).receiveMessage s j
      (.event a event) = some result) :
    Proceeds (.receive s j) st lives result := by
  have habout : (Message.event a event : Message A E).about a = some (some event) := by
    simp [Message.about]
  have hshows := shows_read (h a) hinbound habout
  have hlife := inbound_eq (h a) hinbound habout
  have hframe : Frame a st (st.modifyLocal s fun sched ↦ { sched with inbound := rest }) :=
    frame_read hinbound fun b hb ↦ by simp [Message.about, hb.symm]
  set st₁ := st.modifyLocal s fun sched ↦ { sched with inbound := rest } with hst₁
  have haccepts : st₁.Accepts s a ↔ (st.isOpen s ∧ (lives a).place.isAlive) := by
    rw [← (h a).looks.isAlive, hst₁, Accepts, sched_modifyLocal, isOpen, decide_eq_true_iff,
      and_comm]
    rfl
  simp only [receiveMessage] at hstep
  split_ifs at hstep with haccepted
  · obtain ⟨hopen, halive⟩ := haccepts.mp haccepted
    obtain ⟨schedId, hload, rfl⟩ := Option.map_eq_some_iff.mp hstep
    obtain ⟨hseen, hvalue⟩ := load_eq_some hload
    obtain ⟨hsee, hlast⟩ := shows_see hshows hseen
    obtain ⟨st', hok, y, hdelivers, hshows'⟩ :=
      deliver_spec hsee halive hlast hvalue .immediate event
    refine .of_frame h (fun st' hok ↦ hframe.trans ((Frame.see j).trans (.deliver hok))) ?_
    exact ⟨st', hok, y, .receive hopen halive hlife hdelivers, hshows'⟩
  · cases hstep
    refine .of_frame h (fun st' hok ↦ ?_) ⟨_, rfl, _, .drop ?_ hlife, hshows⟩
    · cases hok
      exact hframe
    · exact fun hnot ↦ haccepted (haccepts.mpr hnot)

end Receive

theorem proceeds_receive {j : ℕ} (h : ∀ b, Shows (st.view b) (lives b))
    (hstep : st.perform service (.receive s j) = some result) :
    Proceeds (.receive s j) st lives result := by
  simp only [perform] at hstep
  split_ifs at hstep
  split at hstep
  · cases hstep
  · rename_i message rest hinbound
    cases message with
    | actor a =>
      cases hstep
      exact proceeds_receive_actor h hinbound
    | event a event => exact proceeds_receive_event h hinbound hstep

/-! ## Members of an actor -/

theorem proceeds_startMigrate (h : ∀ b, Shows (st.view b) (lives b))
    (hstep : st.perform service (.startMigrate s d a) = some result) :
    Proceeds (.startMigrate s d a) st lives result := by
  simp only [perform] at hstep
  split_ifs at hstep with hidle
  cases hstep
  obtain ⟨halive, hdest, hidle, hd⟩ := hidle
  rw [migrateDestFlag_eq (h a).looks] at hdest
  have hhome := Place.home_of_schedId ((h a).looks.isAlive ▸ halive) hdest
  have hplace := (h a).resting hhome (by simpa [view] using hidle)
  refine .of_frame h (fun st' hok ↦ ?_) ⟨_, rfl, _, .startMigrate d hplace hd.symm,
    startMigrateActor_spec ((h a).looks_of_resting hplace) hplace ((h a).listed.loose hhome) d⟩
  cases hok
  exact .startMigrateActor

theorem proceeds_finishMigrate (h : ∀ b, Shows (st.view b) (lives b))
    (hstep : st.perform service (.finishMigrate s a) = some result) :
    Proceeds (.finishMigrate s a) st lives result := by
  simp only [perform] at hstep
  split_ifs at hstep with hmigrating
  cases hstep
  obtain ⟨-, hdest⟩ := hmigrating
  rw [migrateDestFlag_eq (h a).looks] at hdest
  have hplace := Place.migrating_of_schedId hdest
  obtain ⟨st', hok, hshows⟩ := registerMigratedActor_spec (h a) hplace
  exact .of_frame h (fun st' hok ↦ .registerMigratedActor hok)
    ⟨st', hok, _, .finishMigrate hplace, hshows⟩

/-! ## Closing -/

section Clear

variable {f : Local S A E → Local S A E}

omit [DecidableEq A] in
theorem closes_modifyLocal (hphase : (f (st.sched s)).phase ≠ .open) :
    Closes true st (st.modifyLocal s f) := by
  intro t
  rcases eq_or_ne t s with rfl | ht
  · rw [sched_modifyLocal]
    exact .inr ⟨rfl, hphase⟩
  · exact .inl (congrArg Local.phase (Function.update_of_ne ht _ _))

/-- The phase of `s` changes. -/
theorem proceeds_close (h : ∀ b, Shows (st.view b) (lives b)) (hcloses : x.closes = true)
    (hview : ∀ b, (f (st.sched s)).view b = (st.sched s).view b)
    (hphase : (f (st.sched s)).phase ≠ .open) :
    Proceeds x st lives (.ok (st.modifyLocal s f)) :=
  .of_view h (fun b ↦ view_modifyLocal_eq (hview b)) (hcloses ▸ closes_modifyLocal hphase)

/-- An actor is taken out of a list and stopped. -/
theorem proceeds_take {ready pending : ℕ} (h : ∀ b, Shows (st.view b) (lives b))
    (hstack : (st.sched s).stack = [])
    (hother : ∀ b ≠ a, (f (st.sched s)).view b = (st.sched s).view b)
    (hphase : (f (st.sched s)).phase = (st.sched s).phase)
    (hview : (f (st.sched s)).view a =
      { (st.sched s).view a with ready := ready, pending := pending })
    (hready : ready ≤ (st.view a).ready s) (hpending : pending ≤ (st.view a).pending s)
    (hpos : 0 < (st.view a).ready s + (st.view a).pending s) :
    Proceeds (.clearNext s) st lives ((st.modifyLocal s f).doStopActor s a) := by
  have hplace := resting_of_stack (h a) ((h a).listed.home hpos) hstack
  obtain ⟨hlooks, hloose⟩ := looks_take ready pending (h a) hplace hview hready hpending
  exact .of_frame h (fun st' hok ↦ .trans (.modifyLocal hother hphase) (.doStopActor hok))
    (doStopActor_told hlooks hplace hloose)

theorem proceeds_clear (h : ∀ b, Shows (st.view b) (lives b))
    (hstep : st.perform service (.clear s) = some result) :
    Proceeds (.clear s) st lives result := by
  simp only [perform] at hstep
  split_ifs at hstep with hidle
  cases hstep
  obtain ⟨hstack, -, -, halive⟩ := hidle
  set st₁ := st.modifyLocal s fun sched ↦ { sched with phase := .clearPending } with hst₁
  have hview (b : A) : st₁.view b = st.view b := view_modifyLocal_eq rfl
  have hcloses : Closes true st st₁ := closes_modifyLocal (by simp)
  have hshows : Shows (st₁.view (service s)) (lives (service s)) := hview _ ▸ h (service s)
  have halive : (lives (service s)).place.isAlive := (h (service s)).looks.isAlive ▸ halive
  by_cases hhome : (lives (service s)).place.home = some s
  · have hplace := resting_of_stack (h (service s)) hhome hstack
    refine .of_next h (fun st' hok ↦ ?_)
      (doStopActor_told (hshows.looks_of_resting hplace) hplace (hshows.listed.loose hhome))
    have hframe := Frame.doStopActor hok
    exact ⟨fun b hb ↦ (hframe.view b hb).trans (hview b),
      fun t ↦ hframe.phase t ▸ hcloses t⟩
  · exact .of_error ⟨service s, .inl ⟨halive, hhome⟩⟩ (doStopActor_error hshows halive hhome)

theorem proceeds_clearNext (h : ∀ b, Shows (st.view b) (lives b))
    (hstep : st.perform service (.clearNext s) = some result) :
    Proceeds (.clearNext s) st lives result := by
  simp only [perform] at hstep
  split at hstep
  · rename_i hstack hphase
    split at hstep
    · cases hstep
      exact proceeds_close h rfl (fun _ ↦ rfl) (by simp)
    · rename_i a rest hlist
      cases hstep
      have hpending : (st.view a).pending s = rest.count a + 1 := by
        simp [view, Local.view, hlist]
      exact proceeds_take h hstack (fun b hb ↦ by simp [Local.view, hlist, hb.symm]) rfl rfl
        le_rfl (hpending ▸ Nat.le_succ (rest.count a)) (by omega)
  · rename_i hstack hphase
    split at hstep
    · cases hstep
      exact proceeds_close h rfl (fun _ ↦ rfl) (by simp)
    · rename_i a rest hlist
      cases hstep
      have hready : (st.view a).ready s = rest.count a + 1 + (st.sched s).actorsList.count a := by
        simp [view, Local.view, hlist]
      have hle : rest.count a + (st.sched s).actorsList.count a ≤ (st.view a).ready s := by omega
      exact proceeds_take h hstack (fun b hb ↦ by simp [Local.view, hlist, hb.symm]) rfl rfl
        hle le_rfl (by omega)
  · cases hstep

end Clear

/-! ## Every step -/

theorem proceeds_perform (h : ∀ b, Shows (st.view b) (lives b))
    (hstep : st.perform service x = some result) : Proceeds x st lives result := by
  cases x with
  | send => exact proceeds_send h hstep
  | stop => exact proceeds_stop h hstep
  | migrate => exact proceeds_migrate h hstep
  | register => exact proceeds_register h hstep
  | doStop => exact proceeds_doStop h hstep
  | handlerReturns => exact proceeds_handlerReturns h hstep
  | runMailbox => exact proceeds_runMailbox h hstep
  | nextActor => exact proceeds_nextActor h hstep
  | receive => exact proceeds_receive h hstep
  | putActor => cases hstep
  | startMigrate => exact proceeds_startMigrate h hstep
  | finishMigrate => exact proceeds_finishMigrate h hstep
  | clear => exact proceeds_clear h hstep
  | clearNext => exact proceeds_clearNext h hstep

/-- The message that brings an actor is put into a queue. -/
theorem proceeds_putActor {rest : List (S × A)} (h : ∀ b, Shows (st.view b) (lives b))
    (houtgoing : (st.sched s).outgoing = (d, a) :: rest) :
    Proceeds (.putActor s) st lives
      (.ok ((st.modifyLocal s fun sched ↦ { sched with outgoing := rest }).writerPut d
        (.actor a))) := by
  have hframe : Frame a st (st.modifyLocal s fun sched ↦ { sched with outgoing := rest }) :=
    .modifyLocal (fun b hb ↦ by simp [Local.view, houtgoing, hb.symm]) rfl
  set st₁ := st.modifyLocal s fun sched ↦ { sched with outgoing := rest } with hst₁
  have hlife : (lives a).outgoing s =
      d :: (rest.filter fun message ↦ message.2 = a).map Prod.fst := by
    rw [← (h a).looks.outgoing]
    simp [view, Local.view, houtgoing]
  have hborn := (h a).ne_unborn fun hy ↦ by
    rw [hy] at hlife
    cases hlife
  have hshows : Shows (st₁.view a) { lives a with
      outgoing := Function.update (lives a).outgoing s
        ((rest.filter fun message ↦ message.2 = a).map Prod.fst) } := by
    rw [hst₁, view_modifyLocal rfl, ← (h a).looks.outgoing]
    simpa [view, Local.view] using (h a).setOutgoing hborn _
  refine .of_frame h (fun st' hok ↦ ?_) ⟨_, rfl, _, .put hlife, ?_⟩
  · cases hok
    exact hframe.trans .writerPut_actor
  · rw [view_writerPut_actor, hshows.looks.inbound]
    exact hshows.setInbound hborn _

theorem step_proceeds (h : ∀ b, Shows (st.view b) (lives b))
    (hstep : st.step service x = some result) : Proceeds x st lives result := by
  unfold step at hstep
  split at hstep
  · exact proceeds_perform h hstep
  · rename_i houtgoing
    cases hstep
    exact proceeds_putActor h houtgoing
  · cases hstep

end Perform

end System

end PxcCore.Scheduler
