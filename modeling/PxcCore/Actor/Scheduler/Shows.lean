import PxcCore.Actor.Scheduler.View

/-!
# The state shows the life of an actor

What the schedulers and the actor hold when the actor is in some place of its life.
-/

namespace PxcCore.Scheduler

open Lib

variable {S A E : Type} [DecidableEq S] [DecidableEq A]

namespace Task

/-- How many events of the mailbox have been moved from. -/
def moved : Task → ℕ
  | .flushMailbox i _ => i + 1
  | _ => 0

/-- A mailbox with so many events left is flushed up to the number of events that it had. -/
def Fits (length : ℕ) : Task → Prop
  | .flushMailbox i n => i < n ∧ n ≤ i + 1 + length
  | _ => True

theorem Fits.mono {task : Task} {length length' : ℕ} (h : task.Fits length)
    (hle : length ≤ length') : task.Fits length' := by
  cases task with
  | flushMailbox i n => exact ⟨h.1, h.2.trans (Nat.add_le_add_left hle _)⟩
  | _ => trivial

end Task

namespace Place

/-- The event guards for the actor. -/
def frames : Place S → S → List (EventGuard S)
  | .running s guard => Function.update (fun _ ↦ []) s [guard]
  | _ => fun _ ↦ []

theorem eq_of_frames {place : Place S} {s : S} {guard : EventGuard S} {rest : List (EventGuard S)}
    (h : place.frames s = guard :: rest) : place = .running s guard := by
  cases place with
  | running t guard' =>
    rw [frames, Function.update_apply] at h
    split_ifs at h with hst
    obtain ⟨rfl, -⟩ := List.cons.inj h
    rw [hst]
  | _ => cases h

def isRunning : Place S → Bool
  | .running _ _ => true
  | _ => false

/-- The value of `sched_id_`. -/
def schedId : Place S → Option (S × Bool)
  | .unborn => none
  | .resting s => some (s, false)
  | .running s _ => some (s, false)
  | .migrating d => some (d, true)
  | .gone s => some (s, false)

omit [DecidableEq S] in
theorem home_eq_some {place : Place S} {s : S} :
    place.home = some s ↔ place = .resting s ∨ ∃ guard, place = .running s guard := by
  cases place <;> simp [home]

omit [DecidableEq S] in
theorem isAlive_of_home {place : Place S} {s : S} (h : place.home = some s) : place.isAlive := by
  obtain rfl | ⟨guard, rfl⟩ := home_eq_some.mp h <;> rfl

omit [DecidableEq S] in
/-- An actor is at a scheduler, or on its way to one. -/
theorem home_or_migrating {place : Place S} (h : place.isAlive) :
    (∃ s, place.home = some s) ∨ ∃ d, place = .migrating d := by
  cases place with
  | unborn => cases h
  | resting s => exact .inl ⟨s, rfl⟩
  | running s guard => exact .inl ⟨s, rfl⟩
  | migrating d => exact .inr ⟨d, rfl⟩
  | gone s => cases h

omit [DecidableEq S] in
theorem home_of_schedId {place : Place S} {s : S} (halive : place.isAlive)
    (h : place.schedId = some (s, false)) : place.home = some s := by
  cases place <;> simp_all [schedId, home, isAlive]

omit [DecidableEq S] in
theorem schedId_of_home {place : Place S} {s : S} (h : place.home = some s) :
    place.schedId = some (s, false) := by
  obtain rfl | ⟨guard, rfl⟩ := home_eq_some.mp h <;> rfl

omit [DecidableEq S] in
theorem migrating_of_schedId {place : Place S} {s : S} (h : place.schedId = some (s, true)) :
    place = .migrating s := by
  cases place <;> simp_all [schedId]

def moved : Place S → ℕ
  | .running _ guard => guard.task.moved
  | _ => 0

def Fits (length : ℕ) : Place S → Prop
  | .running _ guard => guard.task.Fits length
  | _ => True

omit [DecidableEq S] in
theorem Fits.mono {place : Place S} {length length' : ℕ} (h : place.Fits length)
    (hle : length ≤ length') : place.Fits length' := by
  cases place with
  | running s guard => exact Task.Fits.mono h hle
  | _ => trivial

end Place

/-- The actor is in one list of `s` at most, and in no other. -/
structure Loose (s : S) (ready pending : S → ℕ) : Prop where
  here : ready s + pending s ≤ 1
  elsewhere : ∀ t ≠ s, ready t = 0 ∧ pending t = 0

/-- How often the actor is in the lists of the schedulers.  When it rests it is in one of them, by
whether its mailbox is empty. -/
def Place.Listed (isEmpty : Bool) (ready pending : S → ℕ) : Place S → Prop
  | .resting s =>
    if isEmpty then ready = 0 ∧ pending = Pi.single s 1 else ready = Pi.single s 1 ∧ pending = 0
  | .running s _ => Loose s ready pending
  | _ => ready = 0 ∧ pending = 0

/-- A scheduler that may still load a value with its own number may load the last value only. -/
def Known (schedIds : List (S × Bool)) (seen : S → ℕ) : Prop :=
  ∀ s j, schedIds[j]?.map Prod.fst = some s → seen s ≤ j → j + 1 = schedIds.length

/-- What the state says of the actor, the lists of the schedulers apart, when so many events of its
mailbox have been moved from. -/
structure Looks (moved : ℕ) (v : View S E) (x : Life S E) : Prop where
  isAlive : v.info.isAlive = x.place.isAlive
  needStartUp : v.info.needStartUp = x.needStartUp
  mailbox : v.info.mailbox = List.replicate moved none ++ x.mailbox.map some
  isRunning : v.info.isRunning = x.place.isRunning
  schedId : v.info.schedIds.getLast? = x.place.schedId
  known : Known v.info.schedIds v.seen
  frames : v.frames = x.place.frames
  parked : v.parked = x.parked
  inbound : v.inbound = x.inbound
  outgoing : v.outgoing = x.outgoing
  fits : x.place.Fits x.mailbox.length
  sent : v.sent = x.sent
  log : v.log = x.log
  unborn : x.place = .unborn → x = {}

/-- The state shows an actor that leads this life. -/
structure Shows (v : View S E) (x : Life S E) : Prop where
  looks : Looks x.place.moved v x
  listed : x.place.Listed x.mailbox.isEmpty v.ready v.pending

/-! ## The lists -/

section Lists

variable {s : S} {ready pending : S → ℕ}

theorem Loose.update_ready (h : Loose s ready pending) : Function.update ready s 0 = 0 := by
  funext t
  rcases eq_or_ne t s with rfl | ht
  · exact Function.update_self _ _ _
  · rw [Function.update_of_ne ht]
    exact (h.elsewhere t ht).1

theorem Loose.update_pending (h : Loose s ready pending) : Function.update pending s 0 = 0 := by
  funext t
  rcases eq_or_ne t s with rfl | ht
  · exact Function.update_self _ _ _
  · rw [Function.update_of_ne ht]
    exact (h.elsewhere t ht).2

theorem loose_single_pending : Loose s (0 : S → ℕ) (Pi.single s 1) where
  here := by simp
  elsewhere t ht := by simp [ht]

theorem loose_single_ready : Loose s (Pi.single s 1) (0 : S → ℕ) where
  here := by simp
  elsewhere t ht := by simp [ht]

theorem Place.Listed.loose {place : Place S} {isEmpty : Bool}
    (h : place.Listed isEmpty ready pending) (hplace : place.home = some s) :
    Loose s ready pending := by
  cases place with
  | resting t =>
    obtain rfl : t = s := Option.some.inj hplace
    simp only [Place.Listed] at h
    split at h
    · obtain ⟨rfl, rfl⟩ := h
      exact loose_single_pending
    · obtain ⟨rfl, rfl⟩ := h
      exact loose_single_ready
  | running t guard =>
    obtain rfl : t = s := Option.some.inj hplace
    exact h
  | _ => cases hplace

/-- An actor that is in a list of `s` is at `s`. -/
theorem Place.Listed.home {place : Place S} {isEmpty : Bool}
    (h : place.Listed isEmpty ready pending) (hpos : 0 < ready s + pending s) :
    place.home = some s := by
  cases place with
  | resting t =>
    rw [Place.home, Option.some_inj]
    by_contra hne
    simp only [Place.Listed] at h
    split at h
    all_goals
      obtain ⟨rfl, rfl⟩ := h
      simp [Ne.symm hne] at hpos
  | running t guard =>
    rw [Place.home, Option.some_inj]
    by_contra hne
    obtain ⟨hready, hpending⟩ := Loose.elsewhere h s (Ne.symm hne)
    omega
  | _ =>
    obtain ⟨rfl, rfl⟩ := h
    cases hpos

/-- There are events for a resting actor that is in the list of ready actors. -/
theorem Place.Listed.not_isEmpty {isEmpty : Bool}
    (h : (Place.resting s).Listed isEmpty ready pending) (hpos : 0 < ready s) :
    isEmpty = false := by
  cases isEmpty with
  | false => rfl
  | true =>
    obtain ⟨rfl, -⟩ := h
    cases hpos

end Lists

/-! ## Values of `sched_id_` -/

/-- A scheduler learns of a value of `sched_id_`. -/
theorem Known.see {schedIds : List (S × Bool)} {seen : S → ℕ} {s : S} {j : ℕ}
    (h : Known schedIds seen) (hj : seen s ≤ j) :
    Known schedIds (Function.update seen s j) := by
  intro t i hi hle
  rcases eq_or_ne t s with rfl | ht
  · rw [Function.update_self] at hle
    exact h t i hi (hj.trans hle)
  · rw [Function.update_of_ne ht] at hle
    exact h t i hi hle

/-- The scheduler that the last value names stores the next one. -/
theorem Known.store {schedIds : List (S × Bool)} {seen : S → ℕ} {s : S} {value : S × Bool}
    (h : Known schedIds seen) (hlast : schedIds.getLast?.map Prod.fst = some s) :
    Known (schedIds ++ [value]) (Function.update seen s schedIds.length) := by
  intro t i hi hle
  rw [List.length_append, List.length_singleton]
  rcases lt_or_ge i schedIds.length with hlt | hge
  · rw [List.getElem?_append_left hlt] at hi
    rcases eq_or_ne t s with rfl | ht
    · rw [Function.update_self] at hle
      omega
    · rw [Function.update_of_ne ht] at hle
      -- The last value names `s`, and an older one is not loaded any more.
      have hi' := h t i hi hle
      rw [List.getLast?_eq_getElem?, ← hi', Nat.add_sub_cancel, hi] at hlast
      exact absurd (Option.some.inj hlast) ht
  · have hlt := (List.getElem?_eq_some_iff.mp (Option.map_eq_some_iff.mp hi).choose_spec.1).1
    rw [List.length_append, List.length_singleton] at hlt
    omega

omit [DecidableEq S] in
/-- What a scheduler loads with its own number is the last value. -/
theorem Known.getLast? {schedIds : List (S × Bool)} {seen : S → ℕ} {s : S} {j : ℕ} {moving : Bool}
    (h : Known schedIds seen) (hj : seen s ≤ j) (hload : schedIds[j]? = some (s, moving)) :
    schedIds.getLast? = some (s, moving) := by
  have hlength := h s j (by rw [hload]; rfl) hj
  rw [List.getLast?_eq_getElem?, ← hlength, Nat.add_sub_cancel, hload]

/-! ## Changes -/

namespace Looks

variable {v : View S E} {x : Life S E} {s d : S} {moved : ℕ} {guard : EventGuard S}
  {event : Event E}

theorem process (h : Looks moved v x) (halive : x.place.isAlive) (event : Event E) :
    Looks moved { v with log := v.log ++ [event] } { x with log := x.log ++ [event] } :=
  { h with
    log := congrArg (· ++ [event]) h.log
    unborn := fun hplace ↦ absurd hplace (Life.ne_unborn_of_isAlive halive) }

theorem send (h : Looks moved v x) (halive : x.place.isAlive) (event : Event E) :
    Looks moved { v with sent := v.sent ++ [event] } { x with sent := x.sent ++ [event] } :=
  { h with
    sent := congrArg (· ++ [event]) h.sent
    unborn := fun hplace ↦ absurd hplace (Life.ne_unborn_of_isAlive halive) }

theorem setMailbox (h : Looks moved v x) (halive : x.place.isAlive) {moved' : ℕ}
    {mailbox : List (Option (Event E))} {rest : List (Event E)}
    (hmailbox : mailbox = List.replicate moved' none ++ rest.map some)
    (hfits : x.place.Fits rest.length) :
    Looks moved' { v with info := { v.info with mailbox := mailbox } } { x with mailbox := rest } :=
  { h with
    mailbox := hmailbox
    fits := hfits
    unborn := fun hplace ↦ absurd hplace (Life.ne_unborn_of_isAlive halive) }

/-- Only the lists of the schedulers change. -/
theorem setLists (h : Looks moved v x) (ready pending : S → ℕ) :
    Looks moved { v with ready := ready, pending := pending } x :=
  { h with }

theorem see (h : Looks moved v x) {j : ℕ} (hj : v.seen s ≤ j) :
    Looks moved { v with seen := Function.update v.seen s j } x :=
  { h with known := h.known.see hj }

/-- The actor is entered. -/
theorem enter (h : Looks 0 v x) (hplace : x.place = .resting s) {task : Task}
    (hfits : task.Fits x.mailbox.length) :
    Looks 0
      { v with
        info := { v.info with isRunning := true }
        frames := Function.update v.frames s ({ task := task } :: v.frames s) }
      { x with place := .running s { task := task } } :=
  { h with
    isAlive := h.isAlive.trans (by rw [hplace]; rfl)
    isRunning := rfl
    schedId := h.schedId.trans (by rw [hplace]; rfl)
    frames := by
      rw [h.frames, hplace]
      rfl
    fits := hfits
    unborn := fun hunborn ↦ by cases hunborn }

theorem setGuard {old : EventGuard S} (h : Looks moved v x) (hplace : x.place = .running s old)
    (hfits : guard.task.Fits x.mailbox.length) :
    Looks moved { v with frames := Function.update v.frames s (guard :: (v.frames s).tail) }
      { x with place := .running s guard } :=
  { h with
    isAlive := h.isAlive.trans (by rw [hplace]; rfl)
    isRunning := h.isRunning.trans (by rw [hplace]; rfl)
    schedId := h.schedId.trans (by rw [hplace]; rfl)
    frames := by simp [h.frames, hplace, Place.frames]
    fits := hfits
    unborn := fun hunborn ↦ by cases hunborn }

/-- The run of the actor ends. -/
theorem rest (h : Looks 0 v x) (hplace : x.place = .running s guard) :
    Looks 0
      { v with
        info := { v.info with isRunning := false }
        frames := Function.update v.frames s (v.frames s).tail }
      { x with place := .resting s } :=
  { h with
    isAlive := h.isAlive.trans (by rw [hplace]; rfl)
    isRunning := rfl
    schedId := h.schedId.trans (by rw [hplace]; rfl)
    frames := by simp [h.frames, hplace, Place.frames]
    fits := trivial
    unborn := fun hunborn ↦ by cases hunborn }

/-- The actor leaves `s`. -/
theorem migrate (h : Looks 0 v x) (hplace : x.place = .resting s) (d : S) :
    Looks 0
      { v with
        info := { v.info with schedIds := v.info.schedIds ++ [(d, true)] }
        seen := Function.update v.seen s v.info.schedIds.length }
      { x with place := .migrating d } :=
  { h with
    isAlive := h.isAlive.trans (by rw [hplace]; rfl)
    isRunning := h.isRunning.trans (by rw [hplace]; rfl)
    schedId := List.getLast?_concat
    known := h.known.store (by rw [h.schedId, hplace]; rfl)
    frames := h.frames.trans (by rw [hplace]; rfl)
    fits := trivial
    unborn := fun hunborn ↦ by cases hunborn }

/-- The actor comes to `s`. -/
theorem arrived (h : Looks 0 v x) (hplace : x.place = .migrating s) :
    Looks 0
      { v with
        info := { v.info with
          schedIds := v.info.schedIds ++ [(s, false)]
          mailbox := v.info.mailbox ++ (v.parked s).map some }
        parked := Function.update v.parked s []
        seen := Function.update v.seen s v.info.schedIds.length }
      (x.arrived s) :=
  { h with
    isAlive := h.isAlive.trans (by rw [hplace]; rfl)
    mailbox := by simp [h.mailbox, h.parked, Life.arrived]
    isRunning := h.isRunning.trans (by rw [hplace]; rfl)
    schedId := List.getLast?_concat
    known := h.known.store (by rw [h.schedId, hplace]; rfl)
    frames := h.frames.trans (by rw [hplace]; rfl)
    parked := by rw [h.parked]; rfl
    fits := trivial
    unborn := fun hunborn ↦ by cases hunborn }

theorem destroy (h : Looks moved v x) (hplace : x.place = .resting s) :
    Looks 0 { v with info := { v.info with mailbox := [], isAlive := false } }
      { x with place := .gone s, mailbox := [] } :=
  { h with
    isAlive := rfl
    mailbox := rfl
    isRunning := h.isRunning.trans (by rw [hplace]; rfl)
    schedId := h.schedId.trans (by rw [hplace]; rfl)
    frames := h.frames.trans (by rw [hplace]; rfl)
    fits := trivial
    unborn := fun hunborn ↦ by cases hunborn }

end Looks

namespace Shows

variable {v : View S E} {x : Life S E}

theorem looks_of_resting {s : S} (h : Shows v x) (hplace : x.place = .resting s) :
    Looks 0 v x := by
  have hlooks := h.looks
  rwa [hplace] at hlooks

/-- An actor that does not run rests. -/
theorem resting {s : S} (h : Shows v x) (hhome : x.place.home = some s)
    (hidle : v.info.isRunning = false) : x.place = .resting s := by
  obtain hplace | ⟨guard, hplace⟩ := Place.home_eq_some.mp hhome
  · exact hplace
  · have hrunning : v.info.isRunning = true := h.looks.isRunning.trans (by rw [hplace]; rfl)
    exact absurd (hidle.symm.trans hrunning) Bool.false_ne_true

/-- An actor that anything is known of has been registered. -/
theorem ne_unborn (h : Shows v x) (hx : x ≠ {}) : x.place ≠ .unborn :=
  mt h.looks.unborn hx

theorem setParked (h : Shows v x) (hplace : x.place ≠ .unborn)
    (parked : S → List (Event E)) :
    Shows { v with parked := parked } { x with parked := parked } where
  looks := { h.looks with
    parked := rfl
    unborn := fun hunborn ↦ absurd hunborn hplace }
  listed := h.listed

theorem setInbound (h : Shows v x) (hplace : x.place ≠ .unborn)
    (inbound : S → List (Option (Event E))) :
    Shows { v with inbound := inbound } { x with inbound := inbound } where
  looks := { h.looks with
    inbound := rfl
    unborn := fun hunborn ↦ absurd hunborn hplace }
  listed := h.listed

theorem setOutgoing (h : Shows v x) (hplace : x.place ≠ .unborn) (outgoing : S → List S) :
    Shows { v with outgoing := outgoing } { x with outgoing := outgoing } where
  looks := { h.looks with
    outgoing := rfl
    unborn := fun hunborn ↦ absurd hunborn hplace }
  listed := h.listed

theorem see (h : Shows v x) {s : S} {j : ℕ} (hj : v.seen s ≤ j) :
    Shows { v with seen := Function.update v.seen s j } x where
  looks := h.looks.see hj
  listed := h.listed

theorem send (h : Shows v x) (halive : x.place.isAlive) (event : Event E) :
    Shows { v with sent := v.sent ++ [event] } { x with sent := x.sent ++ [event] } where
  looks := h.looks.send halive event
  listed := h.listed

end Shows

end PxcCore.Scheduler
