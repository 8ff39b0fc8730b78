import PxcCore.Actor.Scheduler.Runs

/-!
# Where the actors are

Whatever the schedulers do, an actor runs on one of them at most, there once at most, and an actor
that rests is in one list of its owner.
-/

namespace PxcCore.Scheduler.System

open Lib

variable {S A E : Type} [DecidableEq S] [DecidableEq A] {service : S → A}
  {xs : List (Step S A E)} {st : System S A E} {s t : S} {a : A} {y : Life S E}

/-- How often the actor is in the list of ready actors, or in the one that is being run. -/
def readyCount (st : System S A E) (s : S) (a : A) : ℕ :=
  (st.sched s).readyActorsList.count a + (st.sched s).actorsList.count a

/-- How often the actor is in the list of pending actors. -/
def pendingCount (st : System S A E) (s : S) (a : A) : ℕ := (st.sched s).pendingActorsList.count a

/-- How many event guards there are for the actor. -/
def guardCount (st : System S A E) (s : S) (a : A) : ℕ :=
  ((st.sched s).stack.map Prod.fst).count a

theorem guardCount_eq (h : Shows (st.view a) y) :
    st.guardCount s a = (y.place.frames s).length := by
  rw [← h.looks.frames]
  simp [guardCount, view, Local.view, List.count, List.countP_eq_length_filter, List.filter_map,
    Function.comp_def, beq_eq_decide]

/-- What the state says of where an actor is: it runs where it has an event guard, it rests in one
list, or it is in no list at all. -/
inductive Placed (st : System S A E) (a : A) : Prop where
  | running (s : S) : (st.info a).isRunning → st.migrateDestFlag a = some (s, false) →
    (∀ t, st.guardCount t a = if t = s then 1 else 0) →
    (∀ t, st.readyCount t a + st.pendingCount t a ≤ if t = s then 1 else 0) → Placed st a
  | resting (s : S) : (st.info a).isRunning = false → (st.info a).isAlive →
    st.migrateDestFlag a = some (s, false) → (∀ t, st.guardCount t a = 0) →
    (∀ t, st.readyCount t a = if t = s ∧ (st.info a).mailbox ≠ [] then 1 else 0) →
    (∀ t, st.pendingCount t a = if t = s ∧ (st.info a).mailbox = [] then 1 else 0) → Placed st a
  | away : (st.info a).isRunning = false →
    ((st.info a).isAlive → ∃ d, st.migrateDestFlag a = some (d, true)) →
    (∀ t, st.guardCount t a = 0 ∧ st.readyCount t a = 0 ∧ st.pendingCount t a = 0) → Placed st a

theorem guardCount_eq_zero (h : Shows (st.view a) y) (hidle : y.place.isRunning = false) (t : S) :
    st.guardCount t a = 0 := by
  rw [guardCount_eq h]
  cases hplace : y.place with
  | running s guard => simp [hplace, Place.isRunning] at hidle
  | _ => rfl

theorem placed_running {guard : EventGuard S} (h : Shows (st.view a) y)
    (hplace : y.place = .running s guard) : Placed st a := by
  have hlisted := h.listed
  rw [hplace] at hlisted
  refine .running s (h.looks.isRunning.trans (by rw [hplace]; rfl)) ?_ (fun t ↦ ?_) fun t ↦ ?_
  · rw [migrateDestFlag_eq h.looks, hplace]
    rfl
  · rw [guardCount_eq h, hplace, Place.frames, Function.update_apply]
    split <;> rfl
  · have hloose : Loose s (st.view a).ready (st.view a).pending := hlisted
    change (st.view a).ready t + (st.view a).pending t ≤ _
    split_ifs with ht
    · subst ht
      exact hloose.here
    · obtain ⟨hready, hpending⟩ := hloose.elsewhere t ht
      exact (Nat.add_eq_zero_iff.mpr ⟨hready, hpending⟩).le

theorem placed_resting (h : Shows (st.view a) y) (hplace : y.place = .resting s) :
    Placed st a := by
  have hlisted := h.listed
  have hempty := isEmpty_mailbox (h.looks_of_resting hplace)
  rw [hplace] at hlisted
  refine .resting s (h.looks.isRunning.trans (by rw [hplace]; rfl))
    (h.looks.isAlive.trans (by rw [hplace]; rfl)) ?_ (guardCount_eq_zero h (by rw [hplace]; rfl))
    (fun t ↦ ?_) fun t ↦ ?_
  · rw [migrateDestFlag_eq h.looks, hplace]
    rfl
  all_goals
    simp only [Place.Listed, ← hempty, List.isEmpty_iff] at hlisted
  · change (st.view a).ready t = _
    split at hlisted <;> simp_all [Pi.single_apply]
  · change (st.view a).pending t = _
    split at hlisted <;> simp_all [Pi.single_apply]

theorem placed_of_shows (h : Shows (st.view a) y) : Placed st a := by
  have haway (hrunning : y.place.isRunning = false)
      (halive : y.place.isAlive → ∃ d, st.migrateDestFlag a = some (d, true))
      (hready : (st.view a).ready = 0) (hpending : (st.view a).pending = 0) : Placed st a :=
    .away (h.looks.isRunning.trans hrunning) (fun hlive ↦ halive (h.looks.isAlive ▸ hlive))
      fun t ↦ ⟨guardCount_eq_zero h hrunning t, congrFun hready t, congrFun hpending t⟩
  have hlisted := h.listed
  cases hplace : y.place with
  | running s guard => exact placed_running h hplace
  | resting s => exact placed_resting h hplace
  | migrating d =>
    rw [hplace] at haway hlisted
    refine haway rfl (fun _ ↦ ⟨d, ?_⟩) hlisted.1 hlisted.2
    rw [migrateDestFlag_eq h.looks, hplace]
    rfl
  | unborn =>
    rw [hplace] at haway hlisted
    exact haway rfl (fun halive ↦ by cases halive) hlisted.1 hlisted.2
  | gone s =>
    rw [hplace] at haway hlisted
    exact haway rfl (fun halive ↦ by cases halive) hlisted.1 hlisted.2

/-- An actor never runs on two schedulers, nor twice on one, it runs only on its owner, and an actor
that rests is in one list, of its owner: among the ready actors if there are events for it, and else
among the pending ones. -/
theorem run_placed (hrun : run service xs {} = some (.ok st)) (a : A) : Placed st a := by
  obtain ⟨lives, hlives⟩ := leads_ready hrun
  exact placed_of_shows (hlives a).1

theorem run_placed_migrate : ∃ st, run some migrateSteps {} = some (.ok st) ∧ Placed st none := by
  have hrun : run some migrateSteps {} = some (.ok _) := rfl
  exact ⟨_, hrun, run_placed hrun none⟩

end PxcCore.Scheduler.System
