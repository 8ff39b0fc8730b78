import PxcCore.Lib.Families
import PxcCore.Lib.Traces

/-!
# MpmcWaiter

`MpmcSleepyWaiter` of `MpmcWaiter.h`: workers look for work, and sleep if there is none, and whoever
adds work calls `notify`.  `state_` is changed without the lock too, so that each access to it is a
step of its own; what is done under the lock without one belongs to the step before.  `closed_` is
never set.  The work is what one call of `notify` each has been made for: a worker that finds
nothing calls `wait`, and one that finds something calls `stop_wait` first.
-/

namespace PxcCore.MpmcWaiter

open Lib

/-! ## Definitions -/

/-- `Slot::State` -/
inductive SlotState where
  | search
  | work
  | sleep
deriving DecidableEq

/-- Where a thread is: outside of a call, in `park`, in `stop_wait` before `state_.fetch_sub(1)`, or
in `notify`, before the first load, before the lock, or with the lock. -/
inductive Position where
  | outside
  | park
  | stopWait
  | notify
  | lock
  | locked
deriving DecidableEq

/-- What the worker has found since `wait` has returned. -/
inductive Look where
  | open
  | failed
  | found
deriving DecidableEq

/-- `Slot`, with what its thread does. -/
structure Slot where
  state : SlotState := .work
  unparkFlag : Bool := false
  position : Position := .outside
  look : Look := .open

/-- The variables of the thread that holds `sleepers_mutex_` in `notify`, and whether it has told
`state_` that the sleeper is awake. -/
structure Lock (W : Type) where
  owner : W
  sleeper : W
  isCounted : Bool := false

/-- The members of the waiter, the slots, and how much work there is. -/
structure Waiter (W : Type) where
  state : ℤ := 0
  sleepers : List W := []
  lock : Option (Lock W) := none
  slots : W → Slot := fun _ ↦ {}
  work : ℕ := 0

/-- What a thread does next. -/
inductive Step (W : Type) where
  | addWork (w : W)
  | findWork (w : W)
  | wait (w : W)
  | park (w : W)
  | stopWait (w : W)
  | fetchSub (w : W)
  | notify (w : W)
  | lock (w : W)
  | countSleeper (w : W)
  | unpark (w : W)

/-- Why a step is not made: it cannot be made now, or a check fails. -/
inductive Stop where
  | disabled
  | check (text : String)

variable {W : Type}

namespace Waiter

/-- `StateView::parked_count` -/
def parkedCount (st : Waiter W) : ℤ := st.state / 2 ^ 16

/-- `StateView::searching_count` -/
def searchingCount (st : Waiter W) : ℤ := st.state % 2 ^ 16

variable [DecidableEq W]

def setSlot (st : Waiter W) (w : W) (slot : Slot) : Waiter W :=
  { st with slots := Function.update st.slots w slot }

/-- `notify` returns. -/
def finish (st : Waiter W) (w : W) : Waiter W :=
  st.setSlot w { state := .work, unparkFlag := (st.slots w).unparkFlag }

/-- `wait`, up to `park`. -/
def wait (st : Waiter W) (w : W) : Except Stop (Waiter W) :=
  let slot := st.slots w
  match slot.state with
  | .work => .ok ({ st with state := st.state + 1 }.setSlot w
      { slot with state := .search, look := .open })
  | .search =>
    if st.lock.isSome then .error .disabled
    else if st.searchingCount = 0 then
      .error (.check "CHECK(state_view.searching_count != 0)")
    else if slot.unparkFlag then .error (.check "LOG_CHECK(slot.unpark_flag_ == false)")
    else .ok ({ st with
      state := st.state + (2 ^ 16 - 1), sleepers := st.sleepers ++ [w] }.setSlot w
        (if st.searchingCount = 1 then { slot with state := .sleep, look := .open }
        else { slot with state := .sleep, position := .park }))
  | .sleep => .ok (st.setSlot w { slot with position := .park })

/-- `stop_wait`, up to `state_.fetch_sub(1)`. -/
def stopWait (st : Waiter W) (w : W) : Except Stop (Waiter W) :=
  let slot := st.slots w
  match slot.state with
  | .work => .ok (st.setSlot w { slot with look := .open })
  | .search => .ok (st.setSlot w { slot with position := .stopWait })
  | .sleep =>
    if st.lock.isSome then .error .disabled
    else if w ∈ st.sleepers then
      .ok ({ st with
        state := st.state - (2 ^ 16 - 1), sleepers := st.sleepers.erase w }.setSlot w
          { slot with state := .search, position := .stopWait })
    else if slot.unparkFlag then
      .ok (st.setSlot w
        { slot with state := .search, unparkFlag := false, position := .stopWait })
    else .error (.check "CHECK(slot.cancel_park())")

/-- `stop_wait` from `state_.fetch_sub(1)` on. -/
def fetchSub (st : Waiter W) (w : W) : Except Stop (Waiter W) :=
  if st.searchingCount = 0 then .error (.check "CHECK(state_view.searching_count != 0)")
  else if 1000 ≤ st.searchingCount then
    .error (.check "CHECK(state_view.searching_count < 1000)")
  else
    let st' := { st with state := st.state - 1 }
    if st.searchingCount = 1 then .ok (st'.setSlot w { st.slots w with position := .notify })
    else .ok (st'.finish w)

/-- `notify` from the lock on, up to `state_.fetch_sub`. -/
def lockSleepers (st : Waiter W) (w : W) : Except Stop (Waiter W) :=
  if st.lock.isSome then .error .disabled
  else if 0 < st.searchingCount then .ok (st.finish w)
  else if st.parkedCount ≠ st.sleepers.length then
    .error (.check "CHECK(view.parked_count == static_cast<int>(sleepers_.size()))")
  else match st.sleepers.getLast? with
    | none => .ok (st.finish w)
    | some sleeper =>
      let popped : Waiter W := { st with
        sleepers := st.sleepers.dropLast, lock := some { owner := w, sleeper := sleeper } }
      .ok (popped.setSlot w { st.slots w with position := .locked })

/-- One step. -/
def step (st : Waiter W) : Step W → Except Stop (Waiter W)
  | .addWork w =>
    if (st.slots w).position = .outside ∧ (st.slots w).state = .work then
      .ok ({ st with work := st.work + 1 }.setSlot w { st.slots w with position := .notify })
    else .error .disabled
  | .findWork w =>
    if (st.slots w).position = .outside ∧ (st.slots w).look ≠ .found then
      if st.work = 0 then .ok (st.setSlot w { st.slots w with look := .failed })
      else .ok ({ st with work := st.work - 1 }.setSlot w { st.slots w with look := .found })
    else .error .disabled
  | .wait w =>
    if (st.slots w).position = .outside ∧ (st.slots w).look = .failed then st.wait w
    else .error .disabled
  | .park w =>
    if (st.slots w).position = .park ∧ (st.slots w).unparkFlag then
      .ok (st.setSlot w { state := .search })
    else .error .disabled
  | .stopWait w =>
    if (st.slots w).position = .outside then st.stopWait w else .error .disabled
  | .fetchSub w =>
    if (st.slots w).position = .stopWait then st.fetchSub w else .error .disabled
  | .notify w =>
    if (st.slots w).position = .notify then
      if 0 < st.searchingCount ∨ st.parkedCount = 0 then .ok (st.finish w)
      else .ok (st.setSlot w { st.slots w with position := .lock })
    else .error .disabled
  | .lock w => if (st.slots w).position = .lock then st.lockSleepers w else .error .disabled
  | .countSleeper w =>
    match st.lock with
    | none => .error .disabled
    | some lock =>
      if lock.owner = w ∧ !lock.isCounted then
        .ok { st with
          state := st.state - (2 ^ 16 - 1), lock := some { lock with isCounted := true } }
      else .error .disabled
  | .unpark w =>
    match st.lock with
    | none => .error .disabled
    | some lock =>
      if lock.owner = w ∧ lock.isCounted then
        .ok (({ st with lock := none }.setSlot lock.sleeper
          { st.slots lock.sleeper with unparkFlag := true }).finish w)
      else .error .disabled

/-! ## What the counts say -/

omit [DecidableEq W] in
/-- The sleeper that is being woken up. -/
def held (st : Waiter W) : Option W := st.lock.map Lock.sleeper

omit [DecidableEq W] in
/-- The sleeper that is being woken up, if `state_` does not say so yet. -/
def popped (st : Waiter W) : Option W :=
  st.lock.bind fun lock ↦ if lock.isCounted then none else some lock.sleeper

/-- `state_` counts a worker with this slot as one that searches. -/
def IsCounted (sleepers : List W) (popped : Option W) (w : W) (slot : Slot) : Prop :=
  (slot.state = .search ∧ (slot.position = .outside ∨ slot.position = .stopWait)) ∨
  (slot.state = .sleep ∧ w ∉ sleepers ∧ popped ≠ some w)

instance instDecidableIsCounted (sleepers : List W) (popped : Option W) (w : W) (slot : Slot) :
    Decidable (IsCounted sleepers popped w slot) := inferInstanceAs (Decidable (_ ∨ _))

/-- A worker sleeps if it is among the sleepers, or it is being woken up, or it has been. -/
structure Rests (sleepers : List W) (held : Option W) (w : W) (slot : Slot) : Prop where
  asleep : slot.state = .sleep ↔ w ∈ sleepers ∨ held = some w ∨ slot.unparkFlag
  once : w ∈ sleepers → held ≠ some w ∧ slot.unparkFlag = false
  woken : held = some w → slot.unparkFlag = false

/-- Where a thread is fits to what its slot says. -/
def Fits (slot : Slot) : Prop :=
  match slot.position with
  | .outside => True
  | .park => slot.state = .sleep
  | .stopWait => slot.state = .search
  | _ => slot.state ≠ .sleep

/-- The thread looks for work, or will before it sleeps, or wakes up somebody if that is needed. -/
def Cares (sleepers : List W) (popped : Option W) (w : W) (slot : Slot) : Prop :=
  IsCounted sleepers popped w slot ∨
  (slot.state = .sleep ∧ slot.position = .outside ∧ slot.look ≠ .failed) ∨
  slot.position = .notify ∨ slot.position = .lock ∨ slot.position = .locked

/-- Somebody cares. -/
def SomeCares (st : Waiter W) : Prop := ∃ w, Cares st.sleepers st.popped w (st.slots w)

variable [Fintype W]

/-- How many workers search. -/
def searchers (st : Waiter W) : ℕ :=
  (Finset.univ.filter fun w ↦ IsCounted st.sleepers st.popped w (st.slots w)).card

/-- `state_` counts the workers that search and the sleepers, each sleeper is there once, and
somebody cares if there is work and somebody sleeps. -/
structure Holds (st : Waiter W) : Prop where
  counts : st.state =
    2 ^ 16 * ((st.sleepers.length + if st.popped.isSome then 1 else 0 : ℕ) : ℤ) + st.searchers
  nodup : st.sleepers.Nodup
  rests : ∀ w, Rests st.sleepers st.held w (st.slots w)
  fits : ∀ w, Fits (st.slots w)
  owner : ∀ lock, st.lock = some lock → (st.slots lock.owner).position = .locked
  cares : st.work ≠ 0 → st.sleepers ≠ [] → st.SomeCares

variable {st st' : Waiter W} {w v : W} {slot : Slot}

theorem Holds.searchingCount (h : st.Holds) (hcard : Fintype.card W < 1000) :
    st.searchingCount = st.searchers := by
  have hle : st.searchers ≤ Fintype.card W := Finset.card_le_univ _
  have hcounts := h.counts
  unfold Waiter.searchingCount
  omega

theorem Holds.parkedCount (h : st.Holds) (hcard : Fintype.card W < 1000) :
    st.parkedCount = ((st.sleepers.length + if st.popped.isSome then 1 else 0 : ℕ) : ℤ) := by
  have hle : st.searchers ≤ Fintype.card W := Finset.card_le_univ _
  have hcounts := h.counts
  unfold Waiter.parkedCount
  omega

omit [DecidableEq W] [Fintype W] in
/-- What one worker does with its slot and the sleepers. -/
structure Changes (st st' : Waiter W) (w : W) (slot : Slot) : Prop where
  slots : ∀ v, v ≠ w → st'.slots v = st.slots v
  slot : st'.slots w = slot
  lock : st'.lock = st.lock
  sleepers : ∀ v, v ≠ w → (v ∈ st'.sleepers ↔ v ∈ st.sleepers)
  nodup : st'.sleepers.Nodup

namespace Changes

omit [DecidableEq W] [Fintype W] in
theorem held_eq (hchange : Changes st st' w slot) : st'.held = st.held := by
  rw [held, hchange.lock, held]

omit [DecidableEq W] [Fintype W] in
theorem popped_eq (hchange : Changes st st' w slot) : st'.popped = st.popped := by
  rw [popped, hchange.lock, popped]

/-- It is enough to look at this worker. -/
theorem holds (hchange : Changes st st' w slot) (h : st.Holds)
    (hcounts : st'.state + (2 ^ 16 * st.sleepers.length : ℕ) +
      (if IsCounted st.sleepers st.popped w (st.slots w) then 1 else 0 : ℕ) =
        st.state + (2 ^ 16 * st'.sleepers.length : ℕ) +
          (if IsCounted st'.sleepers st.popped w slot then 1 else 0 : ℕ))
    (hrests : Rests st'.sleepers st.held w slot) (hfits : Fits slot)
    (howner : (st.slots w).position = .locked → slot.position = .locked)
    (hcares : st'.work ≠ 0 → st'.sleepers ≠ [] → st'.SomeCares) : st'.Holds := by
  have hsearchers := card_filter_change
    (p := fun w ↦ IsCounted st.sleepers st.popped w (st.slots w))
    (q := fun w ↦ IsCounted st'.sleepers st'.popped w (st'.slots w)) (s := w) fun v hv ↦ by
      simp only [IsCounted, hchange.slots v hv, hchange.sleepers v hv, hchange.popped_eq]
  rw [hchange.slot, hchange.popped_eq] at hsearchers
  refine ⟨?_, hchange.nodup, fun v ↦ ?_, fun v ↦ ?_, fun lock hlock ↦ ?_, hcares⟩
  · have hstate := h.counts
    rw [hchange.popped_eq]
    rw [searchers] at hstate ⊢
    rw [hchange.popped_eq]
    zify at hsearchers
    push_cast at hcounts hstate ⊢
    linarith
  · by_cases hv : v = w
    · rw [hv, hchange.slot, hchange.held_eq]
      exact hrests
    · obtain ⟨hasleep, honce, hwoken⟩ := h.rests v
      rw [hchange.slots v hv, hchange.held_eq]
      refine ⟨?_, ?_, hwoken⟩ <;> rwa [hchange.sleepers v hv]
  · by_cases hv : v = w
    · rw [hv, hchange.slot]
      exact hfits
    · rw [hchange.slots v hv]
      exact h.fits v
  · rw [hchange.lock] at hlock
    have hlocked := h.owner lock hlock
    by_cases hv : lock.owner = w
    · rw [hv] at hlocked ⊢
      exact hchange.slot ▸ howner hlocked
    · rwa [hchange.slots _ hv]

omit [DecidableEq W] [Fintype W] in
/-- If somebody else cares, this goes on. -/
theorem someCares (hchange : Changes st st' w slot) (hcares : st.SomeCares)
    (hw : Cares st.sleepers st.popped w (st.slots w) → st'.SomeCares) : st'.SomeCares := by
  obtain ⟨v, hv⟩ := hcares
  by_cases hvw : v = w
  · exact hw (hvw ▸ hv)
  · refine ⟨v, ?_⟩
    simpa only [Cares, IsCounted, hchange.slots v hvw, hchange.sleepers v hvw,
      hchange.popped_eq] using hv

omit [DecidableEq W] [Fintype W] in
theorem self_cares (hchange : Changes st st' w slot)
    (hw : Cares st'.sleepers st.popped w slot) : st'.SomeCares :=
  ⟨w, by rwa [hchange.slot, hchange.popped_eq]⟩

end Changes

omit [Fintype W] in
theorem slots_setSlot : (st.setSlot w slot).slots w = slot := Function.update_self ..

omit [Fintype W] in
@[simp]
theorem sleepers_setSlot : (st.setSlot w slot).sleepers = st.sleepers := rfl

omit [Fintype W] in
@[simp]
theorem state_setSlot : (st.setSlot w slot).state = st.state := rfl

omit [DecidableEq W] [Fintype W] in
theorem held_of_popped (hpopped : st.popped = some w) : st.held = some w := by
  obtain ⟨lock, hlock, hsome⟩ := Option.bind_eq_some_iff.mp hpopped
  rw [held, hlock]
  split_ifs at hsome
  exact hsome

/-- A worker that does not sleep is not among the sleepers and is not woken up. -/
theorem Holds.awake (h : st.Holds) (hstate : (st.slots w).state ≠ .sleep) :
    w ∉ st.sleepers ∧ st.held ≠ some w ∧ (st.slots w).unparkFlag = false := by
  have hor := mt (h.rests w).asleep.mpr hstate
  simpa only [not_or, Bool.not_eq_true] using hor

/-- A worker that has been woken up is not among the sleepers any more. -/
theorem Holds.woken (h : st.Holds) (hflag : (st.slots w).unparkFlag) :
    w ∉ st.sleepers ∧ st.held ≠ some w ∧ (st.slots w).state = .sleep := by
  have hrests := h.rests w
  refine ⟨fun hmem ↦ ?_, fun hheld ↦ ?_, hrests.asleep.mpr (.inr (.inr hflag))⟩
  · exact Bool.false_ne_true ((hrests.once hmem).2.symm.trans hflag)
  · exact Bool.false_ne_true ((hrests.woken hheld).symm.trans hflag)

omit [DecidableEq W] [Fintype W] in
theorem rests_of_awake {sleepers : List W} {held : Option W} (hmem : w ∉ sleepers)
    (hheld : held ≠ some w) (hflag : slot.unparkFlag = false) (hstate : slot.state ≠ .sleep) :
    Rests sleepers held w slot :=
  ⟨⟨fun hsleep ↦ absurd hsleep hstate, by simp [hmem, hheld, hflag]⟩,
    fun hin ↦ absurd hin hmem, fun hin ↦ absurd hin hheld⟩

/-- If there are several workers that search, there is another one. -/
theorem exists_other (hmany : 1 < st.searchers) (w : W) :
    ∃ v ≠ w, IsCounted st.sleepers st.popped v (st.slots v) := by
  obtain ⟨v, hv, hne⟩ := Finset.exists_mem_ne hmany w
  exact ⟨v, hne, (Finset.mem_filter.mp hv).2⟩

/-- Another worker goes on to search. -/
theorem Changes.other (hchange : Changes st st' w slot) (hmany : 1 < st.searchers) :
    st'.SomeCares := by
  obtain ⟨v, hv, hcounted⟩ := exists_other hmany w
  refine ⟨v, .inl ?_⟩
  simpa only [IsCounted, hchange.slots v hv, hchange.sleepers v hv, hchange.popped_eq]
    using hcounted

theorem Holds.setSlot (h : st.Holds) (state : ℤ) (work : ℕ) (w : W) (slot : Slot) :
    Changes st ({ st with state := state, work := work }.setSlot w slot) w slot :=
  ⟨fun _ hv ↦ Function.update_of_ne hv _ _, Function.update_self .., rfl, fun _ _ ↦ Iff.rfl,
    h.nodup⟩

theorem holds_addWork (h : st.Holds) (hposition : (st.slots w).position = .outside)
    (hstate : (st.slots w).state = .work) :
    ({ st with work := st.work + 1 }.setSlot w { st.slots w with position := .notify }).Holds := by
  have hrests := h.rests w
  have hchange := h.setSlot st.state (st.work + 1) w { st.slots w with position := .notify }
  refine hchange.holds h ?_ ⟨hrests.asleep, hrests.once, hrests.woken⟩ ?_ ?_ fun _ _ ↦
    hchange.self_cares ?_
  · simp [IsCounted, hstate, setSlot]
  · simp [Fits, hstate]
  · simp [hposition]
  · simp [Cares]

/-- The worker has found something, or nothing. -/
theorem holds_look (h : st.Holds) (w : W) (look : Look) (work : ℕ) (hwork : work ≠ 0 → st.work ≠ 0)
    (hlook : look = .failed → work = 0) :
    ({ st with work := work }.setSlot w { st.slots w with look := look }).Holds := by
  have hrests := h.rests w
  have hchange := h.setSlot st.state work w { st.slots w with look := look }
  refine hchange.holds h ?_ ⟨hrests.asleep, hrests.once, hrests.woken⟩ (h.fits w) id
    fun hne hsleepers ↦ ?_
  · rfl
  · refine hchange.someCares (h.cares (hwork hne) hsleepers) fun hcares ↦ hchange.self_cares ?_
    exact hcares.imp_right (Or.imp_left fun ⟨hsleep, hout, _⟩ ↦
      ⟨hsleep, hout, fun hfailed ↦ hne (hlook hfailed)⟩)

/-- A worker that has had work begins to search. -/
theorem holds_search (h : st.Holds) (hposition : (st.slots w).position = .outside)
    (hstate : (st.slots w).state = .work) :
    ({ st with state := st.state + 1 }.setSlot w
      { st.slots w with state := .search, look := .open }).Holds := by
  obtain ⟨hmem, hheld, hflag⟩ := h.awake (w := w) (by simp [hstate])
  have hchange := h.setSlot (st.state + 1) st.work w
    { st.slots w with state := .search, look := .open }
  refine hchange.holds h ?_ (rests_of_awake hmem hheld hflag nofun) ?_ ?_
    fun _ _ ↦ hchange.self_cares ?_
  · simp [IsCounted, hstate, hposition]
    ring
  · simp [Fits, hposition]
  · simp [hposition]
  · simp [Cares, IsCounted, hposition]

/-- A worker that has not found anything goes to sleep, and looks for work once more, if it has been
the last one that searches. -/
theorem holds_sleep (h : st.Holds) (hcard : Fintype.card W < 1000)
    (hposition : (st.slots w).position = .outside) (hstate : (st.slots w).state = .search)
    (hlock : st.lock = none) :
    ({ st with state := st.state + (2 ^ 16 - 1), sleepers := st.sleepers ++ [w] }.setSlot w
      (if st.searchingCount = 1 then { st.slots w with state := .sleep, look := .open }
      else { st.slots w with state := .sleep, position := .park })).Holds := by
  obtain ⟨hmem, -, hflag⟩ := h.awake (w := w) (by simp [hstate])
  have hheld : st.held = none := by rw [held, hlock]; rfl
  have hpopped : st.popped = none := by rw [popped, hlock]; rfl
  have hcounted : IsCounted st.sleepers st.popped w (st.slots w) := .inl ⟨hstate, .inl hposition⟩
  have hnodup : (st.sleepers ++ [w]).Nodup := by
    rw [← List.concat_eq_append]
    exact h.nodup.concat hmem
  have hchange (slot : Slot) : Changes st ({ st with
      state := st.state + (2 ^ 16 - 1), sleepers := st.sleepers ++ [w] }.setSlot w slot) w slot :=
    ⟨fun _ hv ↦ Function.update_of_ne hv _ _, Function.update_self .., rfl, fun v hv ↦ by simp [hv],
      hnodup⟩
  have hrests {slot : Slot} (hslot : slot.state = .sleep)
      (hflag' : slot.unparkFlag = (st.slots w).unparkFlag) :
      Rests (st.sleepers ++ [w]) st.held w slot := by
    refine ⟨by simp [hslot], fun _ ↦ ?_, by simp [hheld]⟩
    simp [hheld, hflag', hflag]
  split_ifs with hlast
  · refine (hchange _).holds h ?_ (hrests rfl rfl) ?_ ?_ fun _ _ ↦ (hchange _).self_cares ?_
    · simp [IsCounted, hstate, hposition]
      ring
    · simp [Fits, hposition]
    · simp [hposition]
    · simp [Cares, hposition]
  · have hmany : 1 < st.searchers := by
      have hpos : 0 < st.searchers := Finset.card_pos.mpr ⟨w, by simpa using hcounted⟩
      rw [h.searchingCount hcard] at hlast
      omega
    refine (hchange _).holds h ?_ (hrests rfl rfl) rfl ?_ fun _ _ ↦ (hchange _).other hmany
    · simp [IsCounted, hstate, hposition]
      ring
    · simp [hposition]

/-- A worker that has not found anything when it looked once more is about to park. -/
theorem holds_failed (h : st.Holds) (hposition : (st.slots w).position = .outside)
    (hstate : (st.slots w).state = .sleep) (hlook : (st.slots w).look = .failed) :
    (st.setSlot w { st.slots w with position := .park }).Holds := by
  have hrests := h.rests w
  have hchange := h.setSlot st.state st.work w { st.slots w with position := .park }
  refine hchange.holds h ?_ ⟨hrests.asleep, hrests.once, hrests.woken⟩ hstate ?_
    fun hne hsleepers ↦ ?_
  · simp [IsCounted, hstate]
  · simp [hposition]
  · refine hchange.someCares (h.cares hne hsleepers) fun hcares ↦ hchange.self_cares ?_
    simp only [Cares, IsCounted, hposition, hstate, hlook] at hcares ⊢
    simpa using hcares

/-- A worker that has been woken up searches again. -/
theorem holds_park (h : st.Holds) (hposition : (st.slots w).position = .park)
    (hflag : (st.slots w).unparkFlag) : (st.setSlot w { state := .search }).Holds := by
  obtain ⟨hmem, hheld, hsleep⟩ := h.woken hflag
  have hchange := h.setSlot st.state st.work w { state := .search }
  refine hchange.holds h ?_ (rests_of_awake hmem hheld rfl nofun) trivial ?_
    fun _ _ ↦ hchange.self_cares ?_
  · simp [IsCounted, hsleep, hmem, mt held_of_popped hheld]
  · simp [hposition]
  · simp [Cares, IsCounted]

theorem holds_stopSearch (h : st.Holds) (hposition : (st.slots w).position = .outside)
    (hstate : (st.slots w).state = .search) :
    (st.setSlot w { st.slots w with position := .stopWait }).Holds := by
  have hrests := h.rests w
  have hchange := h.setSlot st.state st.work w { st.slots w with position := .stopWait }
  refine hchange.holds h ?_ ⟨hrests.asleep, hrests.once, hrests.woken⟩ hstate ?_
    fun _ _ ↦ hchange.self_cares ?_
  · simp [IsCounted, hstate, hposition]
  · simp [hposition]
  · simp [Cares, IsCounted, hstate]

/-- A worker that finds work when it looks once more is not a sleeper any more. -/
theorem holds_erase (h : st.Holds) (hposition : (st.slots w).position = .outside)
    (hmem : w ∈ st.sleepers) :
    ({ st with state := st.state - (2 ^ 16 - 1), sleepers := st.sleepers.erase w }.setSlot w
      { st.slots w with state := .search, position := .stopWait }).Holds := by
  obtain ⟨hheld, hflag⟩ := (h.rests w).once hmem
  have hstate : (st.slots w).state = .sleep := (h.rests w).asleep.mpr (.inl hmem)
  have hchange : Changes st ({ st with
      state := st.state - (2 ^ 16 - 1), sleepers := st.sleepers.erase w }.setSlot w
        { st.slots w with state := .search, position := .stopWait }) w
        { st.slots w with state := .search, position := .stopWait } :=
    ⟨fun _ hv ↦ Function.update_of_ne hv _ _, Function.update_self .., rfl, fun v hv ↦
      List.mem_erase_of_ne hv, h.nodup.erase w⟩
  refine hchange.holds h ?_ (rests_of_awake h.nodup.not_mem_erase hheld hflag nofun) rfl ?_
    fun _ _ ↦ hchange.self_cares ?_
  · simp [IsCounted, hstate, hmem, Nat.cast_pred (List.length_pos_of_mem hmem)]
    ring
  · simp [hposition]
  · simp [Cares, IsCounted]

/-- A worker that finds work when it looks once more has been woken up meanwhile. -/
theorem holds_cancelPark (h : st.Holds) (hposition : (st.slots w).position = .outside)
    (hflag : (st.slots w).unparkFlag) :
    (st.setSlot w
      { st.slots w with state := .search, unparkFlag := false, position := .stopWait }).Holds := by
  obtain ⟨hmem, hheld, hsleep⟩ := h.woken hflag
  have hchange := h.setSlot st.state st.work w
    { st.slots w with state := .search, unparkFlag := false, position := .stopWait }
  refine hchange.holds h ?_ (rests_of_awake hmem hheld rfl nofun) rfl ?_
    fun _ _ ↦ hchange.self_cares ?_
  · simp [IsCounted, hsleep, hmem, mt held_of_popped hheld]
  · simp [hposition]
  · simp [Cares, IsCounted]

/-- The last worker that searches has found work, and calls `notify`. -/
theorem holds_fetchSub_last (h : st.Holds) (hposition : (st.slots w).position = .stopWait) :
    ({ st with state := st.state - 1 }.setSlot w
      { st.slots w with position := .notify }).Holds := by
  have hstate : (st.slots w).state = .search := by
    have hfits := h.fits w
    rwa [Fits, hposition] at hfits
  have hrests := h.rests w
  have hchange := h.setSlot (st.state - 1) st.work w { st.slots w with position := .notify }
  refine hchange.holds h ?_ ⟨hrests.asleep, hrests.once, hrests.woken⟩ ?_ ?_
    fun _ _ ↦ hchange.self_cares ?_
  · simp [IsCounted, hstate, hposition]
    ring
  · simp [Fits, hstate]
  · simp [hposition]
  · simp [Cares]

theorem holds_fetchSub (h : st.Holds) (hposition : (st.slots w).position = .stopWait)
    (hmany : 1 < st.searchers) : ({ st with state := st.state - 1 }.finish w).Holds := by
  have hstate : (st.slots w).state = .search := by
    have hfits := h.fits w
    rwa [Fits, hposition] at hfits
  obtain ⟨hmem, hheld, hflag⟩ := h.awake (w := w) (by simp [hstate])
  have hchange := h.setSlot (st.state - 1) st.work w
    { state := .work, unparkFlag := (st.slots w).unparkFlag }
  refine hchange.holds h ?_ (rests_of_awake hmem hheld hflag nofun) trivial ?_
    fun _ _ ↦ hchange.other hmany
  · simp [IsCounted, hstate, hposition]
    ring
  · simp [hposition]

/-- `notify` has nothing to do: somebody searches, or nobody sleeps. -/
theorem holds_finish (h : st.Holds)
    (hposition : (st.slots w).position = .notify ∨ (st.slots w).position = .lock)
    (hcares : st.sleepers ≠ [] → 0 < st.searchers) : (st.finish w).Holds := by
  have hstate : (st.slots w).state ≠ .sleep := by
    have hfits := h.fits w
    rcases hposition with hposition | hposition <;> rwa [Fits, hposition] at hfits
  have hcounted : ¬IsCounted st.sleepers st.popped w (st.slots w) := by
    rcases hposition with hposition | hposition <;> simp [IsCounted, hposition, hstate]
  obtain ⟨hmem, hheld, hflag⟩ := h.awake hstate
  have hchange := h.setSlot st.state st.work w
    { state := .work, unparkFlag := (st.slots w).unparkFlag }
  refine hchange.holds h ?_ (rests_of_awake hmem hheld hflag nofun) trivial ?_
    fun _ hsleepers ↦ ?_
  · rw [if_neg hcounted]
    simp [IsCounted]
  · rcases hposition with hposition | hposition <;> simp [hposition]
  · obtain ⟨v, hv⟩ := Finset.card_pos.mp (hcares hsleepers)
    have hcounted_v := (Finset.mem_filter.mp hv).2
    have hne : v ≠ w := by
      rintro rfl
      exact hcounted hcounted_v
    exact ⟨v, .inl (by rwa [hchange.slots v hne])⟩

theorem holds_toLock (h : st.Holds) (hposition : (st.slots w).position = .notify) :
    (st.setSlot w { st.slots w with position := .lock }).Holds := by
  have hstate : (st.slots w).state ≠ .sleep := by
    have hfits := h.fits w
    rwa [Fits, hposition] at hfits
  have hrests := h.rests w
  have hchange := h.setSlot st.state st.work w { st.slots w with position := .lock }
  refine hchange.holds h ?_ ⟨hrests.asleep, hrests.once, hrests.woken⟩ hstate ?_
    fun _ _ ↦ hchange.self_cares ?_
  · simp [IsCounted, hposition]
  · simp [hposition]
  · simp [Cares]

/-- The last sleeper is taken. -/
theorem holds_pop {sleeper : W} (h : st.Holds) (hposition : (st.slots w).position = .lock)
    (hlock : st.lock = none) (hlast : st.sleepers.getLast? = some sleeper) :
    ({ st with
      sleepers := st.sleepers.dropLast, lock := some { owner := w, sleeper := sleeper } }.setSlot w
        { st.slots w with position := .locked }).Holds := by
  obtain ⟨rest, hsleepers⟩ := List.getLast?_eq_some_iff.mp hlast
  have hstate : (st.slots w).state ≠ .sleep := by
    have hfits := h.fits w
    rwa [Fits, hposition] at hfits
  have hmem : sleeper ∈ st.sleepers := by simp [hsleepers]
  have hpopped : st.popped = none := by rw [popped, hlock]; rfl
  obtain ⟨-, hflag⟩ := (h.rests sleeper).once hmem
  have hsleep : (st.slots sleeper).state = .sleep := (h.rests sleeper).asleep.mpr (.inl hmem)
  have hne : sleeper ≠ w := by
    rintro rfl
    exact hstate hsleep
  have hnotMem : sleeper ∉ rest := by
    have hnodup := h.nodup
    rw [hsleepers, List.nodup_append] at hnodup
    exact fun hin ↦ hnodup.2.2 sleeper hin sleeper (List.mem_singleton_self _) rfl
  have hmem_iff (v : W) (hv : v ≠ sleeper) : v ∈ rest ↔ v ∈ st.sleepers := by simp [hsleepers, hv]
  have hheld : st.held = none := by rw [held, hlock]; rfl
  rw [hsleepers, List.dropLast_concat]
  have hslot (v : W) (hv : v ≠ w) :
      Function.update st.slots w { st.slots w with position := .locked } v = st.slots v :=
    Function.update_of_ne hv _ _
  have hcounted (v : W) : IsCounted rest (some sleeper) v
      (Function.update st.slots w { st.slots w with position := .locked } v) ↔
        IsCounted st.sleepers st.popped v (st.slots v) := by
    by_cases hv : v = w
    · subst hv
      simp [IsCounted, hposition, hstate]
    · rw [hslot v hv]
      by_cases hvs : v = sleeper
      · subst hvs
        simp [IsCounted, hsleep, hmem]
      · simp [IsCounted, hpopped, hmem_iff v hvs, Ne.symm hvs]
  refine ⟨?_, (List.nodup_append.mp (hsleepers ▸ h.nodup)).1, fun v ↦ ?_, fun v ↦ ?_,
    fun lock hlock' ↦ ?_, fun _ _ ↦ ⟨w, ?_⟩⟩
  · have hsearchers : (Finset.univ.filter fun v ↦ IsCounted rest (some sleeper) v
        (Function.update st.slots w { st.slots w with position := .locked } v)).card =
          st.searchers := congrArg Finset.card (Finset.filter_congr fun v _ ↦ hcounted v)
    have hcounts := h.counts
    rw [hpopped, hsleepers] at hcounts
    rw [searchers]
    exact hcounts.trans (by rw [← hsearchers]; simp [popped, setSlot])
  · change Rests rest (some sleeper) v (Function.update st.slots w _ v)
    by_cases hv : v = w
    · subst hv
      obtain ⟨hnot, -, hflag⟩ := h.awake hstate
      rw [Function.update_self]
      refine rests_of_awake ?_ (fun heq ↦ hne (Option.some.inj heq)) hflag hstate
      exact mt (hmem_iff v hne.symm).mp hnot
    · rw [hslot v hv]
      obtain ⟨hasleep, honce, -⟩ := h.rests v
      by_cases hvs : v = sleeper
      · subst hvs
        exact ⟨⟨fun _ ↦ .inr (.inl rfl), fun _ ↦ hsleep⟩, fun hin ↦ absurd hin hnotMem,
          fun _ ↦ hflag⟩
      · have hns : some sleeper ≠ some v := fun heq ↦ hvs (Option.some.inj heq).symm
        refine ⟨?_, fun hin ↦ ⟨hns, (honce ((hmem_iff v hvs).mp hin)).2⟩,
          fun heq ↦ absurd heq hns⟩
        rw [hasleep, hmem_iff v hvs, hheld]
        simp [Ne.symm hvs]
  · change Fits (Function.update st.slots w _ v)
    by_cases hv : v = w
    · subst hv
      rw [Function.update_self]
      exact hstate
    · rw [hslot v hv]
      exact h.fits v
  · obtain rfl := Option.some.inj hlock'
    exact congrArg Slot.position slots_setSlot
  · rw [slots_setSlot]
    exact .inr (.inr (.inr (.inr rfl)))

/-- The sleeper is counted as one that searches. -/
theorem holds_countSleeper {lock : Lock W} (h : st.Holds) (hlock : st.lock = some lock)
    (hcounted : lock.isCounted = false) :
    { st with
      state := st.state - (2 ^ 16 - 1), lock := some { lock with isCounted := true } }.Holds := by
  have hheld : st.held = some lock.sleeper := by rw [held, hlock]; rfl
  have hpopped : st.popped = some lock.sleeper := by simp [popped, hlock, hcounted]
  have hmem : lock.sleeper ∉ st.sleepers := fun hmem ↦ ((h.rests _).once hmem).1 hheld
  have hsleep : (st.slots lock.sleeper).state = .sleep := (h.rests _).asleep.mpr (.inr (.inl hheld))
  have hafter : IsCounted st.sleepers none lock.sleeper (st.slots lock.sleeper) :=
    .inr ⟨hsleep, hmem, nofun⟩
  have hbefore : ¬IsCounted st.sleepers st.popped lock.sleeper (st.slots lock.sleeper) := by
    simp [IsCounted, hsleep, hpopped]
  refine ⟨?_, h.nodup, fun v ↦ ?_, h.fits, fun lock' hlock' ↦ ?_, fun _ _ ↦ ⟨lock.sleeper, .inl ?_⟩⟩
  · have hsearchers := card_filter_change
      (p := fun w ↦ IsCounted st.sleepers st.popped w (st.slots w))
      (q := fun w ↦ IsCounted st.sleepers none w (st.slots w)) (s := lock.sleeper) fun v hv ↦ by
        simp [IsCounted, hpopped, Ne.symm hv]
    rw [if_neg hbefore, if_pos hafter] at hsearchers
    have hcounts := h.counts
    rw [hpopped, searchers, hpopped] at hcounts
    rw [hpopped] at hsearchers
    rw [searchers]
    simp only [popped, Option.bind_some, if_true]
    rw [show (Finset.univ.filter fun w ↦ IsCounted st.sleepers none w (st.slots w)).card = _ from
      hsearchers]
    simp at hcounts ⊢
    linarith
  · have hrests := h.rests v
    rw [hheld] at hrests
    exact hrests
  · obtain rfl := Option.some.inj hlock'
    exact h.owner lock hlock
  · exact hafter

theorem holds_unpark {lock : Lock W} (h : st.Holds) (hlock : st.lock = some lock)
    (hcounted : lock.isCounted) :
    (({ st with lock := none }.setSlot lock.sleeper
      { st.slots lock.sleeper with unparkFlag := true }).finish lock.owner).Holds := by
  have hheld : st.held = some lock.sleeper := by rw [held, hlock]; rfl
  have hpopped : st.popped = none := by simp [popped, hlock, hcounted]
  have hmem : lock.sleeper ∉ st.sleepers := fun hmem ↦ ((h.rests _).once hmem).1 hheld
  have hsleep : (st.slots lock.sleeper).state = .sleep := (h.rests _).asleep.mpr (.inr (.inl hheld))
  have hposition := h.owner lock hlock
  have hstate : (st.slots lock.owner).state ≠ .sleep := by
    have hfits := h.fits lock.owner
    rwa [Fits, hposition] at hfits
  have hne : lock.sleeper ≠ lock.owner := by
    intro heq
    rw [heq] at hsleep
    exact hstate hsleep
  obtain ⟨hnot, -, hflag⟩ := h.awake hstate
  have hslots (v : W) : (({ st with lock := none }.setSlot lock.sleeper
      { st.slots lock.sleeper with unparkFlag := true }).finish lock.owner).slots v =
        if v = lock.owner then { state := .work }
        else if v = lock.sleeper then { st.slots v with unparkFlag := true } else st.slots v := by
    simp only [finish, setSlot, Function.update_apply]
    split_ifs with ho hs hs <;> simp_all
  refine ⟨?_, h.nodup, fun v ↦ ?_, fun v ↦ ?_, nofun, fun _ _ ↦ ⟨lock.sleeper, .inl ?_⟩⟩
  · have hsearchers : (Finset.univ.filter fun v ↦ IsCounted st.sleepers none v
        ((({ st with lock := none }.setSlot lock.sleeper
          { st.slots lock.sleeper with unparkFlag := true }).finish lock.owner).slots v)).card =
            st.searchers := by
      refine congrArg Finset.card (Finset.filter_congr fun v _ ↦ ?_)
      rw [hslots, hpopped]
      split_ifs with ho hs
      · subst ho
        simp [IsCounted, hposition, hstate]
      · simp [IsCounted]
      · rfl
    have hcounts := h.counts
    rw [hpopped] at hcounts
    rw [← hsearchers] at hcounts
    exact hcounts
  · rw [hslots]
    obtain ⟨hasleep, honce, -⟩ := h.rests v
    change Rests st.sleepers none v _
    split_ifs with ho hs
    · exact ho ▸ rests_of_awake hnot nofun rfl nofun
    · subst hs
      exact ⟨⟨fun _ ↦ .inr (.inr rfl), fun _ ↦ hsleep⟩, fun hin ↦ absurd hin hmem, nofun⟩
    · have hns : st.held ≠ some v := fun heq ↦ hs (Option.some.inj (hheld.symm.trans heq)).symm
      refine ⟨hasleep.trans ?_, fun hin ↦ ⟨nofun, (honce hin).2⟩, nofun⟩
      simp [hns]
  · rw [hslots]
    split_ifs with ho hs
    · trivial
    · exact h.fits v
    · exact h.fits v
  · rw [hslots, if_neg hne, if_pos rfl]
    exact .inr ⟨hsleep, hmem, nofun⟩

/-! ## Runs -/

theorem holds_init : ({} : Waiter W).Holds where
  counts := by simp [searchers, IsCounted, popped]
  nodup := .nil
  rests w := rests_of_awake List.not_mem_nil nofun rfl nofun
  fits w := trivial
  owner lock h := by cases h
  cares h := absurd rfl h

/-- A step that succeeds keeps the invariant, and one that does not was not possible. -/
def Sound (result : Except Stop (Waiter W)) : Prop :=
  (∀ st', result = .ok st' → st'.Holds) ∧ ∀ e, result = .error e → e = .disabled

theorem sound_disabled : Sound (.error .disabled : Except Stop (Waiter W)) :=
  ⟨nofun, fun _ heq ↦ (Except.error.inj heq).symm⟩

theorem Holds.sound (h : st.Holds) : Sound (.ok st) :=
  ⟨fun _ heq ↦ Except.ok.inj heq ▸ h, nofun⟩

/-- A worker that is counted is one of those that search. -/
theorem searchers_pos (hcounted : IsCounted st.sleepers st.popped w (st.slots w)) :
    0 < st.searchers := Finset.card_pos.mpr ⟨w, Finset.mem_filter.mpr ⟨Finset.mem_univ w, hcounted⟩⟩

theorem holds_wait (h : st.Holds) (hcard : Fintype.card W < 1000)
    (hposition : (st.slots w).position = .outside) (hlook : (st.slots w).look = .failed) :
    Sound (st.wait w) := by
  unfold wait
  dsimp only
  split
  case h_1 hstate =>
    exact (holds_search h hposition hstate).sound
  case h_2 hstate =>
    have hcount := searchers_pos (.inl ⟨hstate, .inl hposition⟩ : IsCounted _ st.popped w _)
    have hflag := (h.awake (w := w) (by simp [hstate])).2.2
    split_ifs with hlock hzero hset
    · exact sound_disabled
    · rw [h.searchingCount hcard] at hzero
      exact absurd (Int.natCast_eq_zero.mp hzero) hcount.ne'
    · rw [hflag] at hset
      cases hset
    all_goals
      have hlock : st.lock = none := Option.not_isSome_iff_eq_none.mp hlock
      have hsleep := holds_sleep h hcard hposition hstate hlock
      rename_i hlast
      simp only [hlast, if_true, if_false] at hsleep
      exact hsleep.sound
  case h_3 hstate =>
    exact (holds_failed h hposition hstate hlook).sound

theorem holds_stopWait (h : st.Holds) (hposition : (st.slots w).position = .outside) :
    Sound (st.stopWait w) := by
  unfold stopWait
  dsimp only
  split
  case h_1 hstate =>
    have hlook : (st.setSlot w { st.slots w with look := .open }).Holds :=
      holds_look h w .open st.work id nofun
    exact hlook.sound
  case h_2 hstate =>
    exact (holds_stopSearch h hposition hstate).sound
  case h_3 hstate =>
    split_ifs with hlock hmem hflag
    · exact sound_disabled
    · exact (holds_erase h hposition hmem).sound
    · exact (holds_cancelPark h hposition hflag).sound
    · have hlock : st.lock = none := Option.not_isSome_iff_eq_none.mp hlock
      have hheld : st.held = none := by rw [held, hlock]; rfl
      have hor := (h.rests w).asleep.mp hstate
      simp [hmem, hheld, hflag] at hor

theorem holds_fetchSub_any (h : st.Holds) (hcard : Fintype.card W < 1000)
    (hposition : (st.slots w).position = .stopWait) :
    ∃ st', st.fetchSub w = .ok st' ∧ st'.Holds := by
  have hstate : (st.slots w).state = .search := by
    have hfits := h.fits w
    rwa [Fits, hposition] at hfits
  have hcounted := searchers_pos (.inl ⟨hstate, .inr hposition⟩ : IsCounted _ st.popped w _)
  have hle : st.searchers ≤ Fintype.card W := Finset.card_le_univ _
  have hcount := h.searchingCount hcard
  unfold fetchSub
  rw [if_neg (by omega), if_neg (by omega)]
  split_ifs with hlast
  · exact ⟨_, rfl, holds_fetchSub_last h hposition⟩
  · exact ⟨_, rfl, holds_fetchSub h hposition (by omega)⟩

theorem holds_notify (h : st.Holds) (hcard : Fintype.card W < 1000)
    (hposition : (st.slots w).position = .notify)
    (hnothing : 0 < st.searchingCount ∨ st.parkedCount = 0) : (st.finish w).Holds := by
  refine holds_finish h (.inl hposition) fun hne ↦ ?_
  rw [h.searchingCount hcard, h.parkedCount hcard] at hnothing
  rcases hnothing with hpos | hzero
  · exact_mod_cast hpos
  · have hlength : st.sleepers.length = 0 := by omega
    exact absurd (List.length_eq_zero_iff.mp hlength) hne

theorem holds_lockSleepers (h : st.Holds) (hcard : Fintype.card W < 1000)
    (hposition : (st.slots w).position = .lock) :
    Sound (st.lockSleepers w) := by
  unfold lockSleepers
  split_ifs with hlock hsearching hparked
  · exact sound_disabled
  · refine (holds_finish h (.inr hposition) fun _ ↦ ?_).sound
    rw [h.searchingCount hcard] at hsearching
    exact_mod_cast hsearching
  · have hlock : st.lock = none := Option.not_isSome_iff_eq_none.mp hlock
    have hpopped : st.popped = none := by rw [popped, hlock]; rfl
    rw [h.parkedCount hcard, hpopped] at hparked
    exact absurd rfl hparked
  · have hlock : st.lock = none := Option.not_isSome_iff_eq_none.mp hlock
    cases hlast : st.sleepers.getLast? with
    | none =>
      refine (holds_finish h (.inr hposition) fun hne ↦ ?_).sound
      exact absurd (List.getLast?_eq_none_iff.mp hlast) hne
    | some sleeper =>
      exact (holds_pop h hposition hlock hlast).sound

theorem holds_step {x : Step W} (hcard : Fintype.card W < 1000) (h : st.Holds) :
    Sound (st.step x) := by
  cases x <;> rw [step]
  case addWork w =>
    split_ifs with hif
    · exact (holds_addWork h hif.1 hif.2).sound
    · exact sound_disabled
  case findWork w =>
    split_ifs with hif hzero
    · exact (holds_look h w .failed st.work id fun _ ↦ hzero).sound
    · exact (holds_look h w .found (st.work - 1) (fun _ ↦ hzero) nofun).sound
    · exact sound_disabled
  case wait w =>
    split_ifs with hif
    · exact holds_wait h hcard hif.1 hif.2
    · exact sound_disabled
  case park w =>
    split_ifs with hif
    · exact (holds_park h hif.1 hif.2).sound
    · exact sound_disabled
  case stopWait w =>
    split_ifs with hif
    · exact holds_stopWait h hif
    · exact sound_disabled
  case fetchSub w =>
    split_ifs with hif
    · obtain ⟨st', hst', h'⟩ := holds_fetchSub_any h hcard hif
      rw [hst']
      exact h'.sound
    · exact sound_disabled
  case notify w =>
    split_ifs with hif hnothing
    · exact (holds_notify h hcard hif hnothing).sound
    · exact (holds_toLock h hif).sound
    · exact sound_disabled
  case lock w =>
    split_ifs with hif
    · exact holds_lockSleepers h hcard hif
    · exact sound_disabled
  case countSleeper w =>
    split
    · exact sound_disabled
    · next lock hlock =>
      split_ifs with hif
      · exact (holds_countSleeper h hlock (by simpa using hif.2)).sound
      · exact sound_disabled
  case unpark w =>
    split
    · exact sound_disabled
    · next lock hlock =>
      split_ifs with hif
      · obtain ⟨rfl, hcounted⟩ := hif
        exact (holds_unpark h hlock hcounted).sound
      · exact sound_disabled

/-- The worker searches, or is being woken up, or looks for work before it sleeps, or its thread is
in `notify`. -/
def Awake (st : Waiter W) (w : W) : Prop :=
  (st.slots w).state = .search ∨ (st.slots w).unparkFlag ∨ st.held = some w ∨
  ((st.slots w).state = .sleep ∧ (st.slots w).position = .outside ∧ (st.slots w).look ≠ .failed) ∨
  (st.slots w).position = .notify ∨ (st.slots w).position = .lock ∨
  (st.slots w).position = .locked

theorem Holds.awake_of_cares (h : st.Holds)
    (hcares : Cares st.sleepers st.popped w (st.slots w)) : st.Awake w := by
  rcases hcares with (⟨hsearch, -⟩ | ⟨hsleep, hmem, -⟩) | hcares
  · exact .inl hsearch
  · rcases ((h.rests w).asleep.mp hsleep).resolve_left hmem with hheld | hflag
    · exact .inr (.inr (.inl hheld))
    · exact .inr (.inl hflag)
  · exact .inr (.inr (.inr hcares))

/-- However up to 999 threads take turns, no check fails, `state_` counts the workers that search,
and no work is forgotten: if there is work, and a worker is parked, somebody is awake. -/
theorem run_awake (hcard : Fintype.card W < 1000) (xs : List (Step W)) :
    (∀ st, xs.foldlM step {} = .ok st → st.searchingCount = st.searchers ∧
      (st.work ≠ 0 → ∀ w, (st.slots w).position = .park → ∃ v, st.Awake v)) ∧
    ∀ e, xs.foldlM step {} = .error e → e = .disabled := by
  obtain ⟨hok, herror⟩ := foldlM_except (P := Holds) (Q := fun e ↦ e = .disabled)
    (fun h hstep ↦ (holds_step hcard h).1 _ hstep) (fun h hstep ↦ (holds_step hcard h).2 _ hstep)
    (holds_init (W := W))
  refine ⟨fun st hrun ↦ ?_, herror⟩
  have h := hok st hrun
  refine ⟨h.searchingCount hcard, fun hwork w hposition ↦ ?_⟩
  have hsleep : (st.slots w).state = .sleep := by
    have hfits := h.fits w
    rwa [Fits, hposition] at hfits
  rcases (h.rests w).asleep.mp hsleep with hmem | hheld | hflag
  · obtain ⟨v, hv⟩ := h.cares hwork (List.ne_nil_of_mem hmem)
    exact ⟨v, h.awake_of_cares hv⟩
  · exact ⟨w, .inr (.inr (.inl hheld))⟩
  · exact ⟨w, .inr (.inl hflag)⟩

/-- A worker looks for work once more, and parks, and is woken up when there is work. -/
def wakeSteps : List (Step Bool) :=
  [.findWork true, .wait true, .findWork true, .wait true, .findWork true, .wait true,
    .addWork false, .notify false, .lock false, .countSleeper false, .unpark false]

theorem run_awake_unpark : ∃ st : Waiter Bool, wakeSteps.foldlM step {} = .ok st ∧
    (st.slots true).position = .park ∧ st.work = 1 ∧ ∃ v, st.Awake v := by
  have hrun : wakeSteps.foldlM step {} = .ok _ := rfl
  exact ⟨_, hrun, rfl, rfl, ((run_awake (by decide) wakeSteps).1 _ hrun).2 one_ne_zero true rfl⟩

end Waiter

end PxcCore.MpmcWaiter
