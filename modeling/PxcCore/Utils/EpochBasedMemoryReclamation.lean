import PxcCore.Lib.Families
import PxcCore.Lib.Result
import PxcCore.Lib.Traces

/-!
# EpochBasedMemoryReclamation

`EpochBasedMemoryReclamation.h`: threads take objects out of a structure that others still read, and
delete them once nobody can have a reference.  What a thread does between two accesses to an epoch
that another thread reads too is one step, with the access before.  The structure itself is given by
what the threads do to it: they link objects, read references to them while they are locked, and
unlink them to retire them later on.  An object is linked once; what is built in its place after
that is another object.
-/

namespace PxcCore.EpochBasedMemoryReclamation

open PxcCore.Lib

/-! ## Definitions -/

/-- The calls that go through several accesses. -/
inductive Call where
  | lock
  | retire
  | retireSync
  deriving DecidableEq, Repr

/-- Where a thread is: outside of the calls, or before an access.  `store` is the one at the end of
`set_epoch`, which `step_check` calls too. -/
inductive Position where
  | outside
  | load (call : Call)
  | store (call : Call) (newEpoch : ℕ) (isCheck : Bool)
  | check (call : Call)
  | compareExchange (call : Call)
  | idle
  deriving DecidableEq, Repr

/-- `ThreadData`, with the position of the thread, the references that it holds and the objects that
it has unlinked and not retired yet. -/
structure ThreadData (P : Type) where
  epoch : ℕ := 1
  toSkip : ℕ := 0
  checkedThreadI : ℕ := 0
  bagI : Fin 3 := 0
  toDelete : Fin 3 → List P := fun _ ↦ []
  position : Position := .outside
  held : List P := []
  unlinked : List P := []

/-- `EpochBasedMemoryReclamation`, with the objects of the structure and the ones deleted so far. -/
structure State (n : ℕ) (P : Type) where
  threads : Fin n → ThreadData P := fun _ ↦ {}
  epoch : ℕ := 1
  linked : List P := []
  deleted : List P := []

/-- `link`, `read` and `unlink` are what the threads do to the structure; `next` is the next access
of a call. -/
inductive Step (n : ℕ) (P : Type) where
  | link (p : P)
  | read (t : Fin n) (p : P)
  | unlink (t : Fin n) (p : P)
  | retirePtr (t : Fin n) (p : P)
  | call (t : Fin n) (call : Call)
  | unlock (t : Fin n)
  | next (t : Fin n)
  deriving DecidableEq, Repr

/-- Why a step is not made. -/
inductive Stop where
  | disabled
  | overflow
  | outOfRange
  deriving DecidableEq, Repr

namespace ThreadData

variable {P : Type}

def undeleted (data : ThreadData P) : ℕ :=
  (data.toDelete 0).length + (data.toDelete 1).length + (data.toDelete 2).length

/-- The objects that the thread has unlinked, and that are not deleted yet. -/
def owned (data : ThreadData P) : List P :=
  data.unlinked ++ data.toDelete 0 ++ data.toDelete 1 ++ data.toDelete 2

def rotateBags (data : ThreadData P) : ThreadData P :=
  { data with
    bagI := data.bagI + 1, toDelete := Function.update data.toDelete (data.bagI + 1) [] }

/-- `set_epoch` up to the store. -/
def setEpoch (data : ThreadData P) (newEpoch : ℕ) : ThreadData P :=
  if data.epoch / 2 ≠ newEpoch then { data.rotateBags with checkedThreadI := 0, toSkip := 0 }
  else data

/-- What `set_epoch` deletes. -/
def cleared (data : ThreadData P) (newEpoch : ℕ) : List P :=
  if data.epoch / 2 ≠ newEpoch then data.toDelete (data.bagI + 1) else []

/-- What follows when `step_check` has returned. -/
def checked (data : ThreadData P) (call : Call) (ok : Bool) : ThreadData P :=
  match call with
  | .lock => { data with position := .outside }
  | .retire =>
    { data with position := if ok ∧ data.undeleted ≠ 0 then .check .retire else .outside }
  | .retireSync =>
    { data with position := if ok ∧ data.undeleted ≠ 0 then .check .retireSync else .idle }

/-- The store of `set_epoch`, and what follows it. -/
def store (data : ThreadData P) (call : Call) (newEpoch : ℕ) (isCheck : Bool) : ThreadData P :=
  let data := { data with epoch := newEpoch * 2 }
  if isCheck then data.checked call true
  else match call with
    | .lock =>
      if data.toSkip = 0 then { data with toSkip := 30, position := .check .lock }
      else { data with toSkip := data.toSkip - 1, position := .outside }
    | call => { data with position := .check call }

/-- `retire` of an object -/
def retirePtr [DecidableEq P] (data : ThreadData P) (p : P) : ThreadData P :=
  { data with
    unlinked := data.unlinked.erase p
    toDelete := Function.update data.toDelete data.bagI (data.toDelete data.bagI ++ [p]) }

/-- `idle` -/
def idle (data : ThreadData P) : ThreadData P := { data with epoch := data.epoch ||| 1 }

end ThreadData

namespace State

variable {n : ℕ} {P : Type}

def setData (st : State n P) (t : Fin n) (data : ThreadData P) : State n P :=
  { st with threads := Function.update st.threads t data }

/-- `set_epoch`, when it is called with the value that `epoch_` has. -/
def setEpoch (st : State n P) (t : Fin n) (call : Call) (isCheck : Bool) : State n P :=
  { st with deleted := st.deleted ++ (st.threads t).cleared st.epoch }.setData t
    { (st.threads t).setEpoch st.epoch with position := .store call st.epoch isCheck }

/-- `step_check` up to the access to `epoch_`. -/
def check (st : State n P) (t : Fin n) (call : Call) : Except Stop (State n P) :=
  let data := st.threads t
  if h : data.checkedThreadI < n then
    let checkedThreadEpoch := (st.threads ⟨data.checkedThreadI, h⟩).epoch
    if checkedThreadEpoch % 2 = 1 ∨ checkedThreadEpoch / 2 = data.epoch / 2 then
      let data := { data with checkedThreadI := data.checkedThreadI + 1 }
      if data.checkedThreadI = n then
        .ok (st.setData t { data with position := .compareExchange call })
      else .ok (st.setData t (data.checked call true))
    else .ok (st.setData t (data.checked call false))
  else .error .outOfRange

/-- The next access of the thread. -/
def next (st : State n P) (t : Fin n) : Except Stop (State n P) :=
  let data := st.threads t
  match data.position with
  | .outside => .error .disabled
  | .load call => .ok (st.setEpoch t call false)
  | .store call newEpoch isCheck => .ok (st.setData t (data.store call newEpoch isCheck))
  | .check call => st.check t call
  | .compareExchange call =>
    if st.epoch = data.epoch / 2 then
      if 2 ^ 62 ≤ st.epoch + 1 then .error .overflow
      else .ok ({ st with epoch := st.epoch + 1 }.setEpoch t call true)
    else .ok (st.setEpoch t call true)
  | .idle =>
    .ok (st.setData t { data.idle with
      position := if data.undeleted = 0 then .outside else .load .retireSync })

variable [DecidableEq P]

/-- The object has been linked. -/
def known (st : State n P) (p : P) : Prop :=
  p ∈ st.linked ∨ p ∈ st.deleted ∨ ∃ t, p ∈ (st.threads t).owned

instance (st : State n P) (p : P) : Decidable (st.known p) :=
  inferInstanceAs (Decidable (_ ∨ _ ∨ _))

def step (st : State n P) : Step n P → Except Stop (State n P)
  | .link p => if st.known p then .error .disabled else .ok { st with linked := p :: st.linked }
  | .read t p =>
    let data := st.threads t
    if data.position = .outside ∧ data.epoch % 2 = 0 ∧ p ∈ st.linked then
      .ok (st.setData t { data with held := p :: data.held })
    else .error .disabled
  | .unlink t p =>
    let data := st.threads t
    if data.position = .outside ∧ p ∈ st.linked then
      .ok ({ st with linked := st.linked.erase p }.setData t
        { data with unlinked := p :: data.unlinked })
    else .error .disabled
  | .retirePtr t p =>
    let data := st.threads t
    if data.position = .outside ∧ p ∈ data.unlinked then
      .ok (st.setData t (data.retirePtr p))
    else .error .disabled
  | .call t call =>
    let data := st.threads t
    if data.position = .outside then
      .ok (st.setData t { data with position := .load call, held := [] })
    else .error .disabled
  | .unlock t =>
    let data := st.threads t
    if data.position = .outside then .ok (st.setData t { data.idle with held := [] })
    else .error .disabled
  | .next t => st.next t

end State

/-! ## What threads may still use -/

namespace ThreadData

variable {P : Type} {data : ThreadData P}

/-- The epoch that the thread has, or is about to have. -/
def target (data : ThreadData P) : ℕ :=
  match data.position with
  | .store _ newEpoch _ => newEpoch
  | _ => data.epoch / 2

/-- `checked_thread_i` is an index, but for the time at which all threads have been checked. -/
def InRange (n : ℕ) (data : ThreadData P) : Prop :=
  data.checkedThreadI < n ∧ (∀ call, data.position ≠ .compareExchange call) ∨
    data.checkedThreadI = n ∧ ∃ call, data.position = .compareExchange call

/-- What holds of a thread that has locked when `epoch_` was `since`, if objects have been unlinked
when `epoch_` was `gone`. -/
structure Fits (n epoch : ℕ) (linked deleted : List P) (gone : P → ℕ) (since : ℕ)
    (data : ThreadData P) : Prop where
  target_le : data.target ≤ epoch
  locked : data.epoch % 2 = 0 → data.epoch / 2 ≤ since ∧ since ≤ epoch ∧ epoch ≤ since + 1
  inRange : data.InRange n
  gone_le : ∀ p ∈ data.owned, gone p ≤ epoch
  last : ∀ p ∈ data.toDelete (data.bagI + 2), gone p ≤ data.target
  first : ∀ p ∈ data.toDelete (data.bagI + 1), gone p + 1 ≤ data.target
  held : ∀ p ∈ data.held, data.epoch % 2 = 0 ∧ data.position = .outside ∧ p ∉ deleted ∧
    (p ∈ linked ∨ since ≤ gone p)

theorem mem_owned {p : P} :
    p ∈ data.owned ↔ p ∈ data.unlinked ∨ ∃ i, p ∈ data.toDelete i := by
  simp only [owned, List.mem_append, Fin.exists_fin_succ, Fin.exists_fin_zero]
  tauto

theorem checked_eq (data : ThreadData P) (call : Call) (ok : Bool) :
    ∃ position, data.checked call ok = { data with position := position } ∧
      (∀ call v isCheck, position ≠ .store call v isCheck) ∧
      ∀ call, position ≠ .compareExchange call := by
  cases call
  case lock => exact ⟨_, rfl, nofun, nofun⟩
  all_goals
    refine ⟨_, rfl, ?_⟩
    split_ifs
    · exact ⟨nofun, nofun⟩
    · exact ⟨nofun, nofun⟩

theorem store_eq (data : ThreadData P) (call : Call) (newEpoch : ℕ) (isCheck : Bool) :
    ∃ toSkip position, data.store call newEpoch isCheck =
        { data with epoch := newEpoch * 2, toSkip := toSkip, position := position } ∧
      (∀ call v isCheck, position ≠ .store call v isCheck) ∧
      ∀ call, position ≠ .compareExchange call := by
  cases isCheck with
  | true =>
    obtain ⟨position, heq, hposition⟩ :=
      ({ data with epoch := newEpoch * 2 } : ThreadData P).checked_eq call true
    exact ⟨_, position, heq, hposition⟩
  | false =>
    cases call
    case lock =>
      by_cases hskip : data.toSkip = 0
      · exact ⟨_, _, if_pos hskip, nofun, nofun⟩
      · exact ⟨_, _, if_neg hskip, nofun, nofun⟩
    all_goals exact ⟨_, _, rfl, nofun, nofun⟩

theorem target_of_ne (hposition : ∀ call v isCheck, data.position ≠ .store call v isCheck) :
    data.target = data.epoch / 2 := by
  unfold target
  split
  · next call v isCheck heq => exact absurd heq (hposition call v isCheck)
  · rfl

namespace Fits

variable {n epoch since : ℕ} {linked deleted : List P} {gone : P → ℕ} {data' : ThreadData P}

theorem held_eq_nil (h : data.Fits n epoch linked deleted gone since)
    (hposition : data.position ≠ .outside) : data.held = [] :=
  List.eq_nil_iff_forall_not_mem.mpr fun p hp ↦ hposition (h.held p hp).2.1

theorem lt_of_ne (h : data.Fits n epoch linked deleted gone since)
    (hposition : ∀ call, data.position ≠ .compareExchange call) : data.checkedThreadI < n :=
  (h.inRange.resolve_right fun ⟨_, call, hcall⟩ ↦ hposition call hcall).1

/-- A thread that holds no references goes on, with the bags as they are. -/
theorem rest (h : data.Fits n epoch linked deleted gone since)
    (htarget : data'.target = data.target)
    (hlocked : data'.epoch % 2 = 0 → data'.epoch = data.epoch)
    (hunlinked : data'.unlinked = data.unlinked) (hbags : data'.toDelete = data.toDelete)
    (hbagI : data'.bagI = data.bagI) (hheld : data'.held = []) (hrange : data'.InRange n) :
    data'.Fits n epoch linked deleted gone since where
  target_le := htarget ▸ h.target_le
  locked heven := by
    have hepoch := hlocked heven
    rw [hepoch] at heven ⊢
    exact h.locked heven
  inRange := hrange
  gone_le p hp := h.gone_le p (by rwa [owned, hunlinked, hbags] at hp)
  last p hp := htarget ▸ h.last p (by rwa [hbags, hbagI] at hp)
  first p hp := htarget ▸ h.first p (by rwa [hbags, hbagI] at hp)
  held p hp := by simp [hheld] at hp

end Fits

variable [DecidableEq P] {p : P}

theorem count_owned (data : ThreadData P) (p : P) :
    data.owned.count p = data.unlinked.count p + (total data.toDelete).count p := by
  simp only [owned, total, Fin.sum_univ_three, List.count_append, Multiset.count_add,
    Multiset.coe_count, add_assoc]

theorem count_owned_retirePtr (hp : p ∈ data.unlinked) (p' : P) :
    (data.retirePtr p).owned.count p' = data.owned.count p' := by
  have hcount := count_total_update data.toDelete data.bagI (data.toDelete data.bagI ++ [p]) p'
  have hpos := List.count_pos_iff.mpr hp
  rw [List.count_append, List.count_singleton] at hcount
  rw [count_owned, count_owned]
  simp only [retirePtr, List.count_erase, beq_iff_eq] at hcount ⊢
  split_ifs at hcount ⊢ with heq
  · obtain rfl := heq
    omega
  · omega

/-- What is deleted when the bags are rotated. -/
theorem count_owned_rotateBags (data : ThreadData P) (p : P) :
    data.rotateBags.owned.count p + (data.toDelete (data.bagI + 1)).count p =
      data.owned.count p := by
  have hcount := count_total_update data.toDelete (data.bagI + 1) [] p
  rw [count_owned, count_owned]
  simp only [rotateBags, List.count_nil] at hcount ⊢
  omega

theorem toDelete_retirePtr {i : Fin 3} (hi : i ≠ data.bagI) :
    (data.retirePtr p).toDelete i = data.toDelete i := Function.update_of_ne hi ..

end ThreadData

namespace State

variable {n : ℕ} {P : Type} {st st' : State n P} {since : Fin n → ℕ} {gone : P → ℕ} {t : Fin n}
  {p : P}

@[simp]
theorem threads_setData_self (data : ThreadData P) : (st.setData t data).threads t = data :=
  Function.update_self ..

theorem threads_setData_of_ne {t' : Fin n} (hne : t' ≠ t) (data : ThreadData P) :
    (st.setData t data).threads t' = st.threads t' := Function.update_of_ne hne ..

variable [DecidableEq P]

/-- In how many places the object is. -/
def places (st : State n P) (p : P) : ℕ :=
  st.linked.count p + st.deleted.count p + (total fun t ↦ (st.threads t).owned).count p

theorem places_setData (st : State n P) (t : Fin n) (data : ThreadData P) (p : P) :
    (st.setData t data).places p + (st.threads t).owned.count p =
      st.places p + data.owned.count p := by
  have hcount := count_total_update (ThreadData.owned ∘ st.threads) t data.owned p
  rw [← Function.comp_update] at hcount
  simp only [places, setData, Function.comp_def] at hcount ⊢
  omega

theorem places_setData_of_eq {data : ThreadData P} (howned : data.owned = (st.threads t).owned) :
    (st.setData t data).places p = st.places p := by
  have hplaces := places_setData st t data p
  rw [howned] at hplaces
  omega

theorem places_unlink (hlinked : p ∈ st.linked) (p' : P) :
    ({ st with linked := st.linked.erase p }.setData t
      { st.threads t with unlinked := p :: (st.threads t).unlinked }).places p' = st.places p' := by
  have hplaces := places_setData { st with linked := st.linked.erase p } t
    { st.threads t with unlinked := p :: (st.threads t).unlinked } p'
  have hpos := List.count_pos_iff.mpr hlinked
  simp only [places, ThreadData.count_owned, List.count_cons, List.count_erase, beq_iff_eq]
    at hplaces ⊢
  split_ifs at hplaces ⊢ with heq
  · obtain rfl := heq
    omega
  · omega

theorem places_delete (st : State n P) (ps : List P) (p : P) :
    { st with deleted := st.deleted ++ ps }.places p = st.places p + ps.count p := by
  simp only [places, List.count_append]
  omega

theorem places_pos (hp : p ∈ (st.threads t).owned) :
    0 < (total fun t ↦ (st.threads t).owned).count p :=
  (List.count_pos_iff.mpr hp).trans_le (count_le_count_total (fun t ↦ (st.threads t).owned) t p)

/-- The threads lock when `epoch_` is `since`, and the objects are unlinked when it is `gone`.  No
thread has checked one that is locked since before the epoch that it has itself. -/
structure Account (since : Fin n → ℕ) (gone : P → ℕ) (st : State n P) : Prop where
  fits : ∀ t, (st.threads t).Fits n st.epoch st.linked st.deleted gone (since t)
  unchecked : ∀ t c, (st.threads t).epoch % 2 = 0 → since t < (st.threads c).target →
    (st.threads c).checkedThreadI ≤ t
  once : ∀ p, st.places p ≤ 1

namespace Account

/-- An object that somebody is to delete is not in the structure. -/
theorem notMem_linked (h : st.Account since gone) (hp : p ∈ (st.threads t).owned) :
    p ∉ st.linked := by
  intro hlinked
  have honce := h.once p
  have hpos := places_pos hp
  have hcount := List.count_pos_iff.mpr hlinked
  rw [places] at honce
  omega

/-- A thread goes on. -/
theorem setData (h : st.Account since gone) {data : ThreadData P}
    (hfits : data.Fits n st.epoch st.linked st.deleted gone (since t))
    (hlocked : data.epoch % 2 = 0 → (st.threads t).epoch % 2 = 0)
    (hchecked : ∀ t', (st.threads t').epoch % 2 = 0 → since t' < data.target →
      data.checkedThreadI ≤ t')
    (honce : ∀ p, (st.setData t data).places p ≤ 1) :
    (st.setData t data).Account since gone where
  fits t' := by
    rcases eq_or_ne t' t with rfl | hne
    · rw [threads_setData_self]
      exact hfits
    · rw [threads_setData_of_ne hne]
      exact h.fits t'
  unchecked t' c heven hlt := by
    have heven' : (st.threads t').epoch % 2 = 0 := by
      rcases eq_or_ne t' t with rfl | hne
      · rw [threads_setData_self] at heven
        exact hlocked heven
      · rwa [threads_setData_of_ne hne] at heven
    rcases eq_or_ne c t with rfl | hne
    · rw [threads_setData_self] at hlt ⊢
      exact hchecked t' heven' hlt
    · rw [threads_setData_of_ne hne] at hlt ⊢
      exact h.unchecked t' c heven' hlt
  once := honce

/-- A thread that holds no references goes on, with the bags as they are. -/
theorem rest (h : st.Account since gone) {data : ThreadData P}
    (htarget : data.target = (st.threads t).target)
    (hlocked : data.epoch % 2 = 0 → data.epoch = (st.threads t).epoch)
    (hunlinked : data.unlinked = (st.threads t).unlinked)
    (hbags : data.toDelete = (st.threads t).toDelete) (hbagI : data.bagI = (st.threads t).bagI)
    (hheld : data.held = []) (hchecked : data.checkedThreadI = (st.threads t).checkedThreadI)
    (hlt : data.checkedThreadI < n) (hposition : ∀ call, data.position ≠ .compareExchange call) :
    (st.setData t data).Account since gone := by
  apply h.setData
  · exact (h.fits t).rest htarget hlocked hunlinked hbags hbagI hheld (.inl ⟨hlt, hposition⟩)
  · intro heven
    rwa [← hlocked heven]
  · intro t' heven hlt
    rw [hchecked]
    exact h.unchecked t' t heven (htarget ▸ hlt)
  · intro p
    rw [places_setData_of_eq (by rw [ThreadData.owned, ThreadData.owned, hunlinked, hbags])]
    exact h.once p

end Account

/-! ## Steps -/

/-- Some history of the locks and of the unlinked objects fits the state. -/
def Holds (st : State n P) : Prop := ∃ since gone, st.Account since gone

theorem holds_link (h : st.Holds) (hknown : ¬st.known p) :
    { st with linked := p :: st.linked }.Holds := by
  obtain ⟨since, gone, h⟩ := h
  refine ⟨since, gone, fun t ↦ ?_, h.unchecked, fun p' ↦ ?_⟩
  · have hfits := h.fits t
    refine { hfits with held := fun p' hp' ↦ ?_ }
    obtain ⟨heven, hposition, hdeleted, hor⟩ := hfits.held p' hp'
    exact ⟨heven, hposition, hdeleted, hor.imp_left (List.mem_cons_of_mem p)⟩
  · have honce := h.once p'
    rw [places] at honce ⊢
    rw [List.count_cons]
    split_ifs with heq
    · obtain rfl : p = p' := beq_iff_eq.mp heq
      simp only [known, not_or, not_exists] at hknown
      have htotal : (total fun t ↦ (st.threads t).owned).count p = 0 := by
        rw [Multiset.count_eq_zero, total, Multiset.mem_sum]
        rintro ⟨t, -, ht⟩
        exact hknown.2.2 t ht
      dsimp only at htotal ⊢
      rw [List.count_eq_zero.mpr hknown.1, List.count_eq_zero.mpr hknown.2.1, htotal]
    · exact honce

theorem holds_read (h : st.Holds) (hposition : (st.threads t).position = .outside)
    (heven : (st.threads t).epoch % 2 = 0) (hlinked : p ∈ st.linked) :
    (st.setData t { st.threads t with held := p :: (st.threads t).held }).Holds := by
  obtain ⟨since, gone, h⟩ := h
  have hfits := h.fits t
  have honce := h.once p
  have hcount := List.count_pos_iff.mpr hlinked
  rw [places] at honce
  refine ⟨since, gone, h.setData { hfits with held := ?_ } id (fun t' ↦ h.unchecked t' t)
    fun p' ↦ ?_⟩
  · intro p' hp'
    rcases List.mem_cons.mp hp' with rfl | hp'
    · exact ⟨heven, hposition, List.count_eq_zero.mp (by omega), .inl hlinked⟩
    · exact hfits.held p' hp'
  · rw [places_setData_of_eq]
    · exact h.once p'
    · rfl

theorem holds_unlink (h : st.Holds) (hlinked : p ∈ st.linked) :
    ({ st with linked := st.linked.erase p }.setData t
      { st.threads t with unlinked := p :: (st.threads t).unlinked }).Holds := by
  obtain ⟨since, gone, h⟩ := h
  have hne {t'} {p' : P} (hp' : p' ∈ (st.threads t').owned) : p' ≠ p := by
    rintro rfl
    exact h.notMem_linked hp' hlinked
  have hgone {p' : P} (hp' : p' ≠ p) : Function.update gone p st.epoch p' = gone p' :=
    Function.update_of_ne hp' ..
  -- The object is gone from now on, which is after those who hold it have locked.
  have hfits (t') : (st.threads t').Fits n st.epoch (st.linked.erase p) st.deleted
      (Function.update gone p st.epoch) (since t') := by
    have hfits := h.fits t'
    refine { hfits with gone_le := ?_, last := ?_, first := ?_, held := ?_ }
    · intro p' hp'
      rw [hgone (hne hp')]
      exact hfits.gone_le p' hp'
    · intro p' hp'
      rw [hgone (hne (ThreadData.mem_owned.mpr (.inr ⟨_, hp'⟩)))]
      exact hfits.last p' hp'
    · intro p' hp'
      rw [hgone (hne (ThreadData.mem_owned.mpr (.inr ⟨_, hp'⟩)))]
      exact hfits.first p' hp'
    · intro p' hp'
      obtain ⟨heven, hout, hdeleted, hor⟩ := hfits.held p' hp'
      refine ⟨heven, hout, hdeleted, ?_⟩
      rcases eq_or_ne p' p with rfl | hp'
      · rw [Function.update_self]
        exact .inr (hfits.locked heven).2.1
      · rw [hgone hp']
        exact hor.imp_left (List.mem_erase_of_ne hp').mpr
  have herase : Account since (Function.update gone p st.epoch)
      { st with linked := st.linked.erase p } := by
    refine ⟨hfits, h.unchecked, fun p' ↦ (h.once p').trans' ?_⟩
    have hle := (List.erase_sublist (a := p) (l := st.linked)).count_le p'
    simp only [places]
    omega
  refine ⟨since, _, herase.setData ?_ id (fun t' ↦ h.unchecked t' t) fun p' ↦ ?_⟩
  · refine { hfits t with gone_le := fun p' hp' ↦ ?_ }
    rcases List.mem_cons.mp hp' with rfl | hp'
    · rw [Function.update_self]
    · exact (hfits t).gone_le p' hp'
  · exact (places_unlink hlinked p').trans_le (h.once p')

theorem holds_retirePtr (h : st.Holds) (hp : p ∈ (st.threads t).unlinked) :
    (st.setData t ((st.threads t).retirePtr p)).Holds := by
  obtain ⟨since, gone, h⟩ := h
  have hfits := h.fits t
  have hcount := ThreadData.count_owned_retirePtr hp
  refine ⟨since, gone, h.setData ?_ id (fun t' ↦ h.unchecked t' t) fun p' ↦ ?_⟩
  · refine { hfits with gone_le := ?_, last := ?_, first := ?_ }
    · intro p' hp'
      apply hfits.gone_le
      rwa [← List.count_pos_iff, ← hcount, List.count_pos_iff]
    · intro p' hp'
      rw [ThreadData.toDelete_retirePtr (by simp [ThreadData.retirePtr])] at hp'
      exact hfits.last p' hp'
    · intro p' hp'
      rw [ThreadData.toDelete_retirePtr (by simp [ThreadData.retirePtr])] at hp'
      exact hfits.first p' hp'
  · have hplaces := places_setData st t ((st.threads t).retirePtr p) p'
    have honce := h.once p'
    rw [hcount] at hplaces
    omega

theorem holds_call (h : st.Holds) (hposition : (st.threads t).position = .outside) (call : Call) :
    (st.setData t { st.threads t with position := .load call, held := [] }).Holds := by
  obtain ⟨since, gone, h⟩ := h
  have hlt := (h.fits t).lt_of_ne (by simp [hposition])
  exact ⟨since, gone, h.rest (by simp [ThreadData.target, hposition]) (fun _ ↦ rfl) rfl rfl rfl rfl
    rfl hlt nofun⟩

theorem holds_idle (h : st.Holds) {position : Position} {held : List P}
    (htarget : (st.threads t).target = (st.threads t).epoch / 2)
    (hposition : ∀ call v isCheck, position ≠ .store call v isCheck)
    (hlt : (st.threads t).checkedThreadI < n) (hne : ∀ call, position ≠ .compareExchange call)
    (hheld : held = []) :
    (st.setData t { (st.threads t).idle with position := position, held := held }).Holds := by
  obtain ⟨since, gone, h⟩ := h
  refine ⟨since, gone, h.rest ?_ ?_ rfl rfl rfl hheld rfl hlt hne⟩
  · rw [htarget, ThreadData.target_of_ne hposition]
    simp [ThreadData.idle, Nat.or_div_two]
  · intro heven
    have hodd : ((st.threads t).epoch ||| 1) % 2 = 1 := Nat.or_mod_two_eq_one.mpr (.inr rfl)
    exact absurd (hodd.symm.trans heven) one_ne_zero

/-- Nobody holds an object of the bag that has been full for two epochs of its thread. -/
theorem Account.notMem_held (h : st.Account since gone) {t' : Fin n}
    (htarget : (st.threads t).target < st.epoch)
    (hp : p ∈ (st.threads t).toDelete ((st.threads t).bagI + 1)) : p ∉ (st.threads t').held := by
  intro hheld
  obtain ⟨heven, -, -, hor⟩ := (h.fits t').held p hheld
  have howned : p ∈ (st.threads t).owned := ThreadData.mem_owned.mpr (.inr ⟨_, hp⟩)
  have hsince := hor.resolve_left (h.notMem_linked howned)
  have hlocked := (h.fits t').locked heven
  have hfirst := (h.fits t).first p hp
  omega

/-- Objects that nobody holds are deleted. -/
theorem Account.delete (h : st.Account since gone) {ps : List P}
    (hps : ∀ p ∈ ps, ∀ t, p ∉ (st.threads t).held)
    (honce : ∀ p, st.places p + ps.count p ≤ 1) :
    Account since gone { st with deleted := st.deleted ++ ps } where
  fits t := by
    refine { h.fits t with held := fun p hp ↦ ?_ }
    obtain ⟨heven, hposition, hdeleted, hor⟩ := (h.fits t).held p hp
    refine ⟨heven, hposition, ?_, hor⟩
    rw [List.mem_append, not_or]
    exact ⟨hdeleted, fun hmem ↦ hps p hmem t hp⟩
  unchecked := h.unchecked
  once p := by
    have hp := honce p
    simp only [places, List.count_append] at hp ⊢
    omega

theorem places_rotateBags {data : ThreadData P}
    (howned : data.owned = (st.threads t).rotateBags.owned) (p : P) : (st.setData t data).places p +
      ((st.threads t).toDelete ((st.threads t).bagI + 1)).count p = st.places p := by
  have hplaces := places_setData st t data p
  have hcount := ThreadData.count_owned_rotateBags (st.threads t) p
  rw [howned] at hplaces
  omega

/-- The oldest bag is emptied, and becomes the one for the objects to come. -/
theorem account_rotateBags (h : st.Account since gone) (hheld : (st.threads t).held = [])
    (hlt : (st.threads t).target < st.epoch) (call : Call) (isCheck : Bool) :
    (st.setData t { (st.threads t).rotateBags with
      checkedThreadI := 0, toSkip := 0, position := .store call st.epoch isCheck }).Account
      since gone := by
  have hfits := h.fits t
  have hbag (i : Fin 3) : i + 1 + 2 = i ∧ i ≠ i + 1 ∧ i + 1 + 1 = i + 2 ∧ i + 2 ≠ i + 1 := by
    revert i
    decide
  obtain ⟨hlast, hne, hfirst, hne'⟩ := hbag (st.threads t).bagI
  apply h.setData
  · refine ⟨le_rfl, hfits.locked, .inl ⟨t.pos, nofun⟩, ?_, ?_, ?_, ?_⟩
    · intro p hp
      apply hfits.gone_le
      rw [← List.count_pos_iff] at hp ⊢
      have hcount := ThreadData.count_owned_rotateBags (st.threads t) p
      exact hp.trans_le (hcount ▸ Nat.le_add_right _ _)
    · intro p hp
      simp only [ThreadData.rotateBags] at hp
      rw [hlast, Function.update_of_ne hne] at hp
      exact hfits.gone_le p (ThreadData.mem_owned.mpr (.inr ⟨_, hp⟩))
    · intro p hp
      simp only [ThreadData.rotateBags] at hp
      rw [hfirst, Function.update_of_ne hne'] at hp
      exact (hfits.last p hp).trans_lt hlt
    · intro p hp
      simp [ThreadData.rotateBags, hheld] at hp
  · exact id
  · exact fun _ _ _ ↦ Nat.zero_le _
  · intro p
    refine Nat.le_of_add_right_le ((places_rotateBags ?_ p).trans_le (h.once p))
    rfl

theorem account_setEpoch (h : st.Account since gone)
    (htarget : (st.threads t).target = (st.threads t).epoch / 2)
    (hposition : (st.threads t).position ≠ .outside)
    (hrange : (st.threads t).checkedThreadI < n ∨ (st.threads t).epoch / 2 ≠ st.epoch) (call : Call)
    (isCheck : Bool) : (st.setEpoch t call isCheck).Account since gone := by
  have hheld := (h.fits t).held_eq_nil hposition
  unfold setEpoch ThreadData.cleared ThreadData.setEpoch
  split_ifs with hne
  · have hlt : (st.threads t).target < st.epoch :=
      lt_of_le_of_ne (h.fits t).target_le (htarget ▸ hne)
    refine (account_rotateBags h hheld hlt call isCheck).delete (fun p hp t' ↦ ?_) fun p ↦ ?_
    · rcases eq_or_ne t' t with rfl | hne'
      · rw [threads_setData_self]
        exact hheld ▸ List.not_mem_nil
      · rw [threads_setData_of_ne hne']
        exact h.notMem_held hlt hp
    · refine (places_rotateBags ?_ p).trans_le (h.once p)
      rfl
  · rw [List.append_nil]
    have hepoch : (st.threads t).epoch / 2 = st.epoch := not_not.mp hne
    apply h.rest
    · rw [htarget, hepoch]
      rfl
    · exact fun _ ↦ rfl
    · rfl
    · rfl
    · rfl
    · exact hheld
    · rfl
    · exact hrange.resolve_right hne
    · exact nofun

theorem holds_store (h : st.Holds) {call : Call} {newEpoch : ℕ} {isCheck : Bool}
    (hposition : (st.threads t).position = .store call newEpoch isCheck) :
    (st.setData t ((st.threads t).store call newEpoch isCheck)).Holds := by
  obtain ⟨since, gone, h⟩ := h
  have hfits := h.fits t
  have hheld := hfits.held_eq_nil (by simp [hposition])
  have hlt := hfits.lt_of_ne (by simp [hposition])
  have hle := hfits.target_le
  obtain ⟨toSkip, position, heq, hstore, hcompare⟩ := (st.threads t).store_eq call newEpoch isCheck
  have htarget : ((st.threads t).store call newEpoch isCheck).target = (st.threads t).target := by
    rw [heq, ThreadData.target_of_ne hstore, ThreadData.target, hposition]
    exact Nat.mul_div_cancel _ two_pos
  have hepoch : (st.threads t).target = newEpoch := by rw [ThreadData.target, hposition]
  refine ⟨Function.update since t st.epoch, gone, fun t' ↦ ?_, fun t' c ↦ ?_, fun p ↦ ?_⟩
  · rcases eq_or_ne t' t with rfl | hne
    · rw [threads_setData_self, Function.update_self]
      refine ⟨htarget ▸ hle, fun _ ↦ ?_, ?_, ?_, ?_, ?_, ?_⟩
      · rw [heq]
        dsimp only
        rw [Nat.mul_div_cancel _ two_pos, ← hepoch]
        exact ⟨hle, le_rfl, Nat.le_succ _⟩
      · rw [heq]
        exact .inl ⟨hlt, hcompare⟩
      · rw [heq]
        exact hfits.gone_le
      · rw [htarget, heq]
        exact hfits.last
      · rw [htarget, heq]
        exact hfits.first
      · rw [heq]
        exact fun p hp ↦ by simp [hheld] at hp
    · rw [threads_setData_of_ne hne, Function.update_of_ne hne]
      exact h.fits t'
  · have hchecked : ((st.setData t ((st.threads t).store call newEpoch isCheck)).threads c).target =
        (st.threads c).target ∧ ((st.setData t ((st.threads t).store call newEpoch isCheck)).threads
          c).checkedThreadI = (st.threads c).checkedThreadI := by
      rcases eq_or_ne c t with rfl | hne
      · rw [threads_setData_self]
        exact ⟨htarget, by rw [heq]⟩
      · rw [threads_setData_of_ne hne]
        exact ⟨rfl, rfl⟩
    rw [hchecked.1, hchecked.2]
    rcases eq_or_ne t' t with rfl | hne
    · rw [Function.update_self]
      exact fun _ hlt ↦ absurd (h.fits c).target_le (not_le.mpr hlt)
    · rw [threads_setData_of_ne hne, Function.update_of_ne hne]
      exact h.unchecked t' c
  · rw [places_setData_of_eq (by rw [heq]; rfl)]
    exact h.once p

/-- A thread that is locked since before the epoch is not passed over. -/
theorem Account.checked_le (h : st.Account since gone) (hlt : (st.threads t).checkedThreadI < n)
    (hpass : (st.threads ⟨_, hlt⟩).epoch % 2 = 1 ∨
      (st.threads ⟨_, hlt⟩).epoch / 2 = (st.threads t).target) {t' : Fin n}
    (heven : (st.threads t').epoch % 2 = 0) (hsince : since t' < (st.threads t).target) :
    (st.threads t).checkedThreadI + 1 ≤ t' := by
  refine lt_of_le_of_ne (h.unchecked t' t heven hsince) fun heq ↦ ?_
  have hsame : (⟨_, hlt⟩ : Fin n) = t' := Fin.ext heq
  rw [hsame] at hpass
  have hlocked := (h.fits t').locked heven
  omega

theorem holds_check (h : st.Holds) {call : Call}
    (hposition : (st.threads t).position = .check call) :
    ∃ st', st.check t call = .ok st' ∧ st'.Holds := by
  obtain ⟨since, gone, h⟩ := h
  have hfits := h.fits t
  have hheld := hfits.held_eq_nil (by simp [hposition])
  have hlt := hfits.lt_of_ne (by simp [hposition])
  have htarget : (st.threads t).target = (st.threads t).epoch / 2 :=
    ThreadData.target_of_ne (by simp [hposition])
  unfold check
  dsimp only
  rw [dif_pos hlt]
  split_ifs with hpass hall
  · rw [← htarget] at hpass
    refine ⟨_, rfl, since, gone, h.setData ?_ id (fun t' heven hsince ↦ ?_) fun p ↦ ?_⟩
    · exact hfits.rest htarget.symm (fun _ ↦ rfl) rfl rfl rfl hheld (.inr ⟨hall, call, rfl⟩)
    · exact h.checked_le hlt hpass heven (htarget ▸ hsince)
    · rw [places_setData_of_eq]
      · exact h.once p
      · rfl
  · rw [← htarget] at hpass
    obtain ⟨position, heq, hstore, hcompare⟩ := ({ st.threads t with
      checkedThreadI := (st.threads t).checkedThreadI + 1 } : ThreadData P).checked_eq call true
    rw [heq]
    have htarget' : ThreadData.target { st.threads t with
        checkedThreadI := (st.threads t).checkedThreadI + 1, position := position } =
        (st.threads t).epoch / 2 := ThreadData.target_of_ne hstore
    refine ⟨_, rfl, since, gone, h.setData ?_ id (fun t' heven hsince ↦ ?_) fun p ↦ ?_⟩
    · exact hfits.rest (htarget'.trans htarget.symm) (fun _ ↦ rfl) rfl rfl rfl hheld
        (.inl ⟨lt_of_le_of_ne hlt hall, hcompare⟩)
    · exact h.checked_le hlt hpass heven (htarget.trans htarget'.symm ▸ hsince)
    · rw [places_setData_of_eq]
      · exact h.once p
      · rfl
  · obtain ⟨position, heq, hstore, hcompare⟩ := (st.threads t).checked_eq call false
    rw [heq]
    exact ⟨_, rfl, since, gone, h.rest ((ThreadData.target_of_ne hstore).trans htarget.symm)
      (fun _ ↦ rfl) rfl rfl rfl hheld rfl hlt hcompare⟩

theorem holds_compareExchange (h : st.Holds) {call : Call}
    (hposition : (st.threads t).position = .compareExchange call)
    (hepoch : st.epoch = (st.threads t).epoch / 2) :
    ({ st with epoch := st.epoch + 1 }.setEpoch t call true).Holds := by
  obtain ⟨since, gone, h⟩ := h
  have htarget : (st.threads t).target = (st.threads t).epoch / 2 :=
    ThreadData.target_of_ne (by simp [hposition])
  have hchecked : (st.threads t).checkedThreadI = n :=
    ((h.fits t).inRange.resolve_left fun hlt ↦ hlt.2 call hposition).1
  -- All threads have been checked, so that none is locked since before this epoch.
  have hsince (t') (heven : (st.threads t').epoch % 2 = 0) : st.epoch ≤ since t' := by
    by_contra! hlt
    have hle := h.unchecked t' t heven (by omega)
    have ht' := t'.isLt
    omega
  have hnext : Account since gone { st with epoch := st.epoch + 1 } := by
    refine ⟨fun t' ↦ ?_, h.unchecked, h.once⟩
    have hfits := h.fits t'
    refine { hfits with target_le := ?_, locked := fun heven ↦ ?_, gone_le := fun p hp ↦ ?_ }
    · exact hfits.target_le.trans (Nat.le_succ _)
    · have hlocked := hfits.locked heven
      have hle := hsince t' heven
      dsimp only
      omega
    · exact (hfits.gone_le p hp).trans (Nat.le_succ _)
  exact ⟨since, gone, account_setEpoch hnext htarget (by simp [hposition])
    (.inr (by dsimp only; omega)) call true⟩

theorem holds_init : ({} : State n P).Holds := by
  refine ⟨fun _ ↦ 0, fun _ ↦ 0, fun t ↦ ?_, fun t c ↦ ?_, fun p ↦ ?_⟩
  · exact ⟨Nat.div_le_self 1 2, nofun, .inl ⟨t.pos, nofun⟩, nofun, nofun, nofun, nofun⟩
  · exact nofun
  · simp [places, total, ThreadData.owned]

theorem holds_next (h : st.Holds) :
    (∀ st', st.next t = .ok st' → st'.Holds) ∧ st.next t ≠ .error .outOfRange := by
  unfold next
  dsimp only
  split
  case h_1 => exact ⟨nofun, nofun⟩
  case h_2 call hposition =>
    obtain ⟨since, gone, h⟩ := h
    have hlt := (h.fits t).lt_of_ne (by simp [hposition])
    have htarget : (st.threads t).target = (st.threads t).epoch / 2 :=
      ThreadData.target_of_ne (by simp [hposition])
    have hset := account_setEpoch h htarget (by simp [hposition]) (.inl hlt) call false
    exact ⟨fun st' heq ↦ Except.ok.inj heq ▸ ⟨since, gone, hset⟩, nofun⟩
  case h_3 call newEpoch isCheck hposition =>
    exact ⟨fun st' heq ↦ Except.ok.inj heq ▸ holds_store h hposition, nofun⟩
  case h_4 call hposition =>
    obtain ⟨st₁, hst₁, h₁⟩ := holds_check h hposition
    rw [hst₁]
    exact ⟨fun st' heq ↦ Except.ok.inj heq ▸ h₁, nofun⟩
  case h_5 call hposition =>
    split_ifs with hepoch hoverflow
    · exact ⟨nofun, nofun⟩
    · exact ⟨fun st' heq ↦ Except.ok.inj heq ▸ holds_compareExchange h hposition hepoch, nofun⟩
    · obtain ⟨since, gone, h⟩ := h
      have htarget : (st.threads t).target = (st.threads t).epoch / 2 :=
        ThreadData.target_of_ne (by simp [hposition])
      have hset := account_setEpoch h htarget (by simp [hposition]) (.inr (Ne.symm hepoch)) call
        true
      exact ⟨fun st' heq ↦ Except.ok.inj heq ▸ ⟨since, gone, hset⟩, nofun⟩
  case h_6 hposition =>
    have htarget : (st.threads t).target = (st.threads t).epoch / 2 :=
      ThreadData.target_of_ne (by simp [hposition])
    obtain ⟨since, gone, hfits⟩ := h
    have hheld := (hfits.fits t).held_eq_nil (by simp [hposition])
    have hlt := (hfits.fits t).lt_of_ne (by simp [hposition])
    refine ⟨fun st' heq ↦ Except.ok.inj heq ▸ ?_, nofun⟩
    refine holds_idle ⟨since, gone, hfits⟩ htarget ?_ hlt ?_ hheld
    · split_ifs <;> exact nofun
    · split_ifs <;> exact nofun

theorem holds_step {x : Step n P} (h : st.Holds) :
    (∀ st', st.step x = .ok st' → st'.Holds) ∧ st.step x ≠ .error .outOfRange := by
  cases x <;> rw [step]
  case link p =>
    split_ifs with hknown
    · exact ⟨nofun, nofun⟩
    · exact ⟨fun st' heq ↦ Except.ok.inj heq ▸ holds_link h hknown, nofun⟩
  case read t p =>
    split_ifs with hif
    · exact ⟨fun st' heq ↦ Except.ok.inj heq ▸ holds_read h hif.1 hif.2.1 hif.2.2, nofun⟩
    · exact ⟨nofun, nofun⟩
  case unlink t p =>
    split_ifs with hif
    · exact ⟨fun st' heq ↦ Except.ok.inj heq ▸ holds_unlink h hif.2, nofun⟩
    · exact ⟨nofun, nofun⟩
  case retirePtr t p =>
    split_ifs with hif
    · exact ⟨fun st' heq ↦ Except.ok.inj heq ▸ holds_retirePtr h hif.2, nofun⟩
    · exact ⟨nofun, nofun⟩
  case call t call =>
    split_ifs with hif
    · exact ⟨fun st' heq ↦ Except.ok.inj heq ▸ holds_call h hif call, nofun⟩
    · exact ⟨nofun, nofun⟩
  case unlock t =>
    split_ifs with hif
    · have htarget : (st.threads t).target = (st.threads t).epoch / 2 :=
        ThreadData.target_of_ne (by simp [hif])
      obtain ⟨since, gone, hfits⟩ := h
      have hlt := (hfits.fits t).lt_of_ne (by simp [hif])
      have hidle : (st.threads t).idle.position = .outside := hif
      refine ⟨fun st' heq ↦ Except.ok.inj heq ▸ ?_, nofun⟩
      exact holds_idle ⟨since, gone, hfits⟩ htarget (by simp [hidle]) hlt (by simp [hidle]) rfl
    · exact ⟨nofun, nofun⟩
  case next t => exact holds_next h

/-! ## Nothing is lost -/

theorem places_setEpoch (st : State n P) (t : Fin n) (call : Call) (isCheck : Bool) (p : P) :
    (st.setEpoch t call isCheck).places p = st.places p := by
  unfold setEpoch ThreadData.cleared ThreadData.setEpoch
  split_ifs with hne
  · refine (places_delete (st.setData t _) _ p).trans (places_rotateBags ?_ p)
    rfl
  · rw [List.append_nil, places_setData_of_eq]
    rfl

theorem places_check {call : Call} (hcheck : st.check t call = .ok st') (p : P) :
    st'.places p = st.places p := by
  unfold check at hcheck
  dsimp only at hcheck
  split_ifs at hcheck with hlt hpass hall
  all_goals
    obtain rfl := Except.ok.inj hcheck
    apply places_setData_of_eq
  · rfl
  · obtain ⟨position, heq, -⟩ := ({ st.threads t with
      checkedThreadI := (st.threads t).checkedThreadI + 1 } : ThreadData P).checked_eq call true
    rw [heq]
    rfl
  · obtain ⟨position, heq, -⟩ := (st.threads t).checked_eq call false
    rw [heq]
    rfl

theorem places_next (hnext : st.next t = .ok st') (p : P) : st'.places p = st.places p := by
  unfold next at hnext
  dsimp only at hnext
  split at hnext
  case h_1 => cases hnext
  case h_2 call hposition =>
    obtain rfl := Except.ok.inj hnext
    exact places_setEpoch ..
  case h_3 call newEpoch isCheck hposition =>
    obtain rfl := Except.ok.inj hnext
    obtain ⟨toSkip, position, heq, -⟩ := (st.threads t).store_eq call newEpoch isCheck
    rw [places_setData_of_eq (by rw [heq]; rfl)]
  case h_4 call hposition => exact places_check hnext p
  case h_5 call hposition =>
    split_ifs at hnext
    · obtain rfl := Except.ok.inj hnext
      exact places_setEpoch ..
    · obtain rfl := Except.ok.inj hnext
      exact places_setEpoch ..
  case h_6 hposition =>
    obtain rfl := Except.ok.inj hnext
    apply places_setData_of_eq
    rfl

theorem places_step {x : Step n P} (hstep : st.step x = .ok st') (p : P) :
    st'.places p = st.places p + [x].count (.link p) := by
  cases x <;> rw [step] at hstep
  case link p' =>
    split_ifs at hstep
    obtain rfl := Except.ok.inj hstep
    simp only [places, List.count_cons, List.count_nil, beq_iff_eq, Step.link.injEq]
    omega
  case read t p' =>
    split_ifs at hstep
    obtain rfl := Except.ok.inj hstep
    apply places_setData_of_eq
    rfl
  case unlink t p' =>
    split_ifs at hstep with hif
    obtain rfl := Except.ok.inj hstep
    exact places_unlink hif.2 p
  case retirePtr t p' =>
    split_ifs at hstep with hif
    obtain rfl := Except.ok.inj hstep
    have hplaces := places_setData st t ((st.threads t).retirePtr p') p
    rw [ThreadData.count_owned_retirePtr hif.2] at hplaces
    exact Nat.add_right_cancel hplaces
  case call t call =>
    split_ifs at hstep
    obtain rfl := Except.ok.inj hstep
    apply places_setData_of_eq
    rfl
  case unlock t =>
    split_ifs at hstep
    obtain rfl := Except.ok.inj hstep
    apply places_setData_of_eq
    rfl
  case next t => exact places_next hstep p

theorem places_run {xs : List (Step n P)} (hrun : xs.foldlM step st = .ok st') (p : P) :
    st'.places p = st.places p + xs.count (.link p) := by
  induction xs generalizing st with
  | nil => rw [← Except.ok.inj hrun, List.count_nil, add_zero]
  | cons x xs ih =>
    rw [List.foldlM_cons] at hrun
    obtain ⟨st₁, hst₁, hrest⟩ := bind_eq_ok.mp hrun
    rw [ih hrest, places_step hst₁, add_assoc, ← List.count_append]
    rfl

/-- What nobody may still use is what is deleted, and each object that has been linked is in one
place: in the structure, with the thread that is to delete it, or deleted. -/
structure Safe (st : State n P) (xs : List (Step n P)) : Prop where
  held : ∀ t, ∀ p ∈ (st.threads t).held, p ∉ st.deleted
  places : ∀ p, st.places p = xs.count (.link p)
  once : ∀ p, st.places p ≤ 1

/-- However the threads take turns, no object is deleted while a thread that has locked may use it,
nor twice, and only threads that exist are checked. -/
theorem run_protects (xs : List (Step n P)) :
    (∀ st, xs.foldlM step ({} : State n P) = .ok st → st.Safe xs) ∧
      xs.foldlM step ({} : State n P) ≠ .error .outOfRange := by
  have hruns : (∀ st, xs.foldlM step ({} : State n P) = .ok st → st.Holds) ∧
      ∀ e, xs.foldlM step ({} : State n P) = .error e → e ≠ .outOfRange :=
    foldlM_except (fun h hstep ↦ (holds_step h).1 _ hstep)
      (fun h hstep ↦ by
        rintro rfl
        exact (holds_step h).2 hstep) holds_init
  obtain ⟨hok, herror⟩ := hruns
  constructor
  · intro st hrun
    obtain ⟨since, gone, h⟩ := hok st hrun
    refine ⟨fun t p hp ↦ ((h.fits t).held p hp).2.2.1, fun p ↦ ?_, h.once⟩
    rw [places_run hrun]
    simp [places, total, ThreadData.owned]
  · exact fun hrun ↦ herror _ hrun rfl

/-- An object that is read is unlinked and retired, and deleted when its reader has unlocked. -/
def retireSteps : List (Step 2 ℕ) :=
  [.link 7, .call 1 .lock, .next 1, .next 1, .next 1, .read 1 7, .unlink 0 7, .retirePtr 0 7,
    .call 0 .retireSync, .next 0, .next 0, .next 0, .next 0, .next 0, .next 0, .next 0, .next 0,
    .unlock 1, .next 0, .next 0, .next 0, .next 0, .next 0, .next 0, .next 0]

theorem run_protects_reader : ∃ st, retireSteps.foldlM step ({} : State 2 ℕ) = .ok st ∧
    st.deleted = [7] ∧ (st.threads 0).position = .outside ∧ st.Safe retireSteps := by
  have hrun : retireSteps.foldlM step ({} : State 2 ℕ) = .ok _ := rfl
  exact ⟨_, hrun, rfl, rfl, (run_protects retireSteps).1 _ hrun⟩

end State

end PxcCore.EpochBasedMemoryReclamation
