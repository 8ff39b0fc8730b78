import PxcCore.Lib.Families
import PxcCore.Lib.Traces

/-!
# HazardPointers

`HazardPointers.h`: a thread stores a pointer that it has read where the others see it, reads it
once more, and may use the object from then on; who retires an object looks for such a pointer
before it deletes the object.  Each access to a hazard pointer or to a pointer that is to be
protected is a step of its own.  The objects are their addresses, and an address may be allocated
again.
-/

namespace PxcCore.HazardPointers

open PxcCore.Lib

/-! ## Definitions -/

/-- `std::atomic<T *>`, with the `1` that a `Holder` stores. -/
inductive Hazard (P : Type) where
  | null
  | one
  | ptr (p : P)
  deriving DecidableEq, Repr

/-- Where a thread is: outside of the calls, before the load or the store of `do_protect`, or before
it looks at the next hazard pointer for the element of `to_delete_` at an index. -/
inductive Position (n m : ℕ) (R P : Type) where
  | outside
  | load (pos : Fin m) (toProtect : R) (saved : Option P)
  | store (pos : Fin m) (toProtect : R) (toSave : Option P)
  | scan (it : ℕ) (rest : List (Fin n × Fin m))
  deriving DecidableEq, Repr

/-- `ThreadData`, with the position of the thread and the pointers that it may use, one for each
hazard pointer at most. -/
structure ThreadData (n m : ℕ) (R P : Type) where
  hazard : Fin m → Hazard P := fun _ ↦ .null
  toDelete : List P := []
  position : Position n m R P := .outside
  held : Fin m → Option P := fun _ ↦ none

/-- `HazardPointers`, with the pointers that are to be protected and the objects that there are. -/
structure State (n m : ℕ) (R P : Type) where
  threads : Fin n → ThreadData n m R P := fun _ ↦ {}
  roots : R → Option P := fun _ ↦ none
  allocated : List P := []

/-- `hold` is the constructor of a `Holder`; `alloc`, `delete` and `write` are what the threads do
to the objects and the pointers; `next` is the next access of a call. -/
inductive Step (n m : ℕ) (R P : Type) where
  | alloc (p : P)
  | delete (p : P)
  | write (r : R) (p : Option P)
  | hold (t : Fin n) (pos : Fin m)
  | protect (t : Fin n) (pos : Fin m) (r : R)
  | clear (t : Fin n) (pos : Fin m)
  | retire (t : Fin n) (p : Option P)
  | next (t : Fin n)
  deriving DecidableEq, Repr

/-- Why a step is not made. -/
inductive Stop where
  | disabled
  | check (message : String)
  deriving DecidableEq, Repr

namespace ThreadData

variable {n m : ℕ} {R P : Type}

def setHazard (data : ThreadData n m R P) (pos : Fin m) (hazard : Hazard P) : ThreadData n m R P :=
  { data with hazard := Function.update data.hazard pos hazard }

def setHeld (data : ThreadData n m R P) (pos : Fin m) (held : Option P) : ThreadData n m R P :=
  { data with held := Function.update data.held pos held }

/-- The loop of `retire` at an element. -/
def scan (data : ThreadData n m R P) (it : ℕ) : ThreadData n m R P :=
  { data with
    position := if it < data.toDelete.length then
        .scan it (List.finRange n ×ˢ List.finRange m)
      else .outside }

end ThreadData

namespace State

variable {n m : ℕ} {R P : Type} [DecidableEq R] [DecidableEq P]

def setData (st : State n m R P) (t : Fin n) (data : ThreadData n m R P) : State n m R P :=
  { st with threads := Function.update st.threads t data }

/-- The next access of the thread. -/
def next (st : State n m R P) (t : Fin n) : Except Stop (State n m R P) :=
  let data := st.threads t
  match data.position with
  | .outside => .error .disabled
  | .load pos r saved =>
    if st.roots r = saved then
      .ok (st.setData t ({ data with position := .outside }.setHeld pos saved))
    else .ok (st.setData t { data with position := .store pos r (st.roots r) })
  | .store pos r toSave =>
    .ok (st.setData t ({ data with position := .load pos r toSave }.setHazard pos
      (toSave.elim .null .ptr)))
  | .scan it [] =>
    match data.toDelete[it]? with
    | none => .error .disabled
    | some p =>
      .ok ({ st with allocated := st.allocated.erase p }.setData t
        ({ data with toDelete := data.toDelete.eraseIdx it }.scan it))
  | .scan it ((t', pos) :: rest) =>
    if (st.threads t').hazard pos ∈ data.toDelete[it]?.map Hazard.ptr then
      .ok (st.setData t (data.scan (it + 1)))
    else .ok (st.setData t { data with position := .scan it rest })

def step (st : State n m R P) : Step n m R P → Except Stop (State n m R P)
  | .alloc p =>
    if p ∈ st.allocated then .error .disabled else .ok { st with allocated := p :: st.allocated }
  | .delete p =>
    if p ∈ st.allocated then .ok { st with allocated := st.allocated.erase p } else .error .disabled
  | .write r p => .ok { st with roots := Function.update st.roots r p }
  | .hold t pos =>
    let data := st.threads t
    if data.position ≠ .outside then .error .disabled
    else if data.hazard pos ≠ .null then .error (.check "CHECK(hazard_ptr_.load() == 0)")
    else .ok (st.setData t (data.setHazard pos .one))
  | .protect t pos r =>
    let data := st.threads t
    if data.position = .outside then
      .ok (st.setData t ({ data with position := .load pos r none }.setHeld pos none))
    else .error .disabled
  | .clear t pos =>
    let data := st.threads t
    if data.position = .outside then
      .ok (st.setData t ((data.setHazard pos .null).setHeld pos none))
    else .error .disabled
  | .retire t p =>
    let data := st.threads t
    if data.position = .outside then
      .ok (st.setData t ({ data with toDelete := data.toDelete ++ p.toList }.scan 0))
    else .error .disabled
  | .next t => st.next t

/-- Some thread is to delete the object. -/
def IsRetired (st : State n m R P) (p : P) : Prop := ∃ t, p ∈ (st.threads t).toDelete

instance (st : State n m R P) (p : P) : Decidable (st.IsRetired p) :=
  inferInstanceAs (Decidable (∃ _, _))

variable [Fintype R]

/-- What is asked of the threads: only objects that are not retired are written to the pointers, an
object is retired once, when no pointer leads to it, and a thread deletes only what nobody else has
seen. -/
def Meets (st : State n m R P) : Step n m R P → Prop
  | .write _ (some p) => p ∈ st.allocated ∧ ¬st.IsRetired p
  | .delete p => ¬st.IsRetired p ∧ (∀ r, st.roots r ≠ some p) ∧
    ∀ t pos, (st.threads t).held pos ≠ some p
  | .retire _ (some p) => p ∈ st.allocated ∧ ¬st.IsRetired p ∧ ∀ r, st.roots r ≠ some p
  | _ => True

instance (st : State n m R P) (x : Step n m R P) : Decidable (st.Meets x) := by
  unfold Meets
  split <;> infer_instance

/-- A step that is as it is asked for. -/
def meetStep (st : State n m R P) (x : Step n m R P) : Except Stop (State n m R P) :=
  if st.Meets x then st.step x else .error .disabled

end State

/-! ## What may be deleted -/

namespace ThreadData

variable {n m : ℕ} {R P : Type} {data : ThreadData n m R P}

/-- What holds of a thread: the hazard pointers say what it may use, or is about to check. -/
structure Fits (roots : R → Option P) (allocated : List P) (data : ThreadData n m R P) : Prop where
  held : ∀ pos p, data.held pos = some p → data.hazard pos = .ptr p ∧ p ∈ allocated
  retired : ∀ p ∈ data.toDelete, p ∈ allocated ∧ ∀ r, roots r ≠ some p
  loads : ∀ pos r saved, data.position = .load pos r saved →
    data.held pos = none ∧ ∀ p ∈ saved, data.hazard pos = .ptr p
  stores : ∀ pos r toSave, data.position = .store pos r toSave → data.held pos = none

/-- The hazard pointers still to be looked at are all those that may protect the element. -/
def Scanned (held : Fin n → Fin m → Option P) (data : ThreadData n m R P) : Prop :=
  ∀ it rest, data.position = .scan it rest → it < data.toDelete.length ∧
    ∀ p ∈ data.toDelete[it]?, ∀ t pos, held t pos = some p → (t, pos) ∈ rest

@[simp]
theorem toDelete_scan (it : ℕ) : (data.scan it).toDelete = data.toDelete := rfl

@[simp]
theorem held_scan (it : ℕ) : (data.scan it).held = data.held := rfl

theorem held_setHeld (pos : Fin m) (held : Option P) :
    (data.setHeld pos held).held = Function.update data.held pos held := rfl

theorem scanned_scan (held : Fin n → Fin m → Option P) (it : ℕ) :
    (data.scan it).Scanned held := by
  intro it' rest hposition
  rw [scan] at hposition
  dsimp only at hposition
  split_ifs at hposition with hlt
  obtain ⟨rfl, rfl⟩ := Position.scan.inj hposition
  refine ⟨hlt, fun p _ t pos _ ↦ ?_⟩
  exact List.mem_product.mpr ⟨List.mem_finRange t, List.mem_finRange pos⟩

theorem scanned_of_ne {held : Fin n → Fin m → Option P}
    (hposition : ∀ it rest, data.position ≠ .scan it rest) : data.Scanned held :=
  fun it rest heq ↦ absurd heq (hposition it rest)

variable {roots : R → Option P} {allocated : List P}

theorem Fits.scan (h : data.Fits roots allocated) (it : ℕ) :
    (data.scan it).Fits roots allocated where
  held := h.held
  retired := h.retired
  loads pos r saved hposition := by
    rw [ThreadData.scan] at hposition
    dsimp only at hposition
    split_ifs at hposition
  stores pos r toSave hposition := by
    rw [ThreadData.scan] at hposition
    dsimp only at hposition
    split_ifs at hposition

end ThreadData

namespace State

variable {n m : ℕ} {R P : Type} {st st' : State n m R P} {t : Fin n} {pos : Fin m} {r : R} {p : P}

@[simp]
theorem threads_setData_self (data : ThreadData n m R P) : (st.setData t data).threads t = data :=
  Function.update_self ..

theorem threads_setData_of_ne {t' : Fin n} (hne : t' ≠ t) (data : ThreadData n m R P) :
    (st.setData t data).threads t' = st.threads t' := Function.update_of_ne hne ..

theorem isRetired_setData_of_eq {data : ThreadData n m R P}
    (hdelete : data.toDelete = (st.threads t).toDelete) (p : P) :
    (st.setData t data).IsRetired p ↔ st.IsRetired p := by
  refine exists_congr fun t' ↦ ?_
  rcases eq_or_ne t' t with rfl | hne
  · rw [threads_setData_self, hdelete]
  · rw [threads_setData_of_ne hne]

/-- What is retired when a thread retires an object. -/
theorem isRetired_retire (st : State n m R P) (t : Fin n) (v : Option P) (p : P) :
    (st.setData t ({ st.threads t with
        toDelete := (st.threads t).toDelete ++ v.toList }.scan 0)).IsRetired p ↔
      st.IsRetired p ∨ v = some p := by
  constructor
  · rintro ⟨t', ht'⟩
    rcases eq_or_ne t' t with rfl | hne
    · rw [threads_setData_self, ThreadData.toDelete_scan, List.mem_append, Option.mem_toList] at ht'
      exact ht'.imp_left fun hp ↦ ⟨t', hp⟩
    · rw [threads_setData_of_ne hne] at ht'
      exact .inl ⟨t', ht'⟩
  · rintro (⟨t', ht'⟩ | rfl)
    · refine ⟨t', ?_⟩
      rcases eq_or_ne t' t with rfl | hne
      · rw [threads_setData_self]
        exact List.mem_append_left _ ht'
      · rwa [threads_setData_of_ne hne]
    · refine ⟨t, ?_⟩
      rw [threads_setData_self]
      exact List.mem_append_right _ (List.mem_singleton_self p)

variable [DecidableEq P]

/-- What the threads may use. -/
def held (st : State n m R P) (t : Fin n) (pos : Fin m) : Option P := (st.threads t).held pos

/-- How often the object is to be deleted. -/
def retiredCount (st : State n m R P) (p : P) : ℕ :=
  (total fun t ↦ (st.threads t).toDelete).count p

theorem retiredCount_setData (st : State n m R P) (t : Fin n) (data : ThreadData n m R P) (p : P) :
    (st.setData t data).retiredCount p + (st.threads t).toDelete.count p =
      st.retiredCount p + data.toDelete.count p := by
  have hcount := count_total_update (ThreadData.toDelete ∘ st.threads) t data.toDelete p
  rw [← Function.comp_update] at hcount
  exact hcount

theorem retiredCount_eq_zero : st.retiredCount p = 0 ↔ ¬st.IsRetired p := by
  rw [retiredCount, Multiset.count_eq_zero, total, Multiset.mem_sum, IsRetired]
  simp

/-- Every pointer that may be used is protected, and what is retired cannot be read any more. -/
structure Holds (st : State n m R P) : Prop where
  fits : ∀ t, (st.threads t).Fits st.roots st.allocated
  scanned : ∀ t, (st.threads t).Scanned st.held
  once : ∀ p, st.retiredCount p ≤ 1
  roots : ∀ r p, st.roots r = some p → p ∈ st.allocated
  nodup : st.allocated.Nodup

namespace Holds

/-- A thread goes on, and may use what it could before, or an object that nobody has retired. -/
theorem setData (h : st.Holds) {data : ThreadData n m R P}
    (hfits : data.Fits st.roots st.allocated)
    (hheld : ∀ pos, data.held pos = st.held t pos ∨ ∀ p ∈ data.held pos, ¬st.IsRetired p)
    (honce : ∀ p, (st.setData t data).retiredCount p ≤ 1)
    (hscanned : data.Scanned (st.setData t data).held) : (st.setData t data).Holds where
  fits t' := by
    rcases eq_or_ne t' t with rfl | hne
    · rw [threads_setData_self]
      exact hfits
    · rw [threads_setData_of_ne hne]
      exact h.fits t'
  scanned t' := by
    rcases eq_or_ne t' t with rfl | hne
    · rw [threads_setData_self]
      exact hscanned
    · rw [threads_setData_of_ne hne]
      intro it rest hposition
      obtain ⟨hlt, hrest⟩ := h.scanned t' it rest hposition
      refine ⟨hlt, fun p hp t'' pos hheld' ↦ hrest p hp t'' pos ?_⟩
      rcases eq_or_ne t'' t with rfl | hne'
      · rw [held, threads_setData_self] at hheld'
        rcases hheld pos with hsame | hnot
        · rw [← hsame, hheld']
        · exact absurd ⟨t', List.mem_of_getElem? hp⟩ (hnot p hheld')
      · rwa [held, threads_setData_of_ne hne'] at hheld'
  once := honce
  roots := h.roots
  nodup := h.nodup

/-- The objects to delete are as before. -/
theorem once_of_eq (h : st.Holds) {data : ThreadData n m R P}
    (hdelete : data.toDelete = (st.threads t).toDelete) (p : P) :
    (st.setData t data).retiredCount p ≤ 1 := by
  have hcount := retiredCount_setData st t data p
  have honce := h.once p
  rw [hdelete] at hcount
  omega

end Holds

/-! ## Steps -/

theorem holds_alloc (h : st.Holds) (hfresh : p ∉ st.allocated) :
    { st with allocated := p :: st.allocated }.Holds where
  fits t := by
    have hfits := h.fits t
    refine ⟨fun pos q hq ↦ ?_, fun q hq ↦ ?_, hfits.loads, hfits.stores⟩
    · exact ⟨(hfits.held pos q hq).1, List.mem_cons_of_mem p (hfits.held pos q hq).2⟩
    · exact ⟨List.mem_cons_of_mem p (hfits.retired q hq).1, (hfits.retired q hq).2⟩
  scanned := h.scanned
  once := h.once
  roots r q hq := List.mem_cons_of_mem p (h.roots r q hq)
  nodup := List.nodup_cons.mpr ⟨hfresh, h.nodup⟩

theorem holds_write [DecidableEq R] (h : st.Holds) {v : Option P}
    (hv : ∀ p ∈ v, p ∈ st.allocated ∧ ¬st.IsRetired p) :
    { st with roots := Function.update st.roots r v }.Holds where
  fits t := by
    have hfits := h.fits t
    refine ⟨hfits.held, fun q hq ↦ ⟨(hfits.retired q hq).1, fun r' heq ↦ ?_⟩, hfits.loads,
      hfits.stores⟩
    rcases eq_or_ne r' r with rfl | hne
    · simp only [Function.update_self] at heq
      exact (hv q heq).2 ⟨t, hq⟩
    · simp only [Function.update_of_ne hne] at heq
      exact (hfits.retired q hq).2 r' heq
  scanned := h.scanned
  once := h.once
  roots r' q hq := by
    rcases eq_or_ne r' r with rfl | hne
    · simp only [Function.update_self] at hq
      exact (hv q hq).1
    · simp only [Function.update_of_ne hne] at hq
      exact h.roots r' q hq
  nodup := h.nodup

/-- A thread changes a hazard pointer, and does not use what it has protected. -/
theorem holds_setHazard (h : st.Holds) (pos : Fin m) (position : Position n m R P)
    (hazard : Hazard P) (held' : Fin m → Option P) (hscan : ∀ it rest, position ≠ .scan it rest)
    (hstore : ∀ pos' r toSave, position ≠ .store pos' r toSave)
    (hload : ∀ pos' r saved, position = .load pos' r saved →
      pos' = pos ∧ ∀ p ∈ saved, hazard = .ptr p)
    (hheld : held' pos = none) (hothers : ∀ pos' ≠ pos, held' pos' = st.held t pos') :
    (st.setData t { st.threads t with
      position := position
      hazard := Function.update (st.threads t).hazard pos hazard
      held := held' }).Holds := by
  have hfits := h.fits t
  apply h.setData
  · refine ⟨fun pos' q hq ↦ ?_, hfits.retired, fun pos' r saved heq ↦ ?_, fun pos' r v heq ↦ ?_⟩
    · rcases eq_or_ne pos' pos with rfl | hne
      · simp [hheld] at hq
      · simp only [Function.update_of_ne hne]
        exact hfits.held pos' q ((hothers pos' hne).symm.trans hq)
    · obtain ⟨rfl, hsaved⟩ := hload pos' r saved heq
      refine ⟨hheld, fun p hp ↦ ?_⟩
      simp only [Function.update_self]
      exact hsaved p hp
    · exact absurd heq (hstore pos' r v)
  · intro pos'
    rcases eq_or_ne pos' pos with rfl | hne
    · exact .inr (by simp [hheld])
    · exact .inl (hothers pos' hne)
  · exact h.once_of_eq rfl
  · exact ThreadData.scanned_of_ne hscan

theorem holds_hold (h : st.Holds) (hposition : (st.threads t).position = .outside)
    (hnull : (st.threads t).hazard pos = .null) :
    (st.setData t ((st.threads t).setHazard pos .one)).Holds := by
  refine holds_setHazard h pos (st.threads t).position .one (st.threads t).held
    (by simp [hposition]) (by simp [hposition]) (by simp [hposition]) ?_ fun _ _ ↦ rfl
  rw [Option.eq_none_iff_forall_ne_some]
  intro p hp
  have hptr := ((h.fits t).held pos p hp).1
  rw [hnull] at hptr
  cases hptr

theorem holds_clear (h : st.Holds) (hposition : (st.threads t).position = .outside) :
    (st.setData t (((st.threads t).setHazard pos .null).setHeld pos none)).Holds :=
  holds_setHazard h pos (st.threads t).position .null (Function.update (st.threads t).held pos none)
    (by simp [hposition]) (by simp [hposition]) (by simp [hposition]) (Function.update_self ..)
    fun _ hne ↦ Function.update_of_ne hne ..

theorem holds_protect (h : st.Holds) :
    (st.setData t ({ st.threads t with position := .load pos r none }.setHeld pos none)).Holds := by
  have hset := holds_setHazard (t := t) h pos (.load pos r none) ((st.threads t).hazard pos)
    (Function.update (st.threads t).held pos none) nofun nofun (by simp +contextual)
    (Function.update_self ..) fun _ hne ↦ Function.update_of_ne hne ..
  rw [Function.update_eq_self] at hset
  exact hset

theorem holds_store {toSave : Option P} (h : st.Holds)
    (hposition : (st.threads t).position = .store pos r toSave) :
    (st.setData t ({ st.threads t with position := .load pos r toSave }.setHazard pos
      (toSave.elim .null .ptr))).Holds := by
  refine holds_setHazard h pos _ _ _ nofun nofun (fun pos' r' saved heq ↦ ?_)
    ((h.fits t).stores pos r toSave hposition) fun _ _ ↦ rfl
  obtain ⟨rfl, rfl, rfl⟩ := Position.load.inj heq
  refine ⟨rfl, fun p hp ↦ ?_⟩
  rw [hp]
  rfl

/-- The pointer has been loaded twice, with the store in between. -/
theorem holds_saved {saved : Option P} (h : st.Holds)
    (hposition : (st.threads t).position = .load pos r saved) (hsaved : st.roots r = saved) :
    (st.setData t ({ st.threads t with position := .outside }.setHeld pos saved)).Holds := by
  have hfits := h.fits t
  obtain ⟨hnone, hptr⟩ := hfits.loads pos r saved hposition
  apply h.setData
  · refine ⟨fun pos' q hq ↦ ?_, hfits.retired, nofun, nofun⟩
    rcases eq_or_ne pos' pos with rfl | hne
    · simp only [ThreadData.setHeld, Function.update_self] at hq
      exact ⟨hptr q hq, h.roots r q (hsaved.trans hq)⟩
    · simp only [ThreadData.setHeld, Function.update_of_ne hne] at hq
      exact hfits.held pos' q hq
  · intro pos'
    rcases eq_or_ne pos' pos with rfl | hne
    · refine .inr fun p hp ⟨t', ht'⟩ ↦ ?_
      simp only [ThreadData.setHeld, Function.update_self] at hp
      exact ((h.fits t').retired p ht').2 r (hsaved.trans hp)
    · exact .inl (Function.update_of_ne hne ..)
  · exact h.once_of_eq rfl
  · exact ThreadData.scanned_of_ne nofun

theorem holds_changed {saved : Option P} (h : st.Holds)
    (hposition : (st.threads t).position = .load pos r saved) (v : Option P) :
    (st.setData t { st.threads t with position := .store pos r v }).Holds := by
  have hfits := h.fits t
  apply h.setData
  · refine ⟨hfits.held, hfits.retired, nofun, fun pos' r' v' heq ↦ ?_⟩
    obtain ⟨rfl, -, -⟩ := Position.store.inj heq
    exact (hfits.loads _ r saved hposition).1
  · exact fun _ ↦ .inl rfl
  · exact h.once_of_eq rfl
  · exact ThreadData.scanned_of_ne nofun

theorem holds_retire (h : st.Holds) (hposition : (st.threads t).position = .outside) {v : Option P}
    (hv : ∀ p ∈ v, p ∈ st.allocated ∧ ¬st.IsRetired p ∧ ∀ r, st.roots r ≠ some p) :
    (st.setData t
      ({ st.threads t with toDelete := (st.threads t).toDelete ++ v.toList }.scan 0)).Holds := by
  have hfits := h.fits t
  have hnew : ThreadData.Fits st.roots st.allocated
      { st.threads t with toDelete := (st.threads t).toDelete ++ v.toList } := by
    refine ⟨hfits.held, fun p hp ↦ ?_, by simp [hposition], by simp [hposition]⟩
    rcases List.mem_append.mp hp with hp | hp
    · exact hfits.retired p hp
    · obtain ⟨hallocated, -, hroots⟩ := hv p (Option.mem_toList.mp hp)
      exact ⟨hallocated, hroots⟩
  apply h.setData
  · exact hnew.scan 0
  · exact fun _ ↦ .inl rfl
  · intro p
    have hcount := retiredCount_setData st t
      ({ st.threads t with toDelete := (st.threads t).toDelete ++ v.toList }.scan 0) p
    have honce := h.once p
    rw [ThreadData.toDelete_scan, List.count_append] at hcount
    cases v with
    | none =>
      simp only [Option.toList_none, List.count_nil] at hcount ⊢
      omega
    | some q =>
      have hzero := retiredCount_eq_zero.mpr (hv q rfl).2.1
      simp only [Option.toList_some, List.count_singleton, beq_iff_eq] at hcount ⊢
      split_ifs at hcount with heq
      · obtain rfl := heq
        omega
      · omega
  · exact ThreadData.scanned_scan _ 0

/-- A hazard pointer does not protect the element. -/
theorem holds_skip {it : ℕ} {t' : Fin n} {rest : List (Fin n × Fin m)} (h : st.Holds)
    (hposition : (st.threads t).position = .scan it ((t', pos) :: rest))
    (hother : (st.threads t').hazard pos ∉ (st.threads t).toDelete[it]?.map Hazard.ptr) :
    (st.setData t { st.threads t with position := .scan it rest }).Holds := by
  have hfits := h.fits t
  obtain ⟨hlt, hrest⟩ := h.scanned t it _ hposition
  apply h.setData
  · exact ⟨hfits.held, hfits.retired, nofun, nofun⟩
  · exact fun _ ↦ .inl rfl
  · exact h.once_of_eq rfl
  · rintro it' rest' heq
    obtain ⟨rfl, rfl⟩ := Position.scan.inj heq
    refine ⟨hlt, fun p hp t'' pos' hheld ↦ ?_⟩
    have hheld' : st.held t'' pos' = some p := by
      rcases eq_or_ne t'' t with rfl | hne
      · rwa [held, threads_setData_self] at hheld
      · rwa [held, threads_setData_of_ne hne] at hheld
    refine (List.mem_cons.mp (hrest p hp t'' pos' hheld')).resolve_left fun heq ↦ hother ?_
    obtain ⟨rfl, rfl⟩ := Prod.mk.inj heq
    rw [((h.fits t'').held pos' p hheld').1]
    exact Option.mem_map_of_mem _ hp

/-- A hazard pointer protects the element, or seems to. -/
theorem holds_scan (h : st.Holds) (it : ℕ) : (st.setData t ((st.threads t).scan it)).Holds := by
  apply h.setData
  · exact (h.fits t).scan it
  · exact fun _ ↦ .inl rfl
  · exact h.once_of_eq rfl
  · exact ThreadData.scanned_scan _ it

/-- An object that is nowhere is deleted. -/
theorem holds_free (h : st.Holds) (hheld : ∀ t pos, st.held t pos ≠ some p)
    (hretired : ¬st.IsRetired p) (hroots : ∀ r, st.roots r ≠ some p) :
    { st with allocated := st.allocated.erase p }.Holds where
  fits t := by
    have hfits := h.fits t
    refine ⟨fun pos q hq ↦ ?_, fun q hq ↦ ?_, hfits.loads, hfits.stores⟩
    · obtain ⟨hptr, hallocated⟩ := hfits.held pos q hq
      refine ⟨hptr, (List.mem_erase_of_ne ?_).mpr hallocated⟩
      rintro rfl
      exact hheld t pos hq
    · obtain ⟨hallocated, hread⟩ := hfits.retired q hq
      refine ⟨(List.mem_erase_of_ne ?_).mpr hallocated, hread⟩
      rintro rfl
      exact hretired ⟨t, hq⟩
  scanned := h.scanned
  once := h.once
  roots r q hq := by
    refine (List.mem_erase_of_ne ?_).mpr (h.roots r q hq)
    rintro rfl
    exact hroots r hq
  nodup := h.nodup.erase p

theorem retiredCount_delete {it : ℕ} (hp : (st.threads t).toDelete[it]? = some p) (p' : P) :
    (st.setData t ({ st.threads t with
        toDelete := (st.threads t).toDelete.eraseIdx it }.scan it)).retiredCount p' +
      (if p = p' then 1 else 0) = st.retiredCount p' := by
  have hcount : (st.setData t ({ st.threads t with
        toDelete := (st.threads t).toDelete.eraseIdx it }.scan it)).retiredCount p' +
      (st.threads t).toDelete.count p' =
        st.retiredCount p' + ((st.threads t).toDelete.eraseIdx it).count p' :=
    retiredCount_setData ..
  have herase := count_eraseIdx hp p'
  omega

/-- An object is deleted once. -/
theorem isRetired_delete {it : ℕ} (h : st.Holds) (hp : (st.threads t).toDelete[it]? = some p)
    (p' : P) : (st.setData t ({ st.threads t with
        toDelete := (st.threads t).toDelete.eraseIdx it }.scan it)).IsRetired p' ↔
      st.IsRetired p' ∧ p' ≠ p := by
  have hcount := retiredCount_delete hp p'
  have honce := h.once p'
  rw [← not_iff_not, not_and_or, not_not, ← retiredCount_eq_zero, ← retiredCount_eq_zero]
  split_ifs at hcount with heq
  · obtain rfl := heq
    exact iff_of_true (by omega) (.inr rfl)
  · rw [or_iff_left fun heq' ↦ heq heq'.symm]
    omega

/-- An object that no hazard pointer protects is not used. -/
theorem Holds.not_held {it : ℕ} (h : st.Holds) (hposition : (st.threads t).position = .scan it [])
    (hp : (st.threads t).toDelete[it]? = some p) (t' : Fin n) (pos : Fin m) :
    st.held t' pos ≠ some p :=
  fun hheld ↦ absurd ((h.scanned t it _ hposition).2 p hp t' pos hheld) List.not_mem_nil

/-- All hazard pointers have been looked at. -/
theorem holds_delete {it : ℕ} (h : st.Holds) (hposition : (st.threads t).position = .scan it [])
    (hp : (st.threads t).toDelete[it]? = some p) :
    ({ st with allocated := st.allocated.erase p }.setData t
      ({ st.threads t with toDelete := (st.threads t).toDelete.eraseIdx it }.scan it)).Holds := by
  have hfits := h.fits t
  have hnew : ThreadData.Fits st.roots st.allocated
      { st.threads t with toDelete := (st.threads t).toDelete.eraseIdx it } :=
    ⟨hfits.held, fun q hq ↦ hfits.retired q (List.mem_of_mem_eraseIdx hq), by simp [hposition],
      by simp [hposition]⟩
  have hdata := h.setData (hnew.scan it) (fun _ ↦ .inl rfl)
    (fun p' ↦ (Nat.le_of_add_right_le (retiredCount_delete hp p').le).trans (h.once p'))
    (ThreadData.scanned_scan _ it)
  refine holds_free hdata (fun t' pos hheld ↦ h.not_held hposition hp t' pos ?_) ?_
    (hfits.retired p (List.mem_of_getElem? hp)).2
  · rcases eq_or_ne t' t with rfl | hne
    · rwa [held, threads_setData_self] at hheld
    · rwa [held, threads_setData_of_ne hne] at hheld
  · rw [isRetired_delete h hp]
    exact fun hretired ↦ hretired.2 rfl

theorem holds_init : ({} : State n m R P).Holds where
  fits t := ⟨nofun, nofun, nofun, nofun⟩
  scanned t := nofun
  once p := by simp [retiredCount, total]
  roots r p h := by cases h
  nodup := .nil

theorem holds_next (h : st.Holds) (hnext : st.next t = .ok st') : st'.Holds := by
  unfold next at hnext
  dsimp only at hnext
  split at hnext
  case h_1 => cases hnext
  case h_2 pos r saved hposition =>
    split_ifs at hnext with hsaved
    · exact Except.ok.inj hnext ▸ holds_saved h hposition hsaved
    · exact Except.ok.inj hnext ▸ holds_changed h hposition _
  case h_3 pos r toSave hposition => exact Except.ok.inj hnext ▸ holds_store h hposition
  case h_4 it hposition =>
    split at hnext
    · cases hnext
    · next p hp => exact Except.ok.inj hnext ▸ holds_delete h hposition hp
  case h_5 it t' pos rest hposition =>
    split_ifs at hnext with hother
    · exact Except.ok.inj hnext ▸ holds_scan h (it + 1)
    · exact Except.ok.inj hnext ▸ holds_skip h hposition hother

/-- What the next access of a thread changes for the others: it has got a pointer, or has deleted an
object that nobody holds, or nothing. -/
theorem next_cases (h : st.Holds) (hnext : st.next t = .ok st') :
    st'.roots = st.roots ∧ (∀ t', t' ≠ t → st'.threads t' = st.threads t') ∧
      ((st'.allocated = st.allocated ∧ (∀ p, st'.IsRetired p ↔ st.IsRetired p) ∧
        ((st'.threads t).held = (st.threads t).held ∨ ∃ pos r,
          (st'.threads t).held = Function.update (st.threads t).held pos (st.roots r))) ∨
      ∃ p, st.IsRetired p ∧ (∀ t' pos, st.held t' pos ≠ some p) ∧
        st'.allocated = st.allocated.erase p ∧ (∀ p', st'.IsRetired p' ↔ st.IsRetired p' ∧ p' ≠ p) ∧
        (st'.threads t).held = (st.threads t).held) := by
  have hothers (data : ThreadData n m R P) (t') (hne : t' ≠ t) :
      (st.setData t data).threads t' = st.threads t' := threads_setData_of_ne hne data
  unfold next at hnext
  dsimp only at hnext
  split at hnext
  case h_1 => cases hnext
  case h_2 pos r saved hposition =>
    split_ifs at hnext with hsaved
    · obtain rfl := Except.ok.inj hnext
      refine ⟨rfl, hothers _, .inl ⟨rfl, isRetired_setData_of_eq rfl, .inr ⟨pos, r, ?_⟩⟩⟩
      rw [threads_setData_self, hsaved]
      rfl
    · obtain rfl := Except.ok.inj hnext
      refine ⟨rfl, hothers _, .inl ⟨rfl, isRetired_setData_of_eq rfl, .inl ?_⟩⟩
      rw [threads_setData_self]
  case h_3 pos r toSave hposition =>
    obtain rfl := Except.ok.inj hnext
    refine ⟨rfl, hothers _, .inl ⟨rfl, isRetired_setData_of_eq rfl, .inl ?_⟩⟩
    rw [threads_setData_self]
    rfl
  case h_4 it hposition =>
    split at hnext
    · cases hnext
    · next p hp =>
      obtain rfl := Except.ok.inj hnext
      have hretired (p') := isRetired_delete h hp p'
      refine ⟨rfl, hothers _, .inr ⟨p, ⟨t, List.mem_of_getElem? hp⟩, h.not_held hposition hp, rfl,
        hretired, ?_⟩⟩
      rw [threads_setData_self]
      rfl
  case h_5 it t' pos rest hposition =>
    split_ifs at hnext with hother
    · obtain rfl := Except.ok.inj hnext
      refine ⟨rfl, hothers _, .inl ⟨rfl, isRetired_setData_of_eq rfl, .inl ?_⟩⟩
      rw [threads_setData_self]
      rfl
    · obtain rfl := Except.ok.inj hnext
      refine ⟨rfl, hothers _, .inl ⟨rfl, isRetired_setData_of_eq rfl, .inl ?_⟩⟩
      rw [threads_setData_self]

/-- A pointer that a thread may use is to an object that is there, and an object that is retired is
there too, is to be deleted once, and cannot be reached any more. -/
structure Guarded (st : State n m R P) : Prop where
  held : ∀ t pos p, st.held t pos = some p → p ∈ st.allocated
  retired : ∀ p, st.IsRetired p → p ∈ st.allocated ∧ ∀ r, st.roots r ≠ some p
  once : ∀ p, st.retiredCount p ≤ 1 ∧ st.allocated.count p ≤ 1

theorem Holds.guarded (h : st.Holds) : st.Guarded where
  held t pos p hp := ((h.fits t).held pos p hp).2
  retired p := fun ⟨t, ht⟩ ↦ (h.fits t).retired p ht
  once p := ⟨h.once p, List.nodup_iff_count_le_one.mp h.nodup p⟩

variable [DecidableEq R]

theorem holds_step {x : Step n m R P} (h : st.Holds) (hmeets : st.Meets x)
    (hstep : st.step x = .ok st') : st'.Holds := by
  cases x <;> rw [step] at hstep
  case alloc p =>
    split_ifs at hstep with hfresh
    exact Except.ok.inj hstep ▸ holds_alloc h hfresh
  case delete p =>
    split_ifs at hstep
    exact Except.ok.inj hstep ▸ holds_free h hmeets.2.2 hmeets.1 hmeets.2.1
  case write r v =>
    refine Except.ok.inj hstep ▸ holds_write h ?_
    rintro p rfl
    exact hmeets
  case hold t pos =>
    split_ifs at hstep with hposition hnull
    exact Except.ok.inj hstep ▸ holds_hold h (not_not.mp hposition) (not_not.mp hnull)
  case protect t pos r =>
    split_ifs at hstep
    exact Except.ok.inj hstep ▸ holds_protect h
  case clear t pos =>
    split_ifs at hstep with hposition
    exact Except.ok.inj hstep ▸ holds_clear h hposition
  case retire t v =>
    split_ifs at hstep with hposition
    refine Except.ok.inj hstep ▸ holds_retire h hposition ?_
    rintro p rfl
    exact hmeets
  case next t => exact holds_next h hstep

variable [Fintype R]

theorem holds_meetStep {x : Step n m R P} (h : st.Holds) (hstep : st.meetStep x = .ok st') :
    st'.Holds := by
  unfold meetStep at hstep
  split_ifs at hstep with hmeets
  exact holds_step h hmeets hstep

/-- However the threads take turns, an object is not deleted while a thread may use it. -/
theorem run_guards {xs : List (Step n m R P)} (hrun : xs.foldlM meetStep {} = .ok st) :
    st.Guarded := by
  have hruns : (∀ st, xs.foldlM meetStep ({} : State n m R P) = .ok st → st.Holds) ∧
      ∀ e, xs.foldlM meetStep ({} : State n m R P) = .error e → True :=
    foldlM_except holds_meetStep (fun _ _ ↦ trivial) holds_init
  exact (hruns.1 st hrun).guarded

/-- An object that is used is retired, scanned for in vain, and deleted when it is not used any
more. -/
def guardSteps (t t' : Fin n) (pos : Fin m) : List (Step n m Unit ℕ) :=
  [.alloc 7, .write () (some 7), .hold t' pos, .protect t' pos (), .next t', .next t', .next t',
    .write () none, .retire t (some 7), .next t, .next t, .clear t' pos, .retire t none, .next t,
    .next t, .next t]

theorem run_guards_scan :
    ∃ st : State 2 1 Unit ℕ, (guardSteps 0 1 0).foldlM meetStep {} = .ok st ∧
      st.allocated = [] ∧ st.Guarded := by
  have hrun : (guardSteps 0 1 0 : List (Step 2 1 Unit ℕ)).foldlM meetStep {} = .ok _ := rfl
  exact ⟨_, hrun, rfl, run_guards hrun⟩

end State

end PxcCore.HazardPointers
