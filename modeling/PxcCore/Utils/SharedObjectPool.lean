import PxcCore.Lib.Families
import PxcCore.Utils.MpscLinkQueue

/-!
# SharedObjectPool

`SharedObjectPool.h`: objects with reference counts that many threads share.  The thread that lets
go of an object last destroys it and pushes its place on the free queue, from which the owner of the
pool takes it.  Each access to a reference count is a step of its own, and the free queue is what
`MpscLinkQueue` is for.
-/

namespace PxcCore.SharedObjectPool

open Lib MpscLinkQueue

/-! ## Definitions -/

/-- `SharedPtrRaw` -/
structure Raw (D : Type) where
  refCnt : ℕ := 0
  data : Option D := none

/-- A `SharedPtr`, with its `raw_`, and how far its thread is in `reset(new_raw)`: before `dec`, or,
if that was the last reference, before `destroy_data`, or before the deleter. -/
inductive Ptr where
  | rests (raw : Option ℕ)
  | dec (raw newRaw : Option ℕ)
  | destroy (raw : ℕ) (newRaw : Option ℕ)
  | delete (raw : ℕ) (newRaw : Option ℕ)
deriving DecidableEq

/-- The members of the pool, with the pointers that there are. -/
structure Pool (H D : Type) where
  allocated : List (Raw D) := []
  freeQueue : Fifo ℕ := {}
  ptrs : H → Ptr := fun _ ↦ .rests none

/-- What a thread does next.  The owner of the pool calls `alloc`. -/
inductive Step (H D : Type) where
  | alloc (h : H) (data : D)
  | copyAssign (h other : H)
  | moveAssign (h other : H)
  | reset (h : H)
  | next (h : H)

variable {H D : Type}

namespace Ptr

/-- The references that count: that of the pointer, and that of its new value. -/
def refs : Ptr → List ℕ
  | .rests raw => raw.toList
  | .dec raw newRaw => raw.toList ++ newRaw.toList
  | .destroy _ newRaw => newRaw.toList
  | .delete _ newRaw => newRaw.toList

/-- The object that the thread is about to destroy. -/
def destroying : Ptr → List ℕ
  | .destroy raw _ => [raw]
  | _ => []

/-- The place that the thread is about to give back. -/
def deleting : Ptr → List ℕ
  | .delete raw _ => [raw]
  | _ => []

end Ptr

namespace Pool

section Steps

variable [DecidableEq H]

/-- The pointer has a new value. -/
def setPtr (p : Pool H D) (h : H) (ptr : Ptr) : Pool H D :=
  { p with ptrs := Function.update p.ptrs h ptr }

def modifyRaw (p : Pool H D) (raw : ℕ) (f : Raw D → Raw D) : Pool H D :=
  { p with allocated := p.allocated.modify raw f }

/-- `inc` -/
def inc (p : Pool H D) (raw : ℕ) : Pool H D :=
  p.modifyRaw raw fun raw ↦ { raw with refCnt := raw.refCnt + 1 }

/-- `alloc_raw` -/
def allocRaw (p : Pool H D) : Option (ℕ × Pool H D) :=
  (p.freeQueue.step .popAll).bind fun q ↦ (q.step (.read q.popped.head?)).map fun q' ↦
    match q.popped.head? with
    | some raw => (raw, { p with freeQueue := q' })
    | none =>
      (p.allocated.length, { p with freeQueue := q', allocated := p.allocated ++ [{}] })

/-- `alloc` -/
def alloc (p : Pool H D) (h : H) (data : D) : Option (Pool H D) :=
  p.allocRaw.map fun (raw, p) ↦
    ((p.modifyRaw raw fun raw ↦ { raw with data := some data }).inc raw).setPtr h (.rests raw)

/-- The thread goes on in `reset(new_raw)`. -/
def next (p : Pool H D) (h : H) : Option (Pool H D) :=
  match p.ptrs h with
  | .rests _ => none
  | .dec none newRaw => some (p.setPtr h (.rests newRaw))
  | .dec (some raw) newRaw =>
    (p.allocated[raw]?).map fun before ↦
      (p.modifyRaw raw fun raw ↦ { raw with refCnt := raw.refCnt - 1 }).setPtr h
        (if before.refCnt = 1 then .destroy raw newRaw else .rests newRaw)
  | .destroy raw newRaw =>
    some ((p.modifyRaw raw fun raw ↦ { raw with data := none }).setPtr h (.delete raw newRaw))
  | .delete raw newRaw =>
    (p.freeQueue.step (.push raw)).map fun q ↦
      { p with freeQueue := q }.setPtr h (.rests newRaw)

/-- One step, or `none` if it cannot be made.  A pointer that is in `reset` is not used by others,
and a new pointer has no value yet. -/
def step (p : Pool H D) : Step H D → Option (Pool H D)
  | .alloc h data => if p.ptrs h = .rests none then p.alloc h data else none
  | .copyAssign h other =>
    match p.ptrs h, p.ptrs other with
    | .rests raw, .rests newRaw =>
      if h = other then some p
      else some ((newRaw.elim p p.inc).setPtr h (.dec raw newRaw))
    | _, _ => none
  | .moveAssign h other =>
    match p.ptrs h, p.ptrs other with
    | .rests raw, .rests newRaw =>
      if h = other then some (p.setPtr h (.dec raw none))
      else some ((p.setPtr other (.rests none)).setPtr h (.dec raw newRaw))
    | _, _ => none
  | .reset h =>
    match p.ptrs h with
    | .rests raw => some (p.setPtr h (.dec raw none))
    | _ => none
  | .next h => p.next h

end Steps

/-- The check of `~SharedObjectPool`, of the number of the nodes in the free queue. -/
def destroyCheck (p : Pool H D) : Bool := p.freeQueue.content.length = p.allocated.length

/-! ## References are counted -/

/-- The object at this place, or one that has never been there. -/
def raw (p : Pool H D) (r : ℕ) : Raw D := p.allocated.getD r {}

section Raw

variable {p : Pool H D} {h : H} {r i : ℕ} {f : Raw D → Raw D} {ptr : Ptr}

theorem raw_modifyRaw : (p.modifyRaw i f).raw r =
    if r = i ∧ i < p.allocated.length then f (p.raw r) else p.raw r := by
  unfold raw modifyRaw
  simp only [List.getD_eq_getElem?_getD, List.getElem?_modify]
  by_cases hi : i = r
  · subst hi
    by_cases hlt : i < p.allocated.length <;> simp [hlt]
  · simp [hi, Ne.symm hi]

theorem data_modifyRaw (hf : r = i → (f (p.raw r)).data = (p.raw r).data) :
    ((p.modifyRaw i f).raw r).data = (p.raw r).data := by
  rw [raw_modifyRaw]
  split_ifs with hri
  · exact hf hri.1
  · rfl

theorem lt_of_refCnt (hcnt : (p.raw r).refCnt ≠ 0) : r < p.allocated.length := by
  by_contra hle
  rw [raw, List.getD_eq_default _ _ (Nat.le_of_not_lt hle)] at hcnt
  exact hcnt rfl

@[simp]
theorem length_modifyRaw : (p.modifyRaw i f).allocated.length = p.allocated.length :=
  List.length_modify ..

@[simp]
theorem freeQueue_modifyRaw : (p.modifyRaw i f).freeQueue = p.freeQueue := rfl

@[simp]
theorem ptrs_modifyRaw : (p.modifyRaw i f).ptrs = p.ptrs := rfl

variable [DecidableEq H]

@[simp]
theorem raw_setPtr : (p.setPtr h ptr).raw r = p.raw r := rfl

@[simp]
theorem allocated_setPtr : (p.setPtr h ptr).allocated = p.allocated := rfl

@[simp]
theorem freeQueue_setPtr : (p.setPtr h ptr).freeQueue = p.freeQueue := rfl

end Raw

variable [Fintype H]

/-- How often one reads an object off the pointers. -/
def count (p : Pool H D) (f : Ptr → List ℕ) (r : ℕ) : ℕ := (total (f ∘ p.ptrs)).count r

/-- Each object has as many references as it counts, and its place is free, or about to be, once, if
there are none.  It is there until it is destroyed. -/
structure Holds (p : Pool H D) : Prop where
  refs : ∀ r, (p.raw r).refCnt = p.count Ptr.refs r
  free : ∀ r, p.count Ptr.destroying r + p.count Ptr.deleting r + p.freeQueue.content.count r =
    if r < p.allocated.length ∧ (p.raw r).refCnt = 0 then 1 else 0
  live : ∀ r, (p.raw r).data.isSome ↔ (p.raw r).refCnt ≠ 0 ∨ p.count Ptr.destroying r ≠ 0

variable {p p' : Pool H D} {h other : H} {r i : ℕ} {raw newRaw : Option ℕ} {ptr : Ptr} {data : D}

theorem holds_init : ({} : Pool H D).Holds := by
  have hcount (f : Ptr → List ℕ) (hf : f (.rests none) = []) (r : ℕ) :
      ({} : Pool H D).count f r = 0 := by
    simp [count, total, hf]
  refine ⟨fun r ↦ (hcount _ rfl r).symm, fun r ↦ ?_, fun r ↦ ?_⟩
  · rw [hcount _ rfl, hcount _ rfl]
    rfl
  · rw [hcount _ rfl]
    exact ⟨nofun, fun hne ↦ (hne.elim (absurd rfl) (absurd rfl))⟩

variable [DecidableEq H]

theorem count_setPtr (p : Pool H D) (h : H) (ptr : Ptr) (f : Ptr → List ℕ) (r : ℕ) :
    (p.setPtr h ptr).count f r + (f (p.ptrs h)).count r = p.count f r + (f ptr).count r := by
  have hcount := count_total_update (f ∘ p.ptrs) h (f ptr) r
  rwa [← Function.comp_update] at hcount

/-- What one pointer refers to is counted. -/
theorem count_pos {f : Ptr → List ℕ} (hr : r ∈ f (p.ptrs h)) : 0 < p.count f r :=
  (List.count_pos_iff.mpr hr).trans_le (count_le_count_total (f ∘ p.ptrs) h r)

omit [DecidableEq H] in
@[simp]
theorem count_modifyRaw {f : Raw D → Raw D} (g : Ptr → List ℕ) :
    (p.modifyRaw i f).count g r = p.count g r := rfl

/-- What changes in the counts when a pointer does. -/
theorem counts_setPtr {old : Ptr} (hptr : p.ptrs h = old) (ptr : Ptr) (r : ℕ) :
    (p.setPtr h ptr).count Ptr.refs r + old.refs.count r = p.count Ptr.refs r + ptr.refs.count r ∧
    (p.setPtr h ptr).count Ptr.destroying r + old.destroying.count r =
      p.count Ptr.destroying r + ptr.destroying.count r ∧
    (p.setPtr h ptr).count Ptr.deleting r + old.deleting.count r =
      p.count Ptr.deleting r + ptr.deleting.count r := by
  subst hptr
  exact ⟨count_setPtr .., count_setPtr .., count_setPtr ..⟩

/-- The pointer goes on with the same references. -/
theorem holds_setPtr {old : Ptr} (hp : p.Holds) (hptr : p.ptrs h = old)
    (hrefs : ptr.refs = old.refs) (hdestroying : ptr.destroying = old.destroying)
    (hdeleting : ptr.deleting = old.deleting) : (p.setPtr h ptr).Holds := by
  have hcounts := counts_setPtr hptr ptr
  simp only [hrefs, hdestroying, hdeleting, Nat.add_right_cancel_iff] at hcounts
  refine ⟨fun r ↦ ?_, fun r ↦ ?_, fun r ↦ ?_⟩
  · exact (hp.refs r).trans (hcounts r).1.symm
  · rw [(hcounts r).2.1, (hcounts r).2.2]
    exact hp.free r
  · rw [(hcounts r).2.1]
    exact hp.live r

/-- A pointer has its reference counted. -/
theorem Holds.refCnt_ne_zero (hp : p.Holds) (hmem : r ∈ (p.ptrs h).refs) :
    (p.raw r).refCnt ≠ 0 := by
  rw [hp.refs]
  exact (count_pos hmem).ne'

theorem holds_inc (hp : p.Holds) (hptr : p.ptrs h = .rests raw) (hi : (p.raw i).refCnt ≠ 0) :
    ((p.inc i).setPtr h (.dec raw (some i))).Holds := by
  have hlt := lt_of_refCnt hi
  have hcounts := counts_setPtr (p := p.inc i) hptr (.dec raw (some i))
  simp only [Ptr.refs, Ptr.destroying, Ptr.deleting, List.count_append, List.count_nil, inc,
    Option.toList_some, List.count_singleton, count_modifyRaw] at hcounts
  refine ⟨fun r ↦ ?_, fun r ↦ ?_, fun r ↦ ?_⟩ <;>
    simp only [inc, raw_setPtr, raw_modifyRaw, freeQueue_setPtr, freeQueue_modifyRaw, hlt, and_true,
      allocated_setPtr, length_modifyRaw]
  · grind [hp.refs r]
  · grind [hp.free r]
  · grind [hp.live r]

/-- One of several references goes. -/
theorem holds_dec (hp : p.Holds) (hptr : p.ptrs h = .dec (some i) newRaw)
    (hmany : (p.raw i).refCnt ≠ 1) :
    ((p.modifyRaw i fun raw ↦ { raw with refCnt := raw.refCnt - 1 }).setPtr h
      (.rests newRaw)).Holds := by
  have hi : (p.raw i).refCnt ≠ 0 := hp.refCnt_ne_zero (h := h) (by simp [hptr, Ptr.refs])
  have hlt := lt_of_refCnt hi
  have hcounts := counts_setPtr
    (p := p.modifyRaw i fun raw ↦ { raw with refCnt := raw.refCnt - 1 }) hptr (.rests newRaw)
  simp only [Ptr.refs, Ptr.destroying, Ptr.deleting, List.count_append, List.count_nil,
    Option.toList_some, List.count_singleton, count_modifyRaw] at hcounts
  refine ⟨fun r ↦ ?_, fun r ↦ ?_, fun r ↦ ?_⟩ <;>
    simp only [raw_setPtr, raw_modifyRaw, freeQueue_setPtr, freeQueue_modifyRaw, hlt, and_true,
      allocated_setPtr, length_modifyRaw]
  · grind [hp.refs r]
  · grind [hp.free r]
  · grind [hp.live r]

/-- The last reference goes. -/
theorem holds_dec_last (hp : p.Holds) (hptr : p.ptrs h = .dec (some i) newRaw)
    (hlast : (p.raw i).refCnt = 1) :
    ((p.modifyRaw i fun raw ↦ { raw with refCnt := raw.refCnt - 1 }).setPtr h
      (.destroy i newRaw)).Holds := by
  have hlt := lt_of_refCnt (p := p) (r := i) (hlast ▸ one_ne_zero)
  have hcounts := counts_setPtr
    (p := p.modifyRaw i fun raw ↦ { raw with refCnt := raw.refCnt - 1 }) hptr (.destroy i newRaw)
  simp only [Ptr.refs, Ptr.destroying, Ptr.deleting, List.count_append, List.count_nil,
    Option.toList_some, List.count_singleton, count_modifyRaw] at hcounts
  refine ⟨fun r ↦ ?_, fun r ↦ ?_, fun r ↦ ?_⟩ <;>
    simp only [raw_setPtr, raw_modifyRaw, freeQueue_setPtr, freeQueue_modifyRaw, hlt, and_true,
      allocated_setPtr, length_modifyRaw]
  · grind [hp.refs r]
  · grind [hp.free r]
  · grind [hp.live r]

theorem holds_destroy (hp : p.Holds) (hptr : p.ptrs h = .destroy i newRaw) :
    ((p.modifyRaw i fun raw ↦ { raw with data := none }).setPtr h (.delete i newRaw)).Holds := by
  have hcounts := counts_setPtr
    (p := p.modifyRaw i fun raw ↦ { raw with data := none }) hptr (.delete i newRaw)
  simp only [Ptr.refs, Ptr.destroying, Ptr.deleting, List.count_nil, List.count_singleton,
    count_modifyRaw] at hcounts
  refine ⟨fun r ↦ ?_, fun r ↦ ?_, fun r ↦ ?_⟩ <;>
    simp only [raw_setPtr, raw_modifyRaw, freeQueue_setPtr, freeQueue_modifyRaw,
      allocated_setPtr, length_modifyRaw]
  · grind [hp.refs r]
  · grind [hp.free r]
  · grind [hp.live r, hp.free r]

theorem holds_delete (hp : p.Holds) (hptr : p.ptrs h = .delete i newRaw) :
    ({ p with freeQueue := { p.freeQueue with pushed := p.freeQueue.pushed ++ [i] } }.setPtr h
      (.rests newRaw)).Holds := by
  have hcounts := counts_setPtr hptr (.rests newRaw)
  simp only [Ptr.refs, Ptr.destroying, Ptr.deleting, List.count_nil,
    List.count_singleton] at hcounts
  refine ⟨fun r ↦ ?_, fun r ↦ ?_, fun r ↦ ?_⟩
  · exact (hp.refs r).trans (Nat.add_right_cancel (hcounts r).1).symm
  · change (p.setPtr h _).count Ptr.destroying r + (p.setPtr h _).count Ptr.deleting r +
      (p.freeQueue.popped ++ (p.freeQueue.pushed ++ [i])).count r =
        if r < p.allocated.length ∧ (p.raw r).refCnt = 0 then 1 else 0
    have hr := hp.free r
    simp only [Fifo.content, List.count_append, List.count_singleton] at hr ⊢
    grind
  · change (p.raw r).data.isSome ↔ (p.raw r).refCnt ≠ 0 ∨ (p.setPtr h _).count _ r ≠ 0
    rw [show (p.setPtr h _).count _ r = _ from Nat.add_right_cancel (hcounts r).2.1]
    exact hp.live r

theorem holds_copyAssign (hp : p.Holds) (hptr : p.ptrs h = .rests raw)
    (hother : p.ptrs other = .rests newRaw) :
    ((newRaw.elim p p.inc).setPtr h (.dec raw newRaw)).Holds := by
  cases newRaw with
  | none => exact holds_setPtr hp hptr (List.append_nil _) rfl rfl
  | some i => exact holds_inc hp hptr (hp.refCnt_ne_zero (h := other) (by simp [hother, Ptr.refs]))

theorem holds_moveAssign (hp : p.Holds) (hne : h ≠ other) (hptr : p.ptrs h = .rests raw)
    (hother : p.ptrs other = .rests newRaw) :
    ((p.setPtr other (.rests none)).setPtr h (.dec raw newRaw)).Holds := by
  have hptr' : (p.setPtr other (.rests none)).ptrs h = .rests raw :=
    (Function.update_of_ne hne _ _).trans hptr
  have hcounts := counts_setPtr hother (.rests none)
  have hcounts' := counts_setPtr hptr' (.dec raw newRaw)
  simp only [Ptr.refs, Ptr.destroying, Ptr.deleting, List.count_append, List.count_nil,
    Option.toList_none] at hcounts hcounts'
  refine ⟨fun r ↦ ?_, fun r ↦ ?_, fun r ↦ ?_⟩ <;>
    simp only [raw_setPtr, freeQueue_setPtr, allocated_setPtr]
  · grind [hp.refs r]
  · grind [hp.free r]
  · grind [hp.live r]

omit [DecidableEq H] in
/-- The place that `alloc_raw` returns has been free, or is new. -/
theorem allocRaw_spec (hp : p.Holds) : ∃ i p', p.allocRaw = some (i, p') ∧ p'.ptrs = p.ptrs ∧
    p'.raw = p.raw ∧ i < p'.allocated.length ∧ (p.raw i).refCnt = 0 ∧
    ∀ r, p.count Ptr.destroying r + p.count Ptr.deleting r + p'.freeQueue.content.count r +
      (if r = i then 1 else 0) =
        if r < p'.allocated.length ∧ (p.raw r).refCnt = 0 then 1 else 0 := by
  have hcontent : p.freeQueue.content = p.freeQueue.popped ++ p.freeQueue.pushed := rfl
  cases hhead : p.freeQueue.popped ++ p.freeQueue.pushed with
  | cons i rest =>
    rw [hhead] at hcontent
    refine ⟨i, { p with freeQueue := { pushed := [], popped := rest } }, ?_, rfl, rfl, ?_⟩
    · simp [allocRaw, Fifo.step, hhead]
    · have hi := hp.free i
      rw [hcontent, List.count_cons_self] at hi
      have hrest (r : ℕ) : (⟨[], rest⟩ : Fifo ℕ).content.count r = rest.count r := by
        rw [Fifo.content, List.append_nil]
      refine ⟨by grind, by grind, fun r ↦ ?_⟩
      have hr := hp.free r
      rw [hcontent, List.count_cons] at hr
      rw [hrest]
      grind
  | nil =>
    rw [hhead] at hcontent
    have hraw : { p with allocated := p.allocated ++ [({} : Raw D)] }.raw = p.raw := by
      funext r
      simp only [raw, List.getD_eq_getElem?_getD, List.getElem?_append]
      split
      · rfl
      · cases r - p.allocated.length <;> simp_all
    refine ⟨p.allocated.length, { p with
      freeQueue := { pushed := [], popped := [] }
      allocated := p.allocated ++ [({} : Raw D)] }, ?_, rfl, hraw, ?_⟩
    · simp [allocRaw, Fifo.step, hhead]
    · have hnew : (p.raw p.allocated.length).refCnt = 0 := by
        by_contra hcnt
        exact (lt_of_refCnt hcnt).false
      refine ⟨by simp, hnew, fun r ↦ ?_⟩
      have hr := hp.free r
      rw [hcontent] at hr
      simp only [Fifo.content, List.append_nil, List.count_nil, List.length_append,
        List.length_singleton] at hr ⊢
      grind

theorem holds_alloc (hp : p.Holds) (hptr : p.ptrs h = .rests none) (data : D) :
    ∃ p', p.alloc h data = some p' ∧ p'.Holds := by
  obtain ⟨i, q, hq, hptrs, hraw, hi, hcnt, hfree⟩ := allocRaw_spec hp
  refine ⟨_, congrArg (Option.map _) hq, ?_⟩
  have hcount (f : Ptr → List ℕ) (r : ℕ) : q.count f r = p.count f r := by
    rw [count, count, hptrs]
  have hcounts := counts_setPtr
    (p := (q.modifyRaw i fun raw ↦ { raw with data := some data }).inc i)
    ((congrFun hptrs h).trans hptr) (.rests (some i))
  simp only [Ptr.refs, Ptr.destroying, Ptr.deleting, List.count_nil, Option.toList_some,
    Option.toList_none, List.count_singleton, inc, count_modifyRaw, hcount] at hcounts
  refine ⟨fun r ↦ ?_, fun r ↦ ?_, fun r ↦ ?_⟩ <;>
    simp only [inc, raw_setPtr, raw_modifyRaw, freeQueue_setPtr, freeQueue_modifyRaw, hi, and_true,
      allocated_setPtr, length_modifyRaw, hraw]
  · grind [hp.refs r]
  · grind [hfree r]
  · grind [hp.live r, hfree r]

theorem holds_next (hp : p.Holds) (hnext : p.next h = some p') : p'.Holds := by
  unfold next at hnext
  split at hnext
  · cases hnext
  · next newRaw hptr =>
    obtain rfl := Option.some.inj hnext
    exact holds_setPtr hp hptr rfl rfl rfl
  · next i newRaw hptr =>
    obtain ⟨before, hbefore, rfl⟩ := Option.map_eq_some_iff.mp hnext
    have hi : before = p.raw i := by
      rw [raw, List.getD_eq_getElem?_getD, hbefore]
      rfl
    rw [hi]
    split_ifs with hlast
    · exact holds_dec_last hp hptr hlast
    · exact holds_dec hp hptr hlast
  · next i newRaw hptr =>
    obtain rfl := Option.some.inj hnext
    exact holds_destroy hp hptr
  · next i newRaw hptr =>
    obtain ⟨q, hq, rfl⟩ := Option.map_eq_some_iff.mp hnext
    obtain rfl := Option.some.inj hq
    exact holds_delete hp hptr

theorem holds_step {x : Step H D} (hp : p.Holds) (hstep : p.step x = some p') : p'.Holds := by
  cases x with
  | alloc h data =>
    obtain ⟨hptr, hstep⟩ := Option.ite_none_right_eq_some.mp hstep
    obtain ⟨p₁, hp₁, hholds⟩ := holds_alloc hp hptr data
    obtain rfl := Option.some.inj (hstep.symm.trans hp₁)
    exact hholds
  | copyAssign h other =>
    simp only [step] at hstep
    split at hstep
    case h_2 => cases hstep
    next raw newRaw hptr hother =>
    split_ifs at hstep
    · exact Option.some.inj hstep ▸ hp
    · exact Option.some.inj hstep ▸ holds_copyAssign hp hptr hother
  | moveAssign h other =>
    simp only [step] at hstep
    split at hstep
    case h_2 => cases hstep
    next raw newRaw hptr hother =>
    split_ifs at hstep with heq
    · exact Option.some.inj hstep ▸ holds_setPtr hp hptr (List.append_nil _) rfl rfl
    · exact Option.some.inj hstep ▸ holds_moveAssign hp heq hptr hother
  | reset h =>
    simp only [step] at hstep
    split at hstep
    case h_2 => cases hstep
    next raw hptr =>
    exact Option.some.inj hstep ▸ holds_setPtr hp hptr (List.append_nil _) rfl rfl
  | next h => exact holds_next hp hstep

/-! ## What a pool does -/

/-- An object that is about to be destroyed has no reference any more. -/
theorem Holds.refCnt_of_destroy (hp : p.Holds) (hptr : p.ptrs h = .destroy i newRaw) :
    (p.raw i).refCnt = 0 := by
  have hpos : 0 < p.count Ptr.destroying i := count_pos (h := h) (by simp [hptr, Ptr.destroying])
  have hfree := hp.free i
  by_contra hcnt
  rw [if_neg fun hfree ↦ hcnt hfree.2] at hfree
  omega

/-- A step does not touch an object that has a reference. -/
theorem data_step {x : Step H D} (hp : p.Holds) (hstep : p.step x = some p')
    (hr : (p.raw r).refCnt ≠ 0) : (p'.raw r).data = (p.raw r).data := by
  cases x with
  | alloc h data =>
    obtain ⟨-, hstep⟩ := Option.ite_none_right_eq_some.mp hstep
    obtain ⟨i, q, hq, -, hraw, -, hcnt, -⟩ := allocRaw_spec hp
    rw [alloc, hq] at hstep
    obtain rfl := Option.some.inj hstep
    have hne : r ≠ i := by
      rintro rfl
      exact hr hcnt
    simp [inc, raw_modifyRaw, hne, hraw]
  | copyAssign h other =>
    simp only [step] at hstep
    split at hstep
    case h_2 => cases hstep
    next raw newRaw hptr hother =>
    split_ifs at hstep
    · exact Option.some.inj hstep ▸ rfl
    · obtain rfl := Option.some.inj hstep
      cases newRaw with
      | none => rfl
      | some i => exact data_modifyRaw fun _ ↦ rfl
  | moveAssign h other =>
    simp only [step] at hstep
    split at hstep
    case h_2 => cases hstep
    split_ifs at hstep <;> exact Option.some.inj hstep ▸ rfl
  | reset h =>
    simp only [step] at hstep
    split at hstep
    case h_2 => cases hstep
    exact Option.some.inj hstep ▸ rfl
  | next h =>
    simp only [step, next] at hstep
    split at hstep
    · cases hstep
    · exact Option.some.inj hstep ▸ rfl
    · obtain ⟨before, -, rfl⟩ := Option.map_eq_some_iff.mp hstep
      exact data_modifyRaw fun _ ↦ rfl
    · next i newRaw hptr =>
      obtain rfl := Option.some.inj hstep
      exact data_modifyRaw fun hri ↦ absurd (hri ▸ hp.refCnt_of_destroy hptr) hr
    · obtain ⟨q, -, rfl⟩ := Option.map_eq_some_iff.mp hstep
      rfl

omit [DecidableEq H] in
/-- The free queue holds each place once at most. -/
theorem Holds.nodup (hp : p.Holds) : p.freeQueue.content.Nodup := by
  refine List.nodup_iff_count_le_one.mpr fun r ↦ ?_
  have hfree := hp.free r
  split_ifs at hfree <;> omega

omit [DecidableEq H] in
theorem Holds.subset (hp : p.Holds) :
    p.freeQueue.content.toFinset ⊆ Finset.range p.allocated.length := fun r hr ↦ by
  have hpos := List.count_pos_iff.mpr (List.mem_toFinset.mp hr)
  have hfree := hp.free r
  rw [Finset.mem_range]
  by_contra hlt
  rw [if_neg fun hfree ↦ hlt hfree.1] at hfree
  omega

/-- The check of the destructor passes if no pointer refers to an object, and only then. -/
theorem Holds.destroyCheck_iff (hp : p.Holds) : p.destroyCheck ↔
    ∀ h, (p.ptrs h).refs = [] ∧ (p.ptrs h).destroying = [] ∧ (p.ptrs h).deleting = [] := by
  have hcard : p.freeQueue.content.toFinset.card = p.freeQueue.content.length :=
    List.toFinset_card_of_nodup hp.nodup
  rw [destroyCheck, decide_eq_true_iff]
  constructor
  · intro hlength h
    have heq := Finset.eq_of_subset_of_card_le hp.subset
      (by rw [hcard, hlength, Finset.card_range])
    have hall (r : ℕ) (hr : r < p.allocated.length) : 0 < p.freeQueue.content.count r := by
      rw [List.count_pos_iff, ← List.mem_toFinset, heq, Finset.mem_range]
      exact hr
    have hzero (r : ℕ) : p.count Ptr.refs r = 0 ∧ p.count Ptr.destroying r = 0 ∧
        p.count Ptr.deleting r = 0 := by
      have hfree := hp.free r
      have hrefs := hp.refs r
      by_cases hlt : r < p.allocated.length
      · have hpos := hall r hlt
        split_ifs at hfree <;> omega
      · have hcnt : (p.raw r).refCnt = 0 := by
          by_contra hcnt
          exact hlt (lt_of_refCnt hcnt)
        rw [if_neg fun hfree ↦ hlt hfree.1] at hfree
        omega
    refine ⟨?_, ?_, ?_⟩ <;> refine List.eq_nil_iff_forall_not_mem.mpr fun r hr ↦ ?_
    · exact (count_pos hr).ne' (hzero r).1
    · exact (count_pos hr).ne' (hzero r).2.1
    · exact (count_pos hr).ne' (hzero r).2.2
  · intro hnil
    have hzero (f : Ptr → List ℕ) (hf : ∀ h, f (p.ptrs h) = []) (r : ℕ) : p.count f r = 0 := by
      simp [count, total, hf]
    have heq : p.freeQueue.content.toFinset = Finset.range p.allocated.length := by
      refine hp.subset.antisymm fun r hr ↦ ?_
      have hfree := hp.free r
      have hrefs := hp.refs r
      rw [hzero _ fun h ↦ (hnil h).1] at hrefs
      rw [hzero _ fun h ↦ (hnil h).2.1, hzero _ fun h ↦ (hnil h).2.2,
        if_pos ⟨Finset.mem_range.mp hr, hrefs⟩] at hfree
      rw [List.mem_toFinset, ← List.count_pos_iff]
      omega
    rw [← hcard, heq, Finset.card_range]

/-- What holds of a pool at any time. -/
structure Sound (p : Pool H D) : Prop where
  counted : ∀ r, (p.raw r).refCnt = p.count Ptr.refs r
  alive : ∀ h, ∀ r ∈ (p.ptrs h).refs, (p.raw r).data.isSome
  kept : ∀ x p', p.step x = some p' → ∀ h, ∀ r ∈ (p.ptrs h).refs,
    (p'.raw r).data = (p.raw r).data
  freed : ∀ r < p.allocated.length,
    p.count Ptr.destroying r + p.count Ptr.deleting r + p.freeQueue.content.count r =
      if p.count Ptr.refs r = 0 then 1 else 0
  check : p.destroyCheck ↔
    ∀ h, (p.ptrs h).refs = [] ∧ (p.ptrs h).destroying = [] ∧ (p.ptrs h).deleting = []

/-- Two threads let go of an object, and its place is used again. -/
def reuseSteps (i j k : I) : List (Step I String) :=
  [.alloc i "a", .copyAssign j i, .next j, .reset i, .reset j, .next j, .next i, .next i, .next i,
    .alloc k "b"]

end Pool

end PxcCore.SharedObjectPool
