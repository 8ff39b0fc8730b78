import PxcCore.Utils.Container

/-!
# The objects of a container

The objects by their ids, and what is written through the pointers that `get` returns.
-/

namespace PxcCore.Container

open Lib

variable {DataT : Type} {c c' : Container DataT} {id : Id} {i j : ℕ} {g : UInt32}
  {slot : Slot DataT} {a : DataT}

/-- What is written through the pointer that `get` returns. -/
def modify (c : Container DataT) (id : Id) (f : DataT → DataT) : Container DataT :=
  match c.decodeId id with
  | none => c
  | some slotId =>
    { c with slots := c.slots.modify slotId fun slot ↦ { slot with data := f slot.data } }

instance decidableInUse (c : Container DataT) (slotId : ℕ) : Decidable (c.InUse slotId) :=
  inferInstanceAs (Decidable (_ ∧ _))

/-- The object of a slot that has this generation. -/
def objectAt (c : Container DataT) (slotId : ℕ) (generation : UInt32) : Option DataT :=
  (c.slots[slotId]?).bind fun slot ↦
    if c.InUse slotId ∧ generation = slot.generation then some slot.data else none

/-- The object that has this id. -/
def object (c : Container DataT) (id : Id) : Option DataT :=
  c.objectAt (id >>> 32).toNat id.toUInt32

theorem objectAt_eq_some : c.objectAt i g = some a ↔
    ∃ slot, c.slots[i]? = some slot ∧ c.InUse i ∧ g = slot.generation ∧ slot.data = a := by
  rw [objectAt, Option.bind_eq_some_iff]
  refine exists_congr fun slot ↦ and_congr_right fun _ ↦ ?_
  split_ifs with h
  · rw [Option.some.injEq]
    exact ⟨fun ha ↦ ⟨h.1, h.2, ha⟩, fun ha ↦ ha.2.2⟩
  · constructor
    · intro heq
      cases heq
    · rintro ⟨huse, hg, -⟩
      exact absurd ⟨huse, hg⟩ h

theorem object_makeId (hi : i < maxSlots) : c.object (makeId i g) = c.objectAt i g := by
  obtain ⟨hi', hg⟩ := (eq_makeId_iff hi).1 rfl
  rw [object, hi', hg]

/-- Where an object is. -/
theorem object_eq_some (h : c.Wf) : c.object id = some a ↔
    ∃ i slot, c.slots[i]? = some slot ∧ id = makeId i slot.generation ∧ c.InUse i ∧
      slot.data = a := by
  constructor
  · intro ha
    obtain ⟨slot, hslot, huse, hg, hdata⟩ := objectAt_eq_some.1 ha
    exact ⟨_, slot, hslot, (eq_makeId_iff ((lt_length hslot).trans h.length_lt)).2 ⟨rfl, hg⟩, huse,
      hdata⟩
  · rintro ⟨i, slot, hslot, rfl, huse, rfl⟩
    rw [object_makeId ((lt_length hslot).trans h.length_lt)]
    exact objectAt_eq_some.2 ⟨slot, hslot, huse, rfl, rfl⟩

theorem Wf.decodeId_object (h : c.Wf) (ha : c.object id = some a) :
    ∃ i slot, c.decodeId id = some i ∧ c.slots[i]? = some slot ∧ id = makeId i slot.generation ∧
      c.InUse i ∧ slot.data = a := by
  obtain ⟨i, slot, hslot, hid, huse, hdata⟩ := (object_eq_some h).1 ha
  refine ⟨i, slot, ?_, hslot, hid, huse, hdata⟩
  rw [decodeId_eq_some h.length_lt, encodeId, generation_eq hslot]
  exact ⟨lt_length hslot, hid⟩

theorem Wf.get_object (h : c.Wf) (ha : c.object id = some a) : c.get id = some a := by
  obtain ⟨i, slot, hdecode, hslot, -, -, rfl⟩ := h.decodeId_object ha
  rw [get, hdecode, Option.bind_some, hslot, Option.map_some]

/-- There are not more objects than slots. -/
theorem Wf.length_le (h : c.Wf) {ids : List Id} (hn : ids.Nodup)
    (hids : ∀ id ∈ ids, c.object id ≠ none) : ids.length ≤ c.slots.length := by
  have hsub : ids.map (fun id : Id ↦ (id >>> 32).toNat) ⊆ List.range c.slots.length := by
    intro n hn
    obtain ⟨id, hid, rfl⟩ := List.mem_map.1 hn
    obtain ⟨a, ha⟩ := Option.ne_none_iff_exists'.1 (hids id hid)
    obtain ⟨slot, hslot, -⟩ := objectAt_eq_some.1 ha
    exact List.mem_range.2 (lt_length hslot)
  have hnodup : (ids.map fun id : Id ↦ (id >>> 32).toNat).Nodup := by
    refine hn.map_on fun x hx y hy hxy ↦ ?_
    obtain ⟨a, ha⟩ := Option.ne_none_iff_exists'.1 (hids x hx)
    obtain ⟨b, hb⟩ := Option.ne_none_iff_exists'.1 (hids y hy)
    obtain ⟨slot, hslot, -, hg, -⟩ := objectAt_eq_some.1 ha
    obtain ⟨slot', hslot', -, hg', -⟩ := objectAt_eq_some.1 hb
    have hlt := (lt_length hslot).trans h.length_lt
    rw [← hxy] at hslot'
    have heq := hg.trans ((congrArg Slot.generation
      (Option.some.inj (hslot.symm.trans hslot'))).trans hg'.symm)
    exact ((eq_makeId_iff hlt).2 ⟨rfl, rfl⟩).trans ((eq_makeId_iff hlt).2 ⟨hxy.symm, heq.symm⟩).symm
  have hlength := (hnodup.subperm hsub).length_le
  rwa [List.length_map, List.length_range] at hlength

/-! ## Changes -/

theorem SameBut.object_eq (h : SameBut i c c') (hi : (id >>> 32).toNat ≠ i) :
    c'.object id = c.object id := by
  rw [object, object, objectAt, objectAt, (h _ hi).1]
  simp only [h.inUse_iff hi]

/-- The object of one slot changes. -/
theorem object_update (hsame : SameBut i c c') (hi : i < maxSlots)
    (hold : ∀ g' ≠ g, c.objectAt i g' = none) (hnew : ∀ g' ≠ g, c'.objectAt i g' = none) :
    c'.object = Function.update c.object (makeId i g) (c'.objectAt i g) := by
  rw [← object_makeId hi]
  refine eq_update_makeId hi (fun id hhigh ↦ hsame.object_eq hhigh) fun id hhigh hg ↦ ?_
  rw [object, object, hhigh, hold _ hg, hnew _ hg]

theorem objectAt_of_not_inUse (h : ¬c.InUse i) (g : UInt32) : c.objectAt i g = none := by
  rw [objectAt, Option.bind_eq_none_iff]
  exact fun slot _ ↦ if_neg fun huse ↦ h huse.1

theorem objectAt_of_ne (hslot : c.slots[i]? = some slot) (hg : g ≠ slot.generation) :
    c.objectAt i g = none := by
  rw [objectAt, hslot]
  exact if_neg fun huse ↦ hg huse.2

/-- `create` gives the object an id that no object has. -/
theorem Wf.create_object (h : c.Wf) (hlt : c.emptySlots = [] → c.slots.length < 2 ^ 31 - 1)
    (data : DataT) (type : UInt8) :
    ∃ id c', c.create data type = .ok (id, c') ∧ c'.Wf ∧ c.object id = none ∧
      c'.object = Function.update c.object id (some data) := by
  obtain ⟨i, g, c', hcreate, hsame, hget, htail, hcases⟩ :=
    create_eq (fun i hi ↦ (h.free i hi).1) hlt data type
  have hgen : c'.generation i = g := generation_eq hget
  obtain ⟨hi, hnot, hwf, huse⟩ : i < maxSlots ∧ ¬c.InUse i ∧ c'.Wf ∧ c'.InUse i := by
    rcases hcases with ⟨hempty, hlength, hepoch⟩ | ⟨hempty, rfl, hlength, hepoch⟩
    · have hmem : i ∈ c.emptySlots := hempty ▸ List.mem_cons_self
      obtain ⟨hlt, hne⟩ := h.free i hmem
      obtain ⟨hnotMem, hnodup⟩ := List.nodup_cons.1 (hempty ▸ h.nodup)
      refine ⟨hlt.trans h.length_lt, fun huse ↦ huse.1 hmem,
        ⟨hlength ▸ h.length_lt, hnodup, fun j hj ↦ ?_⟩, hnotMem, ?_⟩
      · have hj' : j ≠ i := fun hji ↦ hnotMem (hji ▸ hj)
        rw [hlength, hsame.generation_eq hj']
        exact h.free j (hempty ▸ List.mem_cons_of_mem _ hj)
      · rw [hgen, hepoch]
        exact hne
    · have hnil : c'.emptySlots = [] := by rw [htail, hempty, List.tail_nil]
      have hlt := hlt hempty
      refine ⟨h.length_lt, fun huse ↦ huse.2 ?_, ⟨?_, hnil ▸ List.nodup_nil, fun j hj ↦ ?_⟩,
        hnil ▸ List.not_mem_nil, ?_⟩
      · rw [generation, List.getElem?_eq_none le_rfl, Option.map_none, Option.getD_none]
        decide
      · rw [hlength, maxSlots]
        omega
      · rw [hnil] at hj
        cases hj
      · rw [hgen, hepoch]
        exact one_ne_zero
  refine ⟨_, c', hcreate, hwf, ?_, ?_⟩
  · rw [object_makeId hi, objectAt_of_not_inUse hnot]
  · rw [object_update hsame hi (fun g' _ ↦ objectAt_of_not_inUse hnot g')
      fun g' hg' ↦ objectAt_of_ne hget hg', objectAt_eq_some.2 ⟨_, hget, huse, rfl, rfl⟩]

/-- With one slot more than an `int32` can count no id is valid. -/
theorem Wf.create_full (h : c.Wf) (hempty : c.emptySlots = [])
    (hfull : ¬c.slots.length < 2 ^ 31 - 1) (data : DataT) (type : UInt8) :
    ∃ id c', c.create data type = .ok (id, c') ∧ c'.get id = none := by
  have hlength : c.slots.length = 2 ^ 31 - 1 := by
    have := h.length_lt
    rw [maxSlots] at this
    omega
  let slot : Slot DataT := ⟨generationStep + type.toUInt32, data⟩
  let c' : Container DataT := { slots := c.slots ++ [slot], emptySlots := [] }
  refine ⟨c'.encodeId c.slots.length, c', ?_, ?_⟩
  · rw [create, store, hempty]
    dsimp only
    rw [if_pos hlength.le]
    rfl
  · have hmin : Int32.ofNat c'.slots.length = Int32.ofNat (2 ^ 31) := by
      rw [List.length_append, List.length_singleton, hlength]
      rfl
    have hle : Int32.ofNat (c'.encodeId c.slots.length >>> 32).toNat ≥
        Int32.ofNat c'.slots.length := by
      rw [hmin]
      exact Int32.le_iff_toInt_le.2 (Int32.minValue_le_toInt _)
    rw [get, decodeId, if_pos (.inr hle), Option.bind_none]

/-- Writing through a pointer changes the one object. -/
theorem Wf.modify_object (h : c.Wf) (id : Id) (f : DataT → DataT) :
    (c.modify id f).Wf ∧ (c.modify id f).slots.length = c.slots.length ∧
      (c.modify id f).emptySlots = c.emptySlots ∧
      (c.modify id f).object = Function.update c.object id ((c.object id).map f) := by
  rw [modify]
  cases hdecode : c.decodeId id with
  | none =>
    have hnone : c.object id = none := by
      by_contra hne
      obtain ⟨a, ha⟩ := Option.ne_none_iff_exists'.1 hne
      obtain ⟨i, slot, hsome, -⟩ := h.decodeId_object ha
      rw [hdecode] at hsome
      cases hsome
    refine ⟨h, rfl, rfl, ?_⟩
    rw [hnone, Option.map_none, ← hnone, Function.update_eq_self]
  | some i =>
    obtain ⟨hi, hid⟩ := (decodeId_eq_some h.length_lt).1 hdecode
    have hslot := List.getElem?_eq_getElem hi
    generalize c.slots[i] = slot at hslot
    rw [encodeId, generation_eq hslot] at hid
    let c' : Container DataT :=
      { c with slots := c.slots.modify i fun slot ↦ { slot with data := f slot.data } }
    have hsame : SameBut i c c' := sameBut_modify fun j _ ↦ Iff.rfl
    have hget : c'.slots[i]? = some ⟨slot.generation, f slot.data⟩ := getElem?_modify_self hslot
    have hlength : c'.slots.length = c.slots.length := List.length_modify ..
    have hgen : ∀ j, c'.generation j = c.generation j := by
      intro j
      by_cases hj : j = i
      · rw [hj, generation_eq hget, generation_eq hslot]
      · exact hsame.generation_eq hj
    have huse : c'.InUse i ↔ c.InUse i := by rw [InUse, InUse, hgen]
    refine ⟨⟨hlength ▸ h.length_lt, h.nodup, fun j hj ↦ ?_⟩, hlength, rfl, ?_⟩
    · rw [hlength, hgen]
      exact h.free j hj
    · rw [hid, object_update hsame (hi.trans h.length_lt) (fun g' hg' ↦ objectAt_of_ne hslot hg')
        fun g' hg' ↦ objectAt_of_ne hget hg', object_makeId (hi.trans h.length_lt), objectAt,
        objectAt, hget, hslot]
      simp only [Option.bind_some, huse, and_true]
      split_ifs <;> rfl

variable [Inhabited DataT]

/-- `erase` takes the one object out. -/
theorem Wf.erase_object (h : c.Wf) (ha : c.object id = some a) :
    (c.erase id).Wf ∧ (c.erase id).object = Function.update c.object id none := by
  obtain ⟨i, slot, hdecode, hslot, rfl, huse, -⟩ := h.decodeId_object ha
  have hi := (lt_length hslot).trans h.length_lt
  have hsame : SameBut i c (c.release i) := by
    rw [release_eq hslot]
    refine sameBut_modify fun j hj ↦ ?_
    split_ifs
    · rw [List.mem_cons, or_iff_right hj]
    · exact Iff.rfl
  have hnot : ¬(c.release i).InUse i := by
    rw [InUse, release_eq hslot, generation_eq (getElem?_modify_self hslot)]
    rintro ⟨hfree, hepoch⟩
    dsimp only at hfree hepoch
    rw [if_pos hepoch] at hfree
    exact hfree List.mem_cons_self
  rw [erase, hdecode]
  refine ⟨?_, ?_⟩
  · dsimp only
    rw [release_eq hslot]
    exact h.free_slot hslot huse rfl rfl
  · dsimp only
    rw [object_update hsame hi (fun g' hg' ↦ objectAt_of_ne hslot hg')
      fun g' _ ↦ objectAt_of_not_inUse hnot g', objectAt_of_not_inUse hnot]

end PxcCore.Container
