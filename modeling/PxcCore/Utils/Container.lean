import PxcCore.Lib.Simulation

/-!
# Container

`Container.h`: a vector of slots.  The id of an element is made of its slot and of the generation
of the slot, which changes when the element goes or gets another id.
-/

namespace PxcCore

open Lib

/-- `Container::Slot` -/
structure Slot (DataT : Type) where
  generation : UInt32
  data : DataT

/-- The back of `empty_slots_` is the head of the list. -/
structure Container (DataT : Type) where
  slots : List (Slot DataT) := []
  emptySlots : List ℕ := []

namespace Container

abbrev Id := UInt64

variable {DataT : Type} {c c' : Container DataT} {id id' : Id}

/-! ## Definitions -/

/-- `GENERATION_STEP` -/
def generationStep : UInt32 := (1 : UInt32) <<< 8

/-- `TYPE_MASK` -/
def typeMask : UInt32 := (1 : UInt32) <<< 8 - 1

/-- The bits of an id. -/
def makeId (slotId : ℕ) (generation : UInt32) : Id :=
  UInt64.ofNat slotId <<< 32 ||| generation.toUInt64

/-- `slots_[id].generation` -/
def generation (c : Container DataT) (slotId : ℕ) : UInt32 :=
  ((c.slots[slotId]?).map Slot.generation).getD 0

/-- `encode_id` -/
def encodeId (c : Container DataT) (slotId : ℕ) : Id := makeId slotId (c.generation slotId)

/-- `decode_id`, with `none` for -1. -/
def decodeId (c : Container DataT) (id : Id) : Option ℕ :=
  let slotId := Int32.ofNat (id >>> 32).toNat
  let generation := id.toUInt32
  if slotId < 0 ∨ slotId ≥ Int32.ofNat c.slots.length then none
  else if generation ≠ c.generation slotId.toInt.toNat then none
  else some slotId.toInt.toNat

/-- `get` -/
def get (c : Container DataT) (id : Id) : Option DataT :=
  (c.decodeId id).bind fun slotId ↦ (c.slots[slotId]?).map Slot.data

/-- `inc_generation` -/
def incGeneration (c : Container DataT) (slotId : ℕ) : Container DataT :=
  { c with slots := c.slots.modify slotId fun slot ↦
    { slot with generation := slot.generation + generationStep } }

/-- `store` -/
def store (c : Container DataT) (data : DataT) (type : UInt8) :
    Except String (ℕ × Container DataT) :=
  match c.emptySlots with
  | pos :: emptySlots =>
    .ok (pos, { slots := c.slots.modify pos fun slot ↦
                  { generation := slot.generation ^^^
                      ((slot.generation &&& typeMask) ^^^ type.toUInt32)
                    data := data }
                emptySlots := emptySlots })
  | [] =>
    if c.slots.length ≤ 2 ^ 31 - 1 then
      .ok (c.slots.length,
        { c with slots := c.slots ++ [⟨generationStep + type.toUInt32, data⟩] })
    else .error "CHECK(slots_.size() <= static_cast<size_t>(std::numeric_limits<int32>::max()))"

/-- `create` -/
def create (c : Container DataT) (data : DataT) (type : UInt8) :
    Except String (Id × Container DataT) := do
  let (slotId, c) ← c.store data type
  return (c.encodeId slotId, c)

/-- `reset_id` -/
def resetId (c : Container DataT) (id : Id) : Except String (Id × Container DataT) :=
  match c.decodeId id with
  | none => .error "CHECK(slot_id != -1)"
  | some slotId =>
    let c := c.incGeneration slotId
    .ok (c.encodeId slotId, c)

section

variable [Inhabited DataT]

/-- `release` -/
def release (c : Container DataT) (slotId : ℕ) : Container DataT :=
  let c := c.incGeneration slotId
  let c := { c with slots := c.slots.modify slotId fun slot ↦ { slot with data := default } }
  -- generation overflow. Can't use this identifier anymore
  if c.generation slotId &&& ~~~typeMask ≠ 0 then
    { c with emptySlots := slotId :: c.emptySlots }
  else c

/-- `erase` -/
def erase (c : Container DataT) (id : Id) : Container DataT :=
  match c.decodeId id with
  | none => c
  | some slotId => c.release slotId

/-- `extract` -/
def extract (c : Container DataT) (id : Id) : Except String (DataT × Container DataT) :=
  match c.decodeId id with
  | none => .error "CHECK(slot_id != -1)"
  | some slotId =>
    .ok (((c.slots[slotId]?).map Slot.data).getD default, c.release slotId)

/-- The calls that change a container. -/
inductive Op (DataT : Type) where
  | create (data : DataT) (type : UInt8)
  | erase (id : Id)
  | extract (id : Id)
  | resetId (id : Id)

/-- What a call returns. -/
inductive Out (DataT : Type) where
  | id (id : Id)
  | data (data : DataT)
  | nothing
deriving DecidableEq

def step (c : Container DataT) : Op DataT → Except String (Out DataT × Container DataT)
  | .create data type => do
    let (id, c) ← c.create data type
    return (.id id, c)
  | .erase id => return (.nothing, c.erase id)
  | .extract id => do
    let (data, c) ← c.extract id
    return (.data data, c)
  | .resetId id => do
    let (id, c) ← c.resetId id
    return (.id id, c)

end

/-! ## Elements -/

/-- How often a generation has been increased. -/
def epoch (generation : UInt32) : ℕ := generation.toNat / 256

/-- A slot that has an element: it is not free, and its generation has not overflowed. -/
def InUse (c : Container DataT) (slotId : ℕ) : Prop :=
  slotId ∉ c.emptySlots ∧ epoch (c.generation slotId) ≠ 0

/-- What a call must not do: use up the last generation of a slot for an id, name a slot that has
no element, or make one slot more than an `int32` can count. -/
def Admits (c : Container DataT) : Op DataT → Prop
  | .create _ _ => c.emptySlots = [] → c.slots.length < 2 ^ 31 - 1
  | .erase id | .extract id => ∀ slotId, c.decodeId id = some slotId → c.InUse slotId
  | .resetId id => ∀ slotId, c.decodeId id = some slotId → c.InUse slotId ∧
      epoch (c.generation slotId) ≠ 0xFFFFFF

/-- The ids that the calls return. -/
def issued (trace : List (Op DataT × Out DataT)) : List Id :=
  trace.filterMap fun
    | (_, .id id) => some id
    | _ => none

/-- The elements by their ids, before and after a call. -/
def track (current : Id → Option DataT) : Op DataT × Out DataT → Id → Option DataT
  | (.create data _, .id id) => Function.update current id (some data)
  | (.erase id, _) => Function.update current id none
  | (.extract id, _) => Function.update current id none
  | (.resetId id, .id id') => Function.update (Function.update current id none) id' (current id)
  | _ => current

/-- The elements by their ids after these calls. -/
def current (trace : List (Op DataT × Out DataT)) : Id → Option DataT :=
  trace.foldl track fun _ ↦ none

/-! ## Ids -/

/-- The number of slots from which on `decode_id` finds none. -/
def maxSlots : ℕ := 2147483648

variable {slotId i j : ℕ} {g g' : UInt32} {slot : Slot DataT}

theorem toInt_ofNat {n : ℕ} (h : n < maxSlots) : (Int32.ofNat n).toInt = n :=
  Int32.toInt_ofNat_of_lt h

/-- A slot number that is too large is negative as an `int32`. -/
theorem ofNat_lt_zero {n : ℕ} (h : maxSlots ≤ n) (h' : n < 2 ^ 32) : Int32.ofNat n < 0 := by
  rw [maxSlots] at h
  rw [Int32.lt_iff_toInt_lt, Int32.toInt_ofNat', Int.bmod_def]
  show _ < (0 : ℤ)
  simp only [Int32.size]
  omega

theorem toNat_makeId (h : slotId < maxSlots) :
    (makeId slotId g).toNat = slotId * 2 ^ 32 + g.toNat := by
  have hg : g.toNat < 2 ^ 32 := g.toNat_lt
  rw [maxSlots] at h
  have hshift : (UInt64.ofNat slotId <<< 32).toNat = slotId <<< 32 := by
    rw [UInt64.toNat_shiftLeft, UInt64.toNat_ofNat']
    show (slotId % 2 ^ 64) <<< 32 % 2 ^ 64 = _
    rw [Nat.mod_eq_of_lt (by omega), Nat.shiftLeft_eq, Nat.shiftLeft_eq,
      Nat.mod_eq_of_lt (by omega)]
  rw [makeId, UInt64.toNat_or, hshift, UInt32.toNat_toUInt64,
    ← Nat.shiftLeft_add_eq_or_of_lt hg, Nat.shiftLeft_eq]

theorem toNat_shiftRight (id : Id) : (id >>> 32).toNat = id.toNat / 2 ^ 32 := by
  rw [UInt64.toNat_shiftRight]
  exact Nat.shiftRight_eq_div_pow _ _

/-- An id is its slot and its generation. -/
theorem eq_makeId_iff (h : slotId < maxSlots) :
    id = makeId slotId g ↔ (id >>> 32).toNat = slotId ∧ id.toUInt32 = g := by
  have hg : g.toNat < 2 ^ 32 := g.toNat_lt
  have hid := id.toNat_lt
  rw [← UInt64.toNat_inj, ← UInt32.toNat_inj, toNat_makeId h, toNat_shiftRight,
    UInt64.toNat_toUInt32]
  omega

/-- Functions of ids that differ at most where one generation of a slot is. -/
theorem eq_update_makeId {α : Type} {f f' : Id → α} (hi : i < maxSlots)
    (hother : ∀ id : Id, (id >>> 32).toNat ≠ i → f' id = f id)
    (hsame : ∀ id : Id, (id >>> 32).toNat = i → id.toUInt32 ≠ g → f' id = f id) :
    f' = Function.update f (makeId i g) (f' (makeId i g)) := by
  funext id
  by_cases hid : id = makeId i g
  · rw [hid, Function.update_self]
  · rw [Function.update_of_ne hid]
    by_cases hhigh : (id >>> 32).toNat = i
    · exact hsame id hhigh fun hg ↦ hid ((eq_makeId_iff hi).2 ⟨hhigh, hg⟩)
    · exact hother id hhigh

theorem makeId_inj (hi : i < maxSlots) (hj : j < maxSlots) (h : makeId i g = makeId j g') :
    i = j ∧ g = g' := by
  obtain ⟨hi', hg⟩ := (eq_makeId_iff hi).1 rfl
  obtain ⟨hj', hg'⟩ := (eq_makeId_iff hj).1 h
  exact ⟨hi'.symm.trans hj', hg.symm.trans hg'⟩

/-- `decode_id` finds the slot that has this id now. -/
theorem decodeId_eq_some (h : c.slots.length < maxSlots) :
    c.decodeId id = some i ↔ i < c.slots.length ∧ id = c.encodeId i := by
  have hhigh : (id >>> 32).toNat < 2 ^ 32 := by
    have hid := id.toNat_lt
    rw [toNat_shiftRight]
    omega
  constructor
  · intro hd
    simp only [decodeId] at hd
    split_ifs at hd with hout hg
    rcases Nat.lt_or_ge (id >>> 32).toNat maxSlots with hlt | hge
    · rw [toInt_ofNat hlt, Int.toNat_natCast] at hd hg
      obtain rfl := Option.some.inj hd
      refine ⟨?_, (eq_makeId_iff hlt).2 ⟨rfl, not_not.1 hg⟩⟩
      rw [ge_iff_le, Int32.le_iff_toInt_le, toInt_ofNat h, toInt_ofNat hlt] at hout
      omega
    · exact absurd (Or.inl (ofNat_lt_zero hge hhigh)) hout
  · rintro ⟨hi, hid⟩
    obtain ⟨h1, h2⟩ := (eq_makeId_iff (hi.trans h)).1 hid
    have hin : ¬(Int32.ofNat i < 0 ∨ Int32.ofNat i ≥ Int32.ofNat c.slots.length) := by
      rw [ge_iff_le, Int32.lt_iff_toInt_lt, Int32.le_iff_toInt_le, toInt_ofNat h,
        toInt_ofNat (hi.trans h)]
      show ¬((i : ℤ) < 0 ∨ _)
      omega
    simp only [decodeId, h1, h2, if_neg hin, toInt_ofNat (hi.trans h), Int.toNat_natCast, ne_eq,
      not_true, if_false]

/-! ## Generations -/

theorem epoch_lt (g : UInt32) : epoch g < 2 ^ 24 := by
  have := g.toNat_lt
  rw [epoch]
  omega

/-- The mask takes the type away. -/
theorem and_not_typeMask : (g &&& ~~~typeMask).toNat = epoch g * 256 := by
  have hg := g.toNat_lt
  have hmask : (~~~typeMask).toNat = 0xFFFFFF00 := rfl
  have hdiv : (g.toNat &&& 0xFFFFFF00) / 2 ^ 8 = g.toNat / 2 ^ 8 := by
    rw [Nat.and_div_two_pow]
    exact (Nat.and_two_pow_sub_one_eq_mod _ 24).trans (Nat.mod_eq_of_lt (by omega))
  have hmod : (g.toNat &&& 0xFFFFFF00) % 2 ^ 8 = 0 := by
    rw [Nat.and_mod_two_pow]
    exact Nat.and_zero _
  rw [UInt32.toNat_and, hmask, epoch]
  omega

theorem and_not_typeMask_ne_zero : g &&& ~~~typeMask ≠ 0 ↔ epoch g ≠ 0 := by
  rw [← UInt32.toNat_inj.ne, and_not_typeMask]
  show epoch g * 256 ≠ 0 ↔ _
  omega

/-- A new type leaves the epoch. -/
theorem epoch_type (g : UInt32) (type : UInt8) :
    epoch (g ^^^ ((g &&& typeMask) ^^^ type.toUInt32)) = epoch g := by
  have hmask : typeMask.toNat = 255 := rfl
  have htype : type.toNat / 2 ^ 8 = 0 := Nat.div_eq_of_lt type.toNat_lt
  simp only [epoch, UInt32.toNat_xor, UInt32.toNat_and, UInt8.toNat_toUInt32, hmask]
  show _ / 2 ^ 8 = _ / 2 ^ 8
  rw [Nat.xor_div_two_pow, Nat.xor_div_two_pow, Nat.and_div_two_pow, htype]
  simp

theorem epoch_first (type : UInt8) : epoch (generationStep + type.toUInt32) = 1 := by
  have hstep : generationStep.toNat = 256 := rfl
  have htype := type.toNat_lt
  rw [epoch, UInt32.toNat_add, UInt8.toNat_toUInt32, hstep]
  omega

theorem epoch_next (g : UInt32) : epoch (g + generationStep) = (epoch g + 1) % 2 ^ 24 := by
  have hstep : generationStep.toNat = 256 := rfl
  rw [epoch, epoch, UInt32.toNat_add, hstep]
  omega

/-- Only the ids of no epoch can be zero. -/
theorem makeId_ne_zero (h : slotId < maxSlots) (hg : epoch g ≠ 0) : makeId slotId g ≠ 0 := by
  rw [← UInt64.toNat_inj.ne, toNat_makeId h]
  rw [epoch] at hg
  show _ ≠ 0
  omega

/-! ## The invariant -/

variable {ids : List Id} {cur : Id → Option DataT} {a : DataT}

/-- What keeps the slots in order. -/
structure Wf (c : Container DataT) : Prop where
  length_lt : c.slots.length < maxSlots
  nodup : c.emptySlots.Nodup
  free : ∀ i ∈ c.emptySlots, i < c.slots.length ∧ epoch (c.generation i) ≠ 0

/-- The elements have these ids, and all ids of former epochs are gone. -/
structure Tracks (c : Container DataT) (ids : List Id) (cur : Id → Option DataT) : Prop where
  nodup : ids.Nodup
  current : ∀ id a, cur id = some a ↔ ∃ i slot, c.slots[i]? = some slot ∧
    id = makeId i slot.generation ∧ c.InUse i ∧ slot.data = a
  issued : ∀ id ∈ ids, ∃ i g, i < c.slots.length ∧ id = makeId i g ∧ epoch g ≠ 0 ∧
    (epoch (c.generation i) ≠ 0 →
      epoch g < epoch (c.generation i) ∨ c.InUse i ∧ g = c.generation i)

theorem Wf.init : Wf ({} : Container DataT) where
  length_lt := by simp [maxSlots]
  nodup := List.nodup_nil
  free := by simp

theorem Tracks.init : Tracks ({} : Container DataT) [] fun _ ↦ none where
  nodup := List.nodup_nil
  current := by simp
  issued := by simp

theorem generation_eq (h : c.slots[i]? = some slot) : c.generation i = slot.generation := by
  rw [generation, h]
  rfl

theorem lt_length (h : c.slots[i]? = some slot) : i < c.slots.length :=
  (List.getElem?_eq_some_iff.1 h).1

/-! ## One slot changes -/

/-- All slots but this one are the same. -/
def SameBut (i : ℕ) (c c' : Container DataT) : Prop :=
  ∀ j ≠ i, c'.slots[j]? = c.slots[j]? ∧ (j ∈ c'.emptySlots ↔ j ∈ c.emptySlots)

namespace SameBut

variable (h : SameBut i c c') (hj : j ≠ i)

include h hj

theorem generation_eq : c'.generation j = c.generation j := by
  rw [generation, (h j hj).1, generation]

theorem inUse_iff : c'.InUse j ↔ c.InUse j := by
  rw [InUse, InUse, (h j hj).2, h.generation_eq hj]

theorem lt_iff : j < c'.slots.length ↔ j < c.slots.length := by
  rw [← not_iff_not, Nat.not_lt, Nat.not_lt, ← List.getElem?_eq_none_iff,
    ← List.getElem?_eq_none_iff, (h j hj).1]

end SameBut

/-- A slot without an element gets one, with an id that was not issued before. -/
theorem Tracks.occupy (h : Tracks c ids cur) (hlen : c.slots.length < maxSlots)
    (hlen' : c'.slots.length < maxSlots) (hsame : SameBut i c c')
    (hslot : c'.slots[i]? = some ⟨g, a⟩) (huse' : c'.InUse i)
    (hold : i < c.slots.length → epoch (c.generation i) = epoch g ∧ ¬c.InUse i) :
    Tracks c' (ids ++ [makeId i g]) (Function.update cur (makeId i g) (some a)) := by
  have hi := lt_length hslot
  have hg : c'.generation i = g := generation_eq hslot
  have hepoch : epoch g ≠ 0 := hg ▸ huse'.2
  have hnew : makeId i g ∉ ids := by
    intro hmem
    obtain ⟨j, g', hj, hid, -, hlt⟩ := h.issued _ hmem
    obtain ⟨rfl, rfl⟩ := makeId_inj (hi.trans hlen') (hj.trans hlen) hid
    obtain ⟨heq, huse⟩ := hold hj
    rcases hlt (heq ▸ hepoch) with hlt | ⟨huse'', -⟩
    · omega
    · exact huse huse''
  refine ⟨List.nodup_append.2 ⟨h.nodup, List.nodup_singleton _, ?_⟩, fun id b ↦ ?_, ?_⟩
  · rintro id hid _ hid' rfl
    exact hnew (List.mem_singleton.1 hid' ▸ hid)
  · by_cases hid : id = makeId i g
    · subst hid
      rw [Function.update_self, Option.some.injEq]
      constructor
      · rintro rfl
        exact ⟨i, _, hslot, rfl, huse', rfl⟩
      · rintro ⟨j, slot', hslot', hid, -, rfl⟩
        obtain ⟨rfl, -⟩ := makeId_inj (hi.trans hlen') ((lt_length hslot').trans hlen') hid
        rw [hslot, Option.some.injEq] at hslot'
        exact congrArg Slot.data hslot'
    · rw [Function.update_of_ne hid, h.current]
      constructor
      · rintro ⟨j, slot', hslot', hid', huse, hdata⟩
        have hj : j ≠ i := by
          rintro rfl
          exact (hold (lt_length hslot')).2 huse
        exact ⟨j, slot', (hsame j hj).1.trans hslot', hid', (hsame.inUse_iff hj).2 huse, hdata⟩
      · rintro ⟨j, slot', hslot', hid', huse, hdata⟩
        have hj : j ≠ i := by
          rintro rfl
          rw [hslot, Option.some.injEq] at hslot'
          exact hid (hid'.trans (hslot' ▸ rfl))
        exact ⟨j, slot', (hsame j hj).1.symm.trans hslot', hid', (hsame.inUse_iff hj).1 huse,
          hdata⟩
  · intro id hid
    rcases List.mem_append.1 hid with hid | hid
    · obtain ⟨j, g', hj, rfl, hg', hlt⟩ := h.issued id hid
      by_cases hji : j = i
      · subst hji
        obtain ⟨heq, huse⟩ := hold hj
        refine ⟨j, g', hi, rfl, hg', fun _ ↦ .inl ?_⟩
        rcases hlt (heq ▸ hepoch) with hlt | ⟨huse'', -⟩
        · rwa [hg, ← heq]
        · exact absurd huse'' huse
      · refine ⟨j, g', (hsame.lt_iff hji).2 hj, rfl, hg', ?_⟩
        rwa [hsame.generation_eq hji, hsame.inUse_iff hji]
    · exact ⟨i, g, hi, List.mem_singleton.1 hid, hepoch, fun _ ↦ .inr ⟨huse', hg.symm⟩⟩

/-- A slot with an element loses it, and what it was is of a former epoch. -/
theorem Tracks.vacate (h : Tracks c ids cur) (hlen : c.slots.length < maxSlots)
    (hlen' : c'.slots.length < maxSlots) (hsame : SameBut i c c') (hi' : i < c'.slots.length)
    (hslot : c.slots[i]? = some slot) (huse : c.InUse i) (huse' : ¬c'.InUse i)
    (hepoch : epoch (c'.generation i) ≠ 0 →
      epoch (c'.generation i) = epoch slot.generation + 1) :
    Tracks c' ids (Function.update cur (makeId i slot.generation) none) := by
  have hi := lt_length hslot
  refine ⟨h.nodup, fun id b ↦ ?_, ?_⟩
  · have hne {j : ℕ} {slot' : Slot DataT} (hj : j ≠ i) (hlt : j < maxSlots) :
        makeId j slot'.generation ≠ makeId i slot.generation :=
      fun heq ↦ hj (makeId_inj hlt (hi.trans hlen) heq).1
    constructor
    · intro hid
      by_cases heq : id = makeId i slot.generation
      · rw [heq, Function.update_self] at hid
        exact absurd hid (by simp)
      rw [Function.update_of_ne heq, h.current] at hid
      obtain ⟨j, slot', hslot', hid', huse'', hdata⟩ := hid
      have hj : j ≠ i := by
        rintro rfl
        rw [hslot, Option.some.injEq] at hslot'
        exact heq (hid'.trans (hslot' ▸ rfl))
      exact ⟨j, slot', (hsame j hj).1.trans hslot', hid', (hsame.inUse_iff hj).2 huse'', hdata⟩
    · rintro ⟨j, slot', hslot', rfl, huse'', hdata⟩
      have hj : j ≠ i := by
        rintro rfl
        exact huse' huse''
      rw [Function.update_of_ne (hne hj ((lt_length hslot').trans hlen')), h.current]
      exact ⟨j, slot', (hsame j hj).1.symm.trans hslot', rfl, (hsame.inUse_iff hj).1 huse'',
        hdata⟩
  · intro id hid
    obtain ⟨j, g', hj, rfl, hg', hlt⟩ := h.issued id hid
    by_cases hji : j = i
    · subst hji
      refine ⟨j, g', hi', rfl, hg', fun hne ↦ .inl ?_⟩
      rw [hepoch hne, ← generation_eq hslot]
      rcases hlt huse.2 with hlt | ⟨-, rfl⟩
      · omega
      · omega
    · refine ⟨j, g', (hsame.lt_iff hji).2 hj, rfl, hg', ?_⟩
      rwa [hsame.generation_eq hji, hsame.inUse_iff hji]

/-! ## Calls -/

theorem getElem?_modify_self {f : Slot DataT → Slot DataT} (h : c.slots[i]? = some slot) :
    (c.slots.modify i f)[i]? = some (f slot) := by
  rw [List.getElem?_modify_eq, h]
  rfl

theorem sameBut_modify {f : Slot DataT → Slot DataT} {emptySlots : List ℕ}
    (h : ∀ j ≠ i, j ∈ emptySlots ↔ j ∈ c.emptySlots) :
    SameBut i c { slots := c.slots.modify i f, emptySlots := emptySlots } :=
  fun j hj ↦ ⟨List.getElem?_modify_ne _ _ hj.symm, h j hj⟩

/-- `create` puts the element into a slot from the list of free ones, which keeps its epoch, or into
a new one at the back. -/
theorem create_eq (hfree : ∀ i ∈ c.emptySlots, i < c.slots.length)
    (hlt : c.emptySlots = [] → c.slots.length < 2 ^ 31 - 1) (data : DataT) (type : UInt8) :
    ∃ i g c', c.create data type = .ok (makeId i g, c') ∧ SameBut i c c' ∧
      c'.slots[i]? = some ⟨g, data⟩ ∧ c'.emptySlots = c.emptySlots.tail ∧
      (c.emptySlots = i :: c'.emptySlots ∧ c'.slots.length = c.slots.length ∧
          epoch g = epoch (c.generation i) ∨
        c.emptySlots = [] ∧ i = c.slots.length ∧ c'.slots.length = c.slots.length + 1 ∧
          epoch g = 1) := by
  cases hempty : c.emptySlots with
  | nil =>
    have hlt : c.slots.length < 2 ^ 31 - 1 := hlt hempty
    let c' : Container DataT :=
      { slots := c.slots ++ [⟨generationStep + type.toUInt32, data⟩], emptySlots := [] }
    have hget : c'.slots[c.slots.length]? = some ⟨generationStep + type.toUInt32, data⟩ :=
      List.getElem?_concat_length
    have hstore : c.store data type = .ok (c.slots.length, c') := by
      simp only [store, hempty]
      rw [if_pos (show c.slots.length ≤ 2 ^ 31 - 1 by omega)]
    refine ⟨c.slots.length, _, c', ?_, fun j hj ↦ ⟨?_, by rw [hempty]⟩, hget, rfl,
      .inr ⟨rfl, rfl, List.length_append, epoch_first type⟩⟩
    · rw [create, hstore, ok_bind]
      dsimp only
      rw [encodeId, generation_eq hget, pure_eq_ok]
    · rcases Nat.lt_or_ge j c.slots.length with hlt | hge
      · exact List.getElem?_append_left hlt
      · rw [List.getElem?_eq_none hge, List.getElem?_eq_none]
        show (c.slots ++ [_]).length ≤ j
        rw [List.length_append, List.length_singleton]
        omega
  | cons pos emptySlots =>
    obtain ⟨slot, hslot⟩ : ∃ slot, c.slots[pos]? = some slot :=
      ⟨_, List.getElem?_eq_getElem (hfree pos (by simp [hempty]))⟩
    let f (slot : Slot DataT) : Slot DataT :=
      { generation := slot.generation ^^^ ((slot.generation &&& typeMask) ^^^ type.toUInt32)
        data := data }
    let c' : Container DataT := { slots := c.slots.modify pos f, emptySlots := emptySlots }
    have hget : c'.slots[pos]? = some (f slot) := getElem?_modify_self hslot
    have hstore : c.store data type = .ok (pos, c') := by rw [store, hempty]
    refine ⟨pos, _, c', ?_, sameBut_modify fun j hj ↦ ?_, hget, rfl,
      .inl ⟨rfl, List.length_modify .., ?_⟩⟩
    · rw [create, hstore, ok_bind]
      dsimp only
      rw [encodeId, generation_eq hget, pure_eq_ok]
    · rw [hempty, List.mem_cons, or_iff_right hj]
    · rw [generation_eq hslot]
      exact epoch_type _ _

/-- `create` gives the element an id. -/
theorem create_spec (hwf : c.Wf) (h : Tracks c ids cur) {data : DataT} {type : UInt8}
    (hadmits : c.Admits (.create data type)) :
    ∃ id c', c.create data type = .ok (id, c') ∧ c'.Wf ∧
      Tracks c' (ids ++ [id]) (Function.update cur id (some data)) := by
  obtain ⟨i, g, c', hcreate, hsame, hget, htail, hcases⟩ :=
    create_eq (fun i hi ↦ (hwf.free i hi).1) hadmits data type
  have hgen : c'.generation i = g := generation_eq hget
  refine ⟨_, c', hcreate, ?_⟩
  rcases hcases with ⟨hempty, hlength, hepoch⟩ | ⟨hempty, rfl, hlength, hepoch⟩
  · obtain ⟨hnotMem, hnodup⟩ := List.nodup_cons.1 (hempty ▸ hwf.nodup)
    obtain ⟨hi, hne⟩ := hwf.free i (hempty ▸ List.mem_cons_self)
    have hlen' : c'.slots.length < maxSlots := hlength ▸ hwf.length_lt
    refine ⟨⟨hlen', hnodup, fun j hj ↦ ?_⟩, ?_⟩
    · have hji : j ≠ i := by
        rintro rfl
        exact hnotMem hj
      rw [hsame.lt_iff hji, hsame.generation_eq hji]
      exact hwf.free j (hempty ▸ List.mem_cons_of_mem _ hj)
    · refine h.occupy hwf.length_lt hlen' hsame hget ⟨hnotMem, ?_⟩ fun _ ↦
        ⟨hepoch.symm, fun huse ↦ huse.1 (hempty ▸ List.mem_cons_self)⟩
      rwa [hgen, hepoch]
  · have hnil : c'.emptySlots = [] := by rw [htail, hempty, List.tail_nil]
    have hlen' : c'.slots.length < maxSlots := by
      have hlt : c.slots.length < 2 ^ 31 - 1 := hadmits hempty
      rw [hlength, maxSlots]
      omega
    refine ⟨⟨hlen', hnil ▸ List.nodup_nil, fun j hj ↦ ?_⟩, ?_⟩
    · rw [hnil] at hj
      cases hj
    · refine h.occupy hwf.length_lt hlen' hsame hget ⟨?_, ?_⟩ fun hlt ↦ absurd hlt (lt_irrefl _)
      · rw [hnil]
        exact List.not_mem_nil
      · rw [hgen, hepoch]
        exact one_ne_zero

/-- An id of an element names the slot of the element. -/
theorem Tracks.exists_slot (h : Tracks c ids cur) (hlen : c.slots.length < maxSlots)
    (hdecode : c.decodeId id = some i) (huse : c.InUse i) :
    ∃ slot, c.slots[i]? = some slot ∧ id = makeId i slot.generation ∧ cur id = some slot.data := by
  obtain ⟨hi, hid⟩ := (decodeId_eq_some hlen).1 hdecode
  obtain ⟨slot, hslot⟩ : ∃ slot, c.slots[i]? = some slot := ⟨_, List.getElem?_eq_getElem hi⟩
  rw [encodeId, generation_eq hslot] at hid
  exact ⟨slot, hslot, hid, (h.current _ _).2 ⟨i, slot, hslot, hid, huse, rfl⟩⟩

/-- An id that names no slot is not that of an element. -/
theorem Tracks.eq_none (h : Tracks c ids cur) (hlen : c.slots.length < maxSlots)
    (hdecode : c.decodeId id = none) : cur id = none := by
  by_contra hne
  obtain ⟨a, ha⟩ := Option.ne_none_iff_exists'.1 hne
  obtain ⟨i, slot, hslot, hid, -⟩ := (h.current _ _).1 ha
  rw [← generation_eq hslot] at hid
  have hsome := (decodeId_eq_some hlen).2 ⟨lt_length hslot, hid⟩
  rw [hdecode] at hsome
  exact absurd hsome (by simp)

/-- The slot is free with its next generation, or out of use if that was the last one. -/
theorem Wf.free_slot (hwf : c.Wf) (hslot : c.slots[i]? = some slot) (huse : c.InUse i)
    {f : Slot DataT → Slot DataT} (hf : (f slot).generation = slot.generation + generationStep)
    {emptySlots : List ℕ}
    (hempty : emptySlots =
      if epoch (slot.generation + generationStep) ≠ 0 then i :: c.emptySlots else c.emptySlots) :
    Wf { slots := c.slots.modify i f, emptySlots := emptySlots } := by
  have hsame : SameBut i c { slots := c.slots.modify i f, emptySlots := emptySlots } := by
    refine sameBut_modify fun j hj ↦ ?_
    rw [hempty]
    split_ifs <;> simp [hj]
  have hget : (c.slots.modify i f)[i]? = some (f slot) := getElem?_modify_self hslot
  have hgen : generation { slots := c.slots.modify i f, emptySlots := emptySlots } i =
      slot.generation + generationStep := (generation_eq hget).trans hf
  refine ⟨by simpa using hwf.length_lt, ?_, fun j hj ↦ ?_⟩
  · show emptySlots.Nodup
    rw [hempty]
    split_ifs
    · exact List.nodup_cons.2 ⟨huse.1, hwf.nodup⟩
    · exact hwf.nodup
  · by_cases hji : j = i
    · subst hji
      refine ⟨lt_length hget, ?_⟩
      rw [hgen]
      by_contra hzero
      rw [if_neg (not_not.2 hzero)] at hempty
      exact huse.1 (hempty ▸ hj)
    · rw [hsame.lt_iff hji, hsame.generation_eq hji]
      exact hwf.free j (((hsame j hji).2).1 hj)

theorem Tracks.free_slot (hwf : c.Wf) (h : Tracks c ids cur) (hslot : c.slots[i]? = some slot)
    (huse : c.InUse i) {f : Slot DataT → Slot DataT}
    (hf : (f slot).generation = slot.generation + generationStep) {emptySlots : List ℕ}
    (hempty : emptySlots =
      if epoch (slot.generation + generationStep) ≠ 0 then i :: c.emptySlots else c.emptySlots) :
    Tracks { slots := c.slots.modify i f, emptySlots := emptySlots } ids
      (Function.update cur (makeId i slot.generation) none) := by
  have hget : (c.slots.modify i f)[i]? = some (f slot) := getElem?_modify_self hslot
  have hgen : generation { slots := c.slots.modify i f, emptySlots := emptySlots } i =
      slot.generation + generationStep := (generation_eq hget).trans hf
  refine h.vacate hwf.length_lt (hwf.free_slot hslot huse hf hempty).length_lt
    (sameBut_modify fun j hj ↦ ?_) (lt_length hget) hslot huse ?_ ?_
  · rw [hempty]
    split_ifs <;> simp [hj]
  · rintro ⟨hnotMem, hepoch⟩
    rw [hgen] at hepoch
    rw [if_pos hepoch] at hempty
    exact hnotMem (hempty ▸ List.mem_cons_self)
  · rw [hgen, epoch_next]
    have := epoch_lt slot.generation
    omega

/-- `reset_id` gives the element another id. -/
theorem resetId_spec (hwf : c.Wf) (h : Tracks c ids cur) (hadmits : c.Admits (.resetId id))
    {id' : Id} (hreset : c.resetId id = .ok (id', c')) :
    c'.Wf ∧ Tracks c' (ids ++ [id'])
      (Function.update (Function.update cur id none) id' (cur id)) := by
  cases hdecode : c.decodeId id with
  | none =>
    rw [resetId, hdecode] at hreset
    cases hreset
  | some i =>
    obtain ⟨huse, hlast⟩ := hadmits i hdecode
    obtain ⟨slot, hslot, rfl, hcur⟩ := h.exists_slot hwf.length_lt hdecode huse
    rw [resetId, hdecode] at hreset
    obtain ⟨rfl, rfl⟩ := Prod.mk.inj (Except.ok.inj hreset)
    have hnext := epoch_next slot.generation
    rw [generation_eq hslot] at hlast
    have hlt := epoch_lt slot.generation
    have hne : epoch (slot.generation + generationStep) ≠ 0 := by omega
    let f (slot : Slot DataT) : Slot DataT :=
      { slot with generation := slot.generation + generationStep }
    have hget : (c.incGeneration i).slots[i]? = some (f slot) := getElem?_modify_self hslot
    -- the slot becomes free for a moment
    let c₁ : Container DataT := { slots := c.slots.modify i f, emptySlots := i :: c.emptySlots }
    have hwf₁ : c₁.Wf := hwf.free_slot hslot huse rfl (if_pos hne).symm
    have h₁ : Tracks c₁ ids (Function.update cur (makeId i slot.generation) none) :=
      h.free_slot hwf hslot huse rfl (if_pos hne).symm
    have hsame : SameBut i c₁ (c.incGeneration i) :=
      fun j hj ↦ ⟨rfl, by simp [c₁, incGeneration, hj]⟩
    have hgen : (c.incGeneration i).generation i = slot.generation + generationStep :=
      generation_eq hget
    have huse' : (c.incGeneration i).InUse i := ⟨huse.1, by rwa [hgen]⟩
    rw [hcur, encodeId, hgen]
    refine ⟨⟨hwf₁.length_lt, hwf.nodup, fun j hj ↦ hwf₁.free j (List.mem_cons_of_mem _ hj)⟩, ?_⟩
    exact h₁.occupy hwf₁.length_lt hwf₁.length_lt hsame hget huse' fun _ ↦
      ⟨congrArg epoch hgen, fun huse ↦ huse.1 List.mem_cons_self⟩

/-! ## Ids that were returned -/

variable {trace : List (Op DataT × Out DataT)} {op : Op DataT} {out : Out DataT}

theorem issued_cons : issued ((op, out) :: trace) = issued [(op, out)] ++ issued trace :=
  List.filterMap_append (l := [(op, out)])

/-- Only the id that is returned can become that of an element. -/
theorem track_eq_none (hid : ∀ id' ∈ issued [(op, out)], id ≠ id') (hnone : cur id = none) :
    track cur (op, out) id = none := by
  cases op with
  | create data type =>
    cases out with
    | id id' =>
      have hne : id ≠ id' := hid id' List.mem_cons_self
      exact (Function.update_of_ne hne _ _).trans hnone
    | data | nothing => exact hnone
  | erase id' | extract id' =>
    show Function.update cur id' none id = none
    rw [Function.update_apply, hnone, ite_self]
  | resetId id₁ =>
    cases out with
    | id id' =>
      have hne : id ≠ id' := hid id' List.mem_cons_self
      refine (Function.update_of_ne hne _ _).trans ?_
      rw [Function.update_apply, hnone, ite_self]
    | data | nothing => exact hnone

/-- An id that has been issued and is not that of an element stays so. -/
theorem foldl_track_eq_none (hnodup : (ids ++ issued trace).Nodup) (hid : id ∈ ids)
    (hnone : cur id = none) : trace.foldl track cur id = none := by
  induction trace generalizing ids cur with
  | nil => exact hnone
  | cons call trace ih =>
    obtain ⟨op, out⟩ := call
    rw [issued_cons, ← List.append_assoc] at hnodup
    refine ih hnodup (List.mem_append_left _ hid) (track_eq_none ?_ hnone)
    rintro id' hid' rfl
    exact List.disjoint_of_nodup_append (List.nodup_append.1 hnodup).1 hid hid'

/-- An id names a slot with an element if it is that of the element. -/
theorem Tracks.eq_some_iff (h : Tracks c ids cur) (hwf : c.Wf) :
    cur id = some a ↔ ∃ i, c.decodeId id = some i ∧ c.InUse i ∧ c.get id = some a := by
  constructor
  · intro hcur
    obtain ⟨i, slot, hslot, hid, huse, rfl⟩ := (h.current _ _).1 hcur
    rw [← generation_eq hslot] at hid
    have hdecode := (decodeId_eq_some hwf.length_lt).2 ⟨lt_length hslot, hid⟩
    exact ⟨i, hdecode, huse, by rw [get, hdecode, Option.bind_some, hslot, Option.map_some]⟩
  · rintro ⟨i, hdecode, huse, hget⟩
    obtain ⟨slot, hslot, -, hcur⟩ := h.exists_slot hwf.length_lt hdecode huse
    rw [get, hdecode, Option.bind_some, hslot, Option.map_some] at hget
    rw [hcur, hget]

/-- An id that was issued is that of the element, or it is not valid. -/
theorem Tracks.get_eq (h : Tracks c ids cur) (hwf : c.Wf) (hid : id ∈ ids) :
    c.get id = cur id := by
  cases hdecode : c.decodeId id with
  | none => rw [get, hdecode, h.eq_none hwf.length_lt hdecode, Option.bind_none]
  | some i =>
    obtain ⟨hi, hid'⟩ := (decodeId_eq_some hwf.length_lt).1 hdecode
    obtain ⟨j, g, hj, hid'', hepoch, hlt⟩ := h.issued id hid
    obtain ⟨rfl, rfl⟩ := makeId_inj (hi.trans hwf.length_lt) (hj.trans hwf.length_lt)
      (hid'.symm.trans hid'')
    rcases hlt hepoch with hlt | ⟨huse, -⟩
    · exact absurd hlt (lt_irrefl _)
    · obtain ⟨slot, hslot, -, hcur⟩ := h.exists_slot hwf.length_lt hdecode huse
      rw [get, hdecode, Option.bind_some, hslot, hcur, Option.map_some]

/-! ## Elements that go -/

variable [Inhabited DataT]

/-- `release` gives the slot the next generation and takes it to the free ones, unless its
generation has overflowed. -/
theorem release_eq (hslot : c.slots[i]? = some slot) : c.release i =
    { slots := c.slots.modify i fun slot ↦ ⟨slot.generation + generationStep, default⟩
      emptySlots := if epoch (slot.generation + generationStep) ≠ 0 then i :: c.emptySlots
        else c.emptySlots } := by
  have hgen : ∀ c' : Container DataT,
      c'.slots = c.slots.modify i (fun slot ↦ ⟨slot.generation + generationStep, default⟩) →
      c'.generation i = slot.generation + generationStep := by
    intro c' hslots
    exact generation_eq (hslots ▸ getElem?_modify_self hslot)
  have hmodify : ((c.incGeneration i).slots.modify i fun slot ↦ { slot with data := default }) =
      c.slots.modify i fun slot ↦ ⟨slot.generation + generationStep, default⟩ := by
    rw [incGeneration, List.modify_modify_eq]
    rfl
  rw [release, hgen _ hmodify]
  simp only [and_not_typeMask_ne_zero, hmodify]
  split_ifs <;> rfl

/-- `release` of a slot that has an element. -/
theorem release_spec (hwf : c.Wf) (h : Tracks c ids cur) (hslot : c.slots[i]? = some slot)
    (huse : c.InUse i) : (c.release i).Wf ∧
      Tracks (c.release i) ids (Function.update cur (makeId i slot.generation) none) := by
  rw [release_eq hslot]
  exact ⟨hwf.free_slot hslot huse rfl rfl, h.free_slot hwf hslot huse rfl rfl⟩

theorem erase_spec (hwf : c.Wf) (h : Tracks c ids cur) (hadmits : c.Admits (.erase id)) :
    (c.erase id).Wf ∧ Tracks (c.erase id) ids (Function.update cur id none) := by
  rw [erase]
  cases hdecode : c.decodeId id with
  | none =>
    have hnone := h.eq_none hwf.length_lt hdecode
    rw [← hnone, Function.update_eq_self]
    exact ⟨hwf, h⟩
  | some i =>
    have huse := hadmits i hdecode
    obtain ⟨slot, hslot, rfl, -⟩ := h.exists_slot hwf.length_lt hdecode huse
    exact release_spec hwf h hslot huse

theorem extract_spec (hwf : c.Wf) (h : Tracks c ids cur) (hadmits : c.Admits (.extract id))
    {data : DataT} (hextract : c.extract id = .ok (data, c')) :
    c'.Wf ∧ Tracks c' ids (Function.update cur id none) ∧ cur id = some data := by
  rw [extract] at hextract
  cases hdecode : c.decodeId id with
  | none =>
    rw [hdecode] at hextract
    cases hextract
  | some i =>
    have huse := hadmits i hdecode
    obtain ⟨slot, hslot, rfl, hcur⟩ := h.exists_slot hwf.length_lt hdecode huse
    rw [hdecode] at hextract
    obtain ⟨rfl, rfl⟩ := Prod.mk.inj (Except.ok.inj hextract)
    obtain ⟨hwf', h'⟩ := release_spec hwf h hslot huse
    refine ⟨hwf', h', ?_⟩
    rw [hcur, hslot]
    rfl

/-! ## Runs -/

/-- A call that is admitted and returns. -/
def Call (c : Container DataT) (op : Op DataT) (out : Out DataT) (c' : Container DataT) : Prop :=
  c.Admits op ∧ c.step op = .ok (out, c')

/-- Every call keeps the invariant, with the ids and elements after it. -/
theorem Call.tracks (hcall : Call c op out c') (hwf : c.Wf) (h : Tracks c ids cur) :
    c'.Wf ∧ Tracks c' (ids ++ issued [(op, out)]) (track cur (op, out)) := by
  obtain ⟨hadmits, hstep⟩ := hcall
  cases op with
  | create data type =>
    obtain ⟨id, c₁, hcreate, hspec⟩ := create_spec hwf h hadmits
    simp only [step, hcreate, ok_bind, pure_eq_ok, Except.ok.injEq, Prod.mk.injEq] at hstep
    obtain ⟨rfl, rfl⟩ := hstep
    exact hspec
  | erase id =>
    simp only [step, pure_eq_ok, Except.ok.injEq, Prod.mk.injEq] at hstep
    obtain ⟨rfl, rfl⟩ := hstep
    simpa [issued, track] using erase_spec hwf h hadmits
  | extract id =>
    obtain ⟨⟨data, c₁⟩, hextract, hret⟩ := bind_eq_ok.1 hstep
    obtain ⟨rfl, rfl⟩ := Prod.mk.inj (Except.ok.inj hret)
    obtain ⟨hwf', h', -⟩ := extract_spec hwf h hadmits hextract
    simpa [issued, track] using ⟨hwf', h'⟩
  | resetId id =>
    obtain ⟨⟨id', c₁⟩, hreset, hret⟩ := bind_eq_ok.1 hstep
    obtain ⟨rfl, rfl⟩ := Prod.mk.inj (Except.ok.inj hret)
    exact resetId_spec hwf h hadmits hreset

/-- What calls keep is kept by a run. -/
theorem runs_tracks (hruns : Runs Call c trace c') (hwf : c.Wf) (h : Tracks c ids cur) :
    c'.Wf ∧ Tracks c' (ids ++ issued trace) (trace.foldl track cur) := by
  induction hruns generalizing ids cur with
  | nil c => exact ⟨hwf, by simpa [issued] using h⟩
  | @cons c c₁ c' op out trace hcall hruns ih =>
    obtain ⟨hwf₁, h₁⟩ := hcall.tracks hwf h
    rw [issued_cons, ← List.append_assoc]
    exact ih hwf₁ h₁

/-- In every run whose calls are admitted, the ids that are returned are not zero and not equal, an
id that was returned is valid as long as it is that of an element and never again, and an id names a
slot with an element if and only if it is that of the element. -/
theorem runs_ids {trace : List (Op DataT × Out DataT)} {c : Container DataT}
    (hruns : Runs Call {} trace c) :
    (issued trace).Nodup ∧ (∀ id ∈ issued trace, id ≠ 0) ∧
      (∀ id ∈ issued trace, c.get id = current trace id) ∧
      (∀ id a, current trace id = some a ↔
        ∃ i, c.decodeId id = some i ∧ c.InUse i ∧ c.get id = some a) ∧
      ∀ before after, trace = before ++ after → ∀ id ∈ issued before, current before id = none →
        current trace id = none ∧ c.get id = none := by
  obtain ⟨hwf, h⟩ := runs_tracks hruns Wf.init Tracks.init
  rw [List.nil_append] at h
  refine ⟨h.nodup, ?_, fun id hid ↦ h.get_eq hwf hid, fun id a ↦ h.eq_some_iff hwf, ?_⟩
  · intro id hid
    obtain ⟨i, g, hi, rfl, hepoch, -⟩ := h.issued id hid
    exact makeId_ne_zero (hi.trans hwf.length_lt) hepoch
  · rintro before after rfl id hid hnone
    have hissued : issued (before ++ after) = issued before ++ issued after :=
      List.filterMap_append
    have hnone' : current (before ++ after) id = none := by
      rw [current, List.foldl_append]
      exact foldl_track_eq_none (hissued ▸ h.nodup) hid hnone
    refine ⟨hnone', ?_⟩
    rw [h.get_eq hwf (hissued ▸ List.mem_append_left _ hid)]
    exact hnone'

instance : Decidable (c.InUse i) := inferInstanceAs (Decidable (_ ∧ _))

/-- A slot is used again with another id and another type. -/
theorem runs_ids_reuse :
    let trace : List (Op ℕ × Out ℕ) := [(.create 5 0, .id 0x100), (.resetId 0x100, .id 0x200),
      (.erase 0x200, .nothing), (.create 7 1, .id 0x301)]
    (issued trace).Nodup ∧ (∀ id ∈ issued trace, id ≠ 0) := by
  intro trace
  have hruns : Runs Call {} trace ⟨[⟨0x301, 7⟩], []⟩ := by
    have hcreate : Call {} (.create 5 0) (.id 0x100) ⟨[⟨0x100, 5⟩], []⟩ :=
      ⟨fun _ ↦ by decide, rfl⟩
    have hreset : Call ⟨[⟨0x100, 5⟩], []⟩ (.resetId 0x100) (.id 0x200) ⟨[⟨0x200, 5⟩], []⟩ := by
      refine ⟨fun slotId h ↦ ?_, rfl⟩
      obtain rfl : 0 = slotId := Option.some.inj h
      decide
    have herase : Call ⟨[⟨0x200, 5⟩], []⟩ (.erase 0x200) .nothing ⟨[⟨0x300, 0⟩], [0]⟩ := by
      refine ⟨fun slotId h ↦ ?_, rfl⟩
      obtain rfl : 0 = slotId := Option.some.inj h
      decide
    refine .cons hcreate (.cons hreset (.cons herase ?_))
    exact .cons ⟨fun h ↦ absurd h (by decide), rfl⟩ (.nil _)
  exact ⟨(runs_ids hruns).1, (runs_ids hruns).2.1⟩

/-! ## The last generation -/

theorem makeId_zero (n : ℕ) : makeId 0 (UInt32.ofNat n) = UInt64.ofNat (n % 2 ^ 32) := by
  rw [← UInt64.toNat_inj, toNat_makeId (by decide), UInt32.toNat_ofNat', UInt64.toNat_ofNat']
  omega

/-- The element of the only slot gets its next id. -/
theorem step_resetId {k : ℕ} (hk : k + 1 < 2 ^ 24) (data : ℕ) :
    step ⟨[⟨UInt32.ofNat (256 * (k + 1)), data⟩], []⟩
        (.resetId (UInt64.ofNat (256 * (k + 1)))) =
      .ok (.id (UInt64.ofNat (256 * (k + 2) % 2 ^ 32)),
        ⟨[⟨UInt32.ofNat (256 * (k + 2)), data⟩], []⟩) := by
  have hdecode : decodeId ⟨[⟨UInt32.ofNat (256 * (k + 1)), data⟩], []⟩
      (UInt64.ofNat (256 * (k + 1))) = some 0 := by
    refine (decodeId_eq_some ?_).2 ⟨Nat.one_pos, ?_⟩
    · show 1 < 2147483648
      norm_num
    have hgeneration : generation ⟨[⟨UInt32.ofNat (256 * (k + 1)), data⟩], []⟩ 0 =
        UInt32.ofNat (256 * (k + 1)) := rfl
    rw [encodeId, hgeneration, makeId_zero, Nat.mod_eq_of_lt (by omega)]
  have hnext : UInt32.ofNat (256 * (k + 1)) + generationStep = UInt32.ofNat (256 * (k + 2)) := by
    rw [show 256 * (k + 2) = 256 * (k + 1) + 256 by ring, UInt32.ofNat_add]
    rfl
  have hinc : incGeneration ⟨[⟨UInt32.ofNat (256 * (k + 1)), data⟩], []⟩ 0 =
      ⟨[⟨UInt32.ofNat (256 * (k + 2)), data⟩], []⟩ := by
    rw [← hnext]
    rfl
  have hgeneration : generation ⟨[⟨UInt32.ofNat (256 * (k + 2)), data⟩], []⟩ 0 =
      UInt32.ofNat (256 * (k + 2)) := rfl
  simp only [step, resetId, hdecode, hinc, ok_bind, pure_eq_ok]
  rw [encodeId, hgeneration, makeId_zero]

/-- `reset_id` one time after another, each of the id that the one before it returned. -/
def resets (k n : ℕ) : List (Op ℕ) :=
  (List.range' k n).map fun k ↦ .resetId (UInt64.ofNat (256 * (k + 1)))

theorem run_resets {k n : ℕ} (hn : k + n < 2 ^ 24) (data : ℕ) :
    runProgram step (resets k n) ⟨[⟨UInt32.ofNat (256 * (k + 1)), data⟩], []⟩ =
      .ok ((List.range' k n).map fun k ↦ .id (UInt64.ofNat (256 * (k + 2) % 2 ^ 32)),
        ⟨[⟨UInt32.ofNat (256 * (k + n + 1)), data⟩], []⟩) := by
  induction n generalizing k with
  | zero => rfl
  | succ n ih =>
    have ih := ih (show k + 1 + n < 2 ^ 24 by omega)
    rw [resets] at ih ⊢
    simp only [List.range'_succ, List.map_cons, runProgram,
      step_resetId (by omega : k + 1 < 2 ^ 24), ok_bind, ih, pure_eq_ok]
    rw [show k + 1 + n = k + (n + 1) by ring]

theorem run_create_resets {n : ℕ} (hn : n + 1 = 2 ^ 24 - 1) :
    ∃ outs c, runProgram step (.create 0 0 :: resets 0 (n + 1)) {} = .ok (outs, c) ∧
      .id 0 ∈ outs := by
  have hcreate : step ({} : Container ℕ) (.create 0 0) =
      .ok (.id 256, ⟨[⟨UInt32.ofNat (256 * (0 + 1)), 0⟩], []⟩) := rfl
  have hresets := run_resets (show 0 + (n + 1) < 2 ^ 24 by omega) 0
  have hlast : 256 * (n + 2) % 2 ^ 32 = 0 := by omega
  refine ⟨_, _, by simp only [runProgram, hcreate, ok_bind, hresets, pure_eq_ok]; rfl, ?_⟩
  refine List.mem_cons_of_mem _ (List.mem_map.2 ⟨n, List.mem_range'_1.2 (by omega), ?_⟩)
  rw [hlast]
  rfl

/-- An element gets the id 0 when it has been given a new id for every generation. -/
theorem reset_id_zero :
    ∃ outs c, runProgram step (.create 0 0 :: resets 0 (2 ^ 24 - 1)) {} = .ok (outs, c) ∧
      .id 0 ∈ outs := by
  obtain ⟨n, hn⟩ : ∃ n, 2 ^ 24 - 1 = n + 1 := ⟨2 ^ 24 - 2, by norm_num⟩
  rw [hn]
  exact run_create_resets hn.symm

end Container

end PxcCore
