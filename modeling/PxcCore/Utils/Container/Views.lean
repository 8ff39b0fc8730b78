import PxcCore.Utils.Container

/-!
# Views of a container

`ids`, `size`, `empty` and `for_each` take every slot that is not in `empty_slots_` for one that has
an element.
-/

namespace PxcCore.Container

open Lib

variable {DataT : Type} {c c' : Container DataT} {id : Id} {i j : ℕ} {g : UInt32}
  {slot : Slot DataT} {a : DataT}

/-! ## Definitions -/

/-- `is_bad` -/
def isBad (c : Container DataT) : List Bool :=
  c.emptySlots.foldl (fun isBad id ↦ isBad.set id true) (List.replicate c.slots.length false)

/-- `ids` -/
def ids (c : Container DataT) : List Id :=
  (List.range c.slots.length).filterMap fun i ↦
    if c.isBad[i]? = some false then some (c.encodeId i) else none

/-- The calls that `for_each` makes, or `none` if `get` gives a null pointer for one of the ids. -/
def forEach (c : Container DataT) : Option (List (Id × DataT)) :=
  c.ids.mapM fun id ↦ (c.get id).map fun data ↦ (id, data)

/-- `size` -/
def size (c : Container DataT) : Except String ℕ :=
  if c.emptySlots.length ≤ c.slots.length then .ok (c.slots.length - c.emptySlots.length)
  else .error "CHECK(empty_slots_.size() <= slots_.size())"

/-- `empty` -/
def empty (c : Container DataT) : Except String Bool := do
  return decide ((← c.size) = 0)

/-- What a call must not do: release the last generation of a slot, or a slot that is free already,
or make one slot more than an `int32` can count. -/
def Keeps (c : Container DataT) : Op DataT → Prop
  | .create _ _ => c.emptySlots = [] → c.slots.length < 2 ^ 31 - 1
  | .erase id | .extract id => ∀ slotId, c.decodeId id = some slotId →
      (slotId ∈ c.emptySlots ↔ epoch (c.generation slotId) = 0xFFFFFF)
  | .resetId _ => True

/-- The views are those of these elements. -/
structure Views (c : Container DataT) (current : Id → Option DataT) : Prop where
  nodup : c.ids.Nodup
  mem_ids : ∀ id, id ∈ c.ids ↔ current id ≠ none
  size : c.size = .ok {id | current id ≠ none}.ncard
  empty : ∃ isEmpty, c.empty = .ok isEmpty ∧ (isEmpty = true ↔ ∀ id, current id = none)
  forEach : ∃ calls, c.forEach = some calls ∧ calls.map Prod.fst = c.ids ∧
    ∀ call ∈ calls, current call.1 = some call.2

/-! ## Elements in slots -/

/-- The element of a slot that has this generation. -/
def liveAt (c : Container DataT) (i : ℕ) (g : UInt32) : Option DataT :=
  (c.slots[i]?).bind fun slot ↦
    if i ∈ c.emptySlots ∨ g ≠ slot.generation then none else some slot.data

/-- The element that has an id. -/
def live (c : Container DataT) (id : Id) : Option DataT :=
  c.liveAt (id >>> 32).toNat id.toUInt32

/-- The slots can be counted, and each is at most once in the list of free ones. -/
structure Counted (c : Container DataT) : Prop where
  length_lt : c.slots.length < maxSlots
  nodup : c.emptySlots.Nodup
  free_lt : ∀ i ∈ c.emptySlots, i < c.slots.length

theorem counted_init : Counted ({} : Container DataT) where
  length_lt := by simp [maxSlots]
  nodup := List.nodup_nil
  free_lt := by simp

theorem liveAt_eq_some : c.liveAt i g = some a ↔
    ∃ slot, c.slots[i]? = some slot ∧ i ∉ c.emptySlots ∧ g = slot.generation ∧ slot.data = a := by
  rw [liveAt, Option.bind_eq_some_iff]
  refine exists_congr fun slot ↦ and_congr_right fun _ ↦ ?_
  split_ifs with h
  · constructor
    · intro heq
      cases heq
    · rintro ⟨hfree, hg, -⟩
      exact (h.elim hfree fun hne ↦ hne hg).elim
  · obtain ⟨hfree, hg⟩ := not_or.1 h
    rw [Option.some.injEq]
    exact ⟨fun ha ↦ ⟨hfree, not_not.1 hg, ha⟩, fun ha ↦ ha.2.2⟩

theorem live_makeId (hi : i < maxSlots) : c.live (makeId i g) = c.liveAt i g := by
  obtain ⟨hi', hg⟩ := (eq_makeId_iff hi).1 rfl
  rw [live, hi', hg]

/-- The ids with an element are those of the slots that are not free. -/
theorem Counted.live_ne_none (h : c.Counted) :
    c.live id ≠ none ↔ ∃ i < c.slots.length, i ∉ c.emptySlots ∧ id = c.encodeId i := by
  rw [Option.ne_none_iff_exists']
  constructor
  · rintro ⟨a, ha⟩
    obtain ⟨slot, hslot, hfree, hg, -⟩ := liveAt_eq_some.1 ha
    have hi := lt_length hslot
    refine ⟨_, hi, hfree, (eq_makeId_iff (hi.trans h.length_lt)).2 ⟨rfl, ?_⟩⟩
    rw [hg, generation_eq hslot]
  · rintro ⟨i, hi, hfree, rfl⟩
    have hslot := List.getElem?_eq_getElem hi
    rw [encodeId, live_makeId (hi.trans h.length_lt), generation_eq hslot]
    exact ⟨_, liveAt_eq_some.2 ⟨_, hslot, hfree, rfl, rfl⟩⟩

/-! ## Views -/

theorem getElem?_foldl_set {l : List ℕ} {bs : List Bool} :
    (l.foldl (fun bs i ↦ bs.set i true) bs)[i]? =
      if i ∈ l then (bs[i]?).map fun _ ↦ true else bs[i]? := by
  induction l generalizing bs with
  | nil => rfl
  | cons j l ih =>
    rw [List.foldl_cons, ih, List.getElem?_set]
    by_cases hij : j = i
    · subst hij
      by_cases hlt : j < bs.length
      · simp [hlt]
      · simp [hlt]
    · simp [hij, Ne.symm hij]

/-- `ids` takes the slots that are not free. -/
theorem ids_eq (c : Container DataT) :
    c.ids = ((List.range c.slots.length).filter fun i ↦ i ∉ c.emptySlots).map c.encodeId := by
  rw [ids, ← List.filterMap_eq_map, List.filterMap_filter]
  refine List.filterMap_congr fun i hi ↦ ?_
  rw [isBad, getElem?_foldl_set, List.getElem?_replicate_of_lt (List.mem_range.1 hi)]
  by_cases hfree : i ∈ c.emptySlots
  · simp [hfree]
  · simp [hfree]

theorem mem_ids : id ∈ c.ids ↔ ∃ i < c.slots.length, i ∉ c.emptySlots ∧ id = c.encodeId i := by
  rw [ids_eq, List.mem_map]
  refine exists_congr fun i ↦ ?_
  rw [List.mem_filter, List.mem_range, decide_eq_true_iff, and_assoc, eq_comm (a := id)]

theorem Counted.nodup_ids (h : c.Counted) : c.ids.Nodup := by
  rw [ids_eq]
  refine List.Nodup.map_on ?_ (List.nodup_range.filter _)
  intro i hi j hj heq
  have hlt {k : ℕ} (hk : k ∈ (List.range c.slots.length).filter fun i ↦ i ∉ c.emptySlots) :
      k < maxSlots := (List.mem_range.1 (List.mem_of_mem_filter hk)).trans h.length_lt
  exact (makeId_inj (hlt hi) (hlt hj) heq).1

/-- `size` counts the slots that are not free. -/
theorem Counted.size_eq (h : c.Counted) : c.size = .ok c.ids.length := by
  have hperm : ((List.range c.slots.length).filter fun i ↦ i ∈ c.emptySlots).Perm
      c.emptySlots := by
    refine (List.perm_ext_iff_of_nodup (List.nodup_range.filter _) h.nodup).2 fun i ↦ ?_
    simpa using h.free_lt i
  have hlength := List.length_eq_length_filter_add (l := List.range c.slots.length)
    fun i ↦ decide (i ∈ c.emptySlots)
  rw [hperm.length_eq, List.length_range] at hlength
  have hle : c.emptySlots.length ≤ c.slots.length := by omega
  rw [Container.size, if_pos hle, ids_eq, List.length_map]
  simp only [decide_not]
  exact congrArg Except.ok (by omega)

/-- `get` gives the element of an id. -/
theorem Counted.get_eq (h : c.Counted) (ha : c.live id = some a) : c.get id = some a := by
  obtain ⟨i, hi, hfree, rfl⟩ := h.live_ne_none.1 (Option.ne_none_iff_exists'.2 ⟨a, ha⟩)
  rw [encodeId, live_makeId (hi.trans h.length_lt), liveAt_eq_some] at ha
  obtain ⟨slot, hslot, -, -, rfl⟩ := ha
  rw [get, (decodeId_eq_some h.length_lt).2 ⟨hi, rfl⟩, Option.bind_some, hslot, Option.map_some]

theorem Counted.mapM_get (h : c.Counted) {l : List Id} (hl : ∀ id ∈ l, c.live id ≠ none) :
    ∃ calls, (l.mapM fun id ↦ (c.get id).map fun data ↦ (id, data)) = some calls ∧
      calls.map Prod.fst = l ∧ ∀ call ∈ calls, c.live call.1 = some call.2 := by
  induction l with
  | nil => exact ⟨[], rfl, rfl, by simp⟩
  | cons id l ih =>
    obtain ⟨a, ha⟩ := Option.ne_none_iff_exists'.1 (hl id List.mem_cons_self)
    obtain ⟨calls, hcalls, hfst, hdata⟩ := ih fun id hid ↦ hl id (List.mem_cons_of_mem _ hid)
    refine ⟨(id, a) :: calls, ?_, by rw [List.map_cons, hfst], ?_⟩
    · rw [List.mapM_cons, h.get_eq ha, hcalls]
      rfl
    · intro call hcall
      rcases List.mem_cons.1 hcall with rfl | hcall
      · exact ha
      · exact hdata call hcall

/-- The views show the elements in the slots. -/
theorem Counted.views (h : c.Counted) : c.Views c.live := by
  have hmem (id : Id) : id ∈ c.ids ↔ c.live id ≠ none := mem_ids.trans h.live_ne_none.symm
  refine ⟨h.nodup_ids, hmem, ?_, ?_, h.mapM_get fun id ↦ (hmem id).1⟩
  · have hset : {id | c.live id ≠ none} = c.ids.toFinset := by
      ext id
      simp [hmem]
    rw [h.size_eq, hset, Set.ncard_coe_finset, List.toFinset_card_of_nodup h.nodup_ids]
  · refine ⟨decide (c.ids.length = 0), ?_, ?_⟩
    · rw [Container.empty, h.size_eq]
      rfl
    · rw [decide_eq_true_iff, List.length_eq_zero_iff, List.eq_nil_iff_forall_not_mem]
      exact forall_congr' fun id ↦ by rw [hmem, not_not]

/-! ## Calls -/

variable {cur : Id → Option DataT}

/-- The elements of all slots but one are the same. -/
theorem SameBut.live_eq (h : SameBut i c c') (hi : (id >>> 32).toNat ≠ i) :
    c'.live id = c.live id := by
  rw [live, live, liveAt, liveAt, (h _ hi).1]
  simp only [(h _ hi).2]

/-- A slot without an element gets one. -/
theorem live_occupy (hsame : SameBut i c c') (hi : i < maxSlots)
    (hnone : ∀ g, c.liveAt i g = none) (hslot : c'.slots[i]? = some ⟨g, a⟩)
    (hfree : i ∉ c'.emptySlots) :
    c'.live = Function.update c.live (makeId i g) (some a) := by
  have hnew : c'.live (makeId i g) = some a := by
    rw [live_makeId hi]
    exact liveAt_eq_some.2 ⟨_, hslot, hfree, rfl, rfl⟩
  rw [← hnew]
  refine eq_update_makeId hi (fun id hhigh ↦ hsame.live_eq hhigh) fun id hhigh hg ↦ ?_
  rw [live, live, hhigh, hnone, liveAt, hslot]
  exact if_pos (.inr hg)

/-- A slot loses its element, if it has one. -/
theorem live_vacate (hsame : SameBut i c c') (hi : i < maxSlots)
    (hnone : ∀ g, c'.liveAt i g = none) (hold : ∀ g' ≠ g, c.liveAt i g' = none) :
    c'.live = Function.update c.live (makeId i g) none := by
  have hnew : c'.live (makeId i g) = none := by rw [live_makeId hi, hnone]
  rw [← hnew]
  refine eq_update_makeId hi (fun id hhigh ↦ hsame.live_eq hhigh) fun id hhigh hg ↦ ?_
  rw [live, live, hhigh, hnone, hold _ hg]

theorem liveAt_of_mem (h : i ∈ c.emptySlots) (g : UInt32) : c.liveAt i g = none := by
  rw [liveAt, Option.bind_eq_none_iff]
  intro slot _
  exact if_pos (.inl h)

theorem liveAt_of_ne (hslot : c.slots[i]? = some slot) (hg : g ≠ slot.generation) :
    c.liveAt i g = none := by
  rw [liveAt, hslot]
  exact if_pos (.inr hg)

/-- `create` -/
theorem Counted.create (h : c.Counted) {data : DataT} {type : UInt8}
    (hkeeps : c.Keeps (.create data type)) :
    ∃ id c', c.create data type = .ok (id, c') ∧ c'.Counted ∧
      c'.live = Function.update c.live id (some data) := by
  obtain ⟨i, g, c', hcreate, hsame, hget, htail, hcases⟩ := create_eq h.free_lt hkeeps data type
  refine ⟨_, c', hcreate, ?_⟩
  rcases hcases with ⟨hempty, hlength, -⟩ | ⟨hempty, rfl, hlength, -⟩
  · obtain ⟨hnotMem, hnodup⟩ := List.nodup_cons.1 (hempty ▸ h.nodup)
    have hmem : i ∈ c.emptySlots := hempty ▸ List.mem_cons_self
    refine ⟨⟨hlength ▸ h.length_lt, hnodup, fun j hj ↦ ?_⟩, ?_⟩
    · exact hlength ▸ h.free_lt j (hempty ▸ List.mem_cons_of_mem _ hj)
    · exact live_occupy hsame ((h.free_lt i hmem).trans h.length_lt) (liveAt_of_mem hmem) hget
        hnotMem
  · have hnil : c'.emptySlots = [] := by rw [htail, hempty, List.tail_nil]
    refine ⟨⟨?_, hnil ▸ List.nodup_nil, fun j hj ↦ ?_⟩, ?_⟩
    · have hlt : c.slots.length < 2 ^ 31 - 1 := hkeeps hempty
      rw [hlength, maxSlots]
      omega
    · rw [hnil] at hj
      cases hj
    · refine live_occupy hsame h.length_lt (fun g ↦ ?_) hget (hnil ▸ List.not_mem_nil)
      rw [liveAt, List.getElem?_eq_none le_rfl, Option.bind_none]

/-- An id that names no slot is not that of an element. -/
theorem Counted.live_eq_none (h : c.Counted) (hdecode : c.decodeId id = none) :
    c.live id = none := by
  by_contra hne
  obtain ⟨i, hi, -, hid⟩ := h.live_ne_none.1 hne
  have hsome := (decodeId_eq_some h.length_lt).2 ⟨hi, hid⟩
  rw [hdecode] at hsome
  cases hsome

/-- An id names the slot that has its generation. -/
theorem Counted.exists_slot (h : c.Counted) (hdecode : c.decodeId id = some i) :
    ∃ slot, c.slots[i]? = some slot ∧ id = makeId i slot.generation := by
  obtain ⟨hi, hid⟩ := (decodeId_eq_some h.length_lt).1 hdecode
  have hslot := List.getElem?_eq_getElem hi
  rw [encodeId, generation_eq hslot] at hid
  exact ⟨_, hslot, hid⟩

/-- `reset_id` -/
theorem Counted.resetId (h : c.Counted) {id' : Id} (hreset : c.resetId id = .ok (id', c')) :
    c'.Counted ∧
      c'.live = Function.update (Function.update c.live id none) id' (c.live id) := by
  cases hdecode : c.decodeId id with
  | none =>
    rw [Container.resetId, hdecode] at hreset
    cases hreset
  | some i =>
    obtain ⟨slot, hslot, rfl⟩ := h.exists_slot hdecode
    have hi : i < maxSlots := (lt_length hslot).trans h.length_lt
    rw [Container.resetId, hdecode] at hreset
    obtain ⟨rfl, rfl⟩ := Prod.mk.inj (Except.ok.inj hreset)
    have hget : (c.incGeneration i).slots[i]? =
        some ⟨slot.generation + generationStep, slot.data⟩ := getElem?_modify_self hslot
    have hlength : (c.incGeneration i).slots.length = c.slots.length := List.length_modify ..
    have hsame : SameBut i c (c.incGeneration i) := sameBut_modify fun j hj ↦ Iff.rfl
    refine ⟨⟨hlength ▸ h.length_lt, h.nodup, fun j hj ↦ hlength ▸ h.free_lt j hj⟩, ?_⟩
    rw [encodeId, generation_eq hget, live_makeId hi]
    -- the slot has no element for a moment
    let c₁ : Container DataT := { c with emptySlots := i :: c.emptySlots }
    have hsame₁ : SameBut i c c₁ := fun j hj ↦ ⟨rfl, by rw [List.mem_cons, or_iff_right hj]⟩
    have hlive₁ : c₁.live = Function.update c.live (makeId i slot.generation) none :=
      live_vacate hsame₁ hi (liveAt_of_mem List.mem_cons_self) fun g' hg' ↦ liveAt_of_ne hslot hg'
    rw [← hlive₁]
    by_cases hfree : i ∈ c.emptySlots
    · have hnone := liveAt_of_mem (c := c.incGeneration i) hfree
      rw [liveAt_of_mem hfree]
      refine live_vacate (fun j hj ↦ ?_) hi hnone fun g' _ ↦ liveAt_of_mem List.mem_cons_self g'
      exact ⟨(hsame j hj).1, by rw [List.mem_cons, or_iff_right hj]; rfl⟩
    · rw [liveAt_eq_some.2 ⟨slot, hslot, hfree, rfl, rfl⟩]
      refine live_occupy (fun j hj ↦ ?_) hi (liveAt_of_mem List.mem_cons_self) hget hfree
      exact ⟨(hsame j hj).1, by rw [List.mem_cons, or_iff_right hj]; rfl⟩

variable [Inhabited DataT]

/-- `release` -/
theorem Counted.release (h : c.Counted) (hslot : c.slots[i]? = some slot)
    (hkeeps : i ∈ c.emptySlots ↔ epoch slot.generation = 0xFFFFFF) :
    (c.release i).Counted ∧
      (c.release i).live = Function.update c.live (makeId i slot.generation) none := by
  have hi := lt_length hslot
  have hnext := epoch_next slot.generation
  have hlt := epoch_lt slot.generation
  have hiff : epoch (slot.generation + generationStep) ≠ 0 ↔ i ∉ c.emptySlots := by
    rw [hkeeps]
    omega
  rw [release_eq hslot]
  simp only [hiff, ite_not]
  have hmem : i ∈ if i ∈ c.emptySlots then c.emptySlots else i :: c.emptySlots := by
    split_ifs with hfree
    · exact hfree
    · exact List.mem_cons_self
  refine ⟨⟨?_, ?_, ?_⟩, ?_⟩
  · simpa using h.length_lt
  · dsimp only
    split_ifs with hfree
    · exact h.nodup
    · exact List.nodup_cons.2 ⟨hfree, h.nodup⟩
  · intro j hj
    dsimp only at hj ⊢
    rw [List.length_modify]
    split_ifs at hj with hfree
    · exact h.free_lt j hj
    · rcases List.mem_cons.1 hj with rfl | hj
      · exact hi
      · exact h.free_lt j hj
  · refine live_vacate (sameBut_modify fun j hj ↦ ?_) (hi.trans h.length_lt) (liveAt_of_mem hmem)
      fun g' hg' ↦ liveAt_of_ne hslot hg'
    split_ifs
    · exact Iff.rfl
    · rw [List.mem_cons, or_iff_right hj]

theorem Counted.erase (h : c.Counted) (hkeeps : c.Keeps (.erase id)) :
    (c.erase id).Counted ∧ (c.erase id).live = Function.update c.live id none := by
  rw [Container.erase]
  cases hdecode : c.decodeId id with
  | none =>
    rw [← h.live_eq_none hdecode, Function.update_eq_self]
    exact ⟨h, rfl⟩
  | some i =>
    obtain ⟨slot, hslot, rfl⟩ := h.exists_slot hdecode
    exact h.release hslot (generation_eq hslot ▸ hkeeps i hdecode)

theorem extract_eq {data : DataT} (hextract : c.extract id = .ok (data, c')) :
    c' = c.erase id := by
  rw [extract] at hextract
  rw [Container.erase]
  cases hdecode : c.decodeId id with
  | none =>
    rw [hdecode] at hextract
    cases hextract
  | some i =>
    rw [hdecode] at hextract
    exact (Prod.mk.inj (Except.ok.inj hextract)).2.symm

/-! ## Runs -/

variable {op : Op DataT} {out : Out DataT} {trace : List (Op DataT × Out DataT)}

/-- A call that keeps the views right and returns. -/
def KeepingCall (c : Container DataT) (op : Op DataT) (out : Out DataT) (c' : Container DataT) :
    Prop :=
  c.Keeps op ∧ c.step op = .ok (out, c')

/-- The slots have the elements after every call. -/
theorem KeepingCall.live (hcall : KeepingCall c op out c') (h : c.Counted) :
    c'.Counted ∧ c'.live = track c.live (op, out) := by
  obtain ⟨hkeeps, hstep⟩ := hcall
  cases op with
  | create data type =>
    obtain ⟨id, c₁, hcreate, hspec⟩ := h.create hkeeps
    simp only [step, hcreate, ok_bind, pure_eq_ok, Except.ok.injEq, Prod.mk.injEq] at hstep
    obtain ⟨rfl, rfl⟩ := hstep
    exact hspec
  | erase id =>
    simp only [step, pure_eq_ok, Except.ok.injEq, Prod.mk.injEq] at hstep
    obtain ⟨rfl, rfl⟩ := hstep
    exact h.erase hkeeps
  | extract id =>
    obtain ⟨⟨data, c₁⟩, hextract, hret⟩ := bind_eq_ok.1 hstep
    obtain ⟨rfl, rfl⟩ := Prod.mk.inj (Except.ok.inj hret)
    rw [extract_eq hextract]
    exact h.erase hkeeps
  | resetId id =>
    obtain ⟨⟨id', c₁⟩, hreset, hret⟩ := bind_eq_ok.1 hstep
    obtain ⟨rfl, rfl⟩ := Prod.mk.inj (Except.ok.inj hret)
    exact h.resetId hreset

theorem runs_live (hruns : Runs KeepingCall c trace c') (h : c.Counted) :
    c'.Counted ∧ c'.live = trace.foldl track c.live := by
  induction hruns with
  | nil c => exact ⟨h, rfl⟩
  | cons hcall _ ih =>
    obtain ⟨h₁, hlive⟩ := hcall.live h
    rw [List.foldl_cons, ← hlive]
    exact ih h₁

/-- In every run whose calls keep the free slots in order, `size` is the number of elements, `ids`
has the id of each element once and nothing else, `empty` says if there is none, and `for_each`
gives each element once with its data. -/
theorem runs_views {trace : List (Op DataT × Out DataT)} {c : Container DataT}
    (hruns : Runs KeepingCall {} trace c) : c.Views (current trace) := by
  obtain ⟨h, hlive⟩ := runs_live hruns counted_init
  have hnone : ({} : Container DataT).live = fun _ ↦ none := rfl
  rw [hnone] at hlive
  rw [current, ← hlive]
  exact h.views

/-- One of two elements is erased. -/
theorem runs_views_two :
    let trace : List (Op ℕ × Out ℕ) :=
      [(.create 5 0, .id 0x100), (.create 7 0, .id 0x100000100), (.erase 0x100, .nothing)]
    Views ⟨[⟨0x200, 0⟩, ⟨0x100, 7⟩], [0]⟩ (current trace) := by
  intro trace
  have hruns : Runs KeepingCall {} trace ⟨[⟨0x200, 0⟩, ⟨0x100, 7⟩], [0]⟩ := by
    refine .cons ⟨fun _ ↦ by decide, rfl⟩ (.cons ⟨fun _ ↦ by decide, rfl⟩ (.cons ?_ (.nil _)))
    refine ⟨fun slotId h ↦ ?_, rfl⟩
    obtain rfl : 0 = slotId := Option.some.inj h
    decide
  exact runs_views hruns

/-! ## A slot whose generations are used up -/

/-- The element of the only slot goes with the last generation, and the slot is not free. -/
theorem erase_last {k : ℕ} (hk : k + 1 = 2 ^ 24 - 1) :
    step ⟨[⟨UInt32.ofNat (256 * (k + 1)), 0⟩], []⟩ (.erase (UInt64.ofNat (256 * (k + 1)))) =
      .ok (.nothing, (⟨[⟨0, 0⟩], []⟩ : Container ℕ)) := by
  have hdecode : decodeId ⟨[⟨UInt32.ofNat (256 * (k + 1)), 0⟩], []⟩
      (UInt64.ofNat (256 * (k + 1))) = some 0 := by
    refine (decodeId_eq_some ?_).2 ⟨Nat.one_pos, ?_⟩
    · show 1 < 2147483648
      norm_num
    have hgeneration : generation ⟨[⟨UInt32.ofNat (256 * (k + 1)), 0⟩], []⟩ 0 =
        UInt32.ofNat (256 * (k + 1)) := rfl
    rw [encodeId, hgeneration, makeId_zero, Nat.mod_eq_of_lt (by omega)]
  have hnext : UInt32.ofNat (256 * (k + 1)) + generationStep = 0 := by
    rw [← UInt32.toNat_inj, UInt32.toNat_add, UInt32.toNat_ofNat']
    have hstep : generationStep.toNat = 256 := rfl
    rw [hstep]
    show _ = 0
    omega
  have hepoch : ¬epoch (UInt32.ofNat (256 * (k + 1)) + generationStep) ≠ 0 := by
    rw [hnext]
    decide
  have hrelease : release (⟨[⟨UInt32.ofNat (256 * (k + 1)), 0⟩], []⟩ : Container ℕ) 0 =
      ⟨[⟨0, 0⟩], []⟩ := by
    rw [release_eq rfl, if_neg hepoch, ← hnext]
    rfl
  simp only [step, Container.erase, hdecode, hrelease, pure_eq_ok]

/-- `reset_id` leaves one element. -/
theorem live_resets {k : ℕ} {outs : List (Out ℕ)} {c c' : Container ℕ} (h : c.Counted)
    (houts : runProgram step (resets 0 k) c = .ok (outs, c')) :
    c'.live = ((resets 0 k).zip outs).foldl track c.live := by
  refine (runs_live (runs_of_runProgram houts fun op hop c ↦ ?_) h).2
  obtain ⟨i, -, rfl⟩ := List.mem_map.1 hop
  trivial

/-- An element gets its last generation and is erased: its slot is counted for ever. -/
theorem slot_lost :
    ∃ ops outs c, runProgram step ops ({} : Container ℕ) = .ok (outs, c) ∧
      (∀ id, current (ops.zip outs) id = none) ∧ c.size = .ok 1 := by
  obtain ⟨k, hk⟩ : ∃ k, k + 1 = 2 ^ 24 - 1 := ⟨2 ^ 24 - 2, by norm_num⟩
  let first : Container ℕ := ⟨[⟨UInt32.ofNat (256 * (0 + 1)), 0⟩], []⟩
  let last : Container ℕ := ⟨[⟨UInt32.ofNat (256 * (k + 1)), 0⟩], []⟩
  have hcreate : step ({} : Container ℕ) (.create 0 0) = .ok (.id 256, first) := rfl
  obtain ⟨outs, houts⟩ : ∃ outs, runProgram step (resets 0 k) first = .ok (outs, last) := by
    have hresets := run_resets (show 0 + k < 2 ^ 24 by omega) 0
    rw [Nat.zero_add k] at hresets
    exact ⟨_, hresets⟩
  have hfirst : first.Counted ∧ first.live = track (fun _ ↦ none) (.create 0 0, .id 256) :=
    KeepingCall.live ⟨fun _ ↦ by decide, hcreate⟩ counted_init
  have herase : runProgram step [.erase (UInt64.ofNat (256 * (k + 1)))] last =
      .ok ([.nothing], ⟨[⟨0, 0⟩], []⟩) := by
    simp only [runProgram, last, erase_last hk, ok_bind, pure_eq_ok]
  have hrun : runProgram step (.create 0 0 :: resets 0 k) ({} : Container ℕ) =
      .ok (.id 256 :: outs, last) := by
    simp only [runProgram, hcreate, ok_bind, houts, pure_eq_ok]
  refine ⟨_, _, _, runProgram_append hrun herase, fun id ↦ ?_, rfl⟩
  rw [List.zip_append (length_of_runProgram hrun).symm, current, List.foldl_append,
    List.zip_cons_cons, List.foldl_cons, ← hfirst.2, ← live_resets hfirst.1 houts]
  show Function.update last.live _ none id = none
  rw [Function.update_apply]
  split_ifs with hid
  · rfl
  · by_contra hne
    have hlast : last.Counted := ⟨by simp [maxSlots, last], List.nodup_nil, by simp [last]⟩
    obtain ⟨i, hi, -, rfl⟩ := hlast.live_ne_none.1 hne
    obtain rfl : i = 0 := Nat.lt_one_iff.1 hi
    refine hid ?_
    have hgeneration : last.generation 0 = UInt32.ofNat (256 * (k + 1)) := rfl
    rw [encodeId, hgeneration, makeId_zero, Nat.mod_eq_of_lt (by omega)]

end PxcCore.Container
