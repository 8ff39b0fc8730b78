import PxcCore.Lib.Families
import PxcCore.Lib.Traces

/-!
# SharedSlice

`SharedSlice.h`: slices that share a block of memory with a reference count, and slices that have a
block for themselves and may write to it.  What a thread does between two accesses to a reference
count is one step, with the access before.
-/

namespace PxcCore.SharedSlice

open Lib

/-! ## Definitions -/

/-- The allocation of an `UnsafeSharedSlice`, with its `SharedSliceHeader`. -/
structure Block where
  refcnt : ℕ := 1
  bytes : List UInt8
  isFreed : Bool := false

/-- A variable of type `SharedSlice` or `UniqueSharedSlice`, with the block of its `impl_`. -/
inductive Slot where
  | null
  | shared (block : ℕ)
  | unique (block : ℕ)
deriving DecidableEq

/-- The blocks and the variables, the references that are about to go, and the blocks that are about
to be freed, by whichever threads. -/
structure State (H : Type) where
  blocks : List Block := []
  slots : H → Slot := fun _ ↦ .null
  dropping : List ℕ := []
  freeing : List ℕ := []

/-- What a thread does next. -/
inductive Step (H : Type) where
  | createShared (h : H) (bytes : List UInt8)
  | createUnique (h : H) (bytes : List UInt8)
  | clone (h other : H)
  | copy (h other : H)
  | move (h other : H)
  | toShared (h other : H)
  | toUnique (h other : H)
  | clear (h : H)
  | write (h : H) (i : ℕ) (byte : UInt8)
  | dec (k : ℕ)
  | free (k : ℕ)

/-- The block of a variable. -/
def Slot.refs : Slot → List ℕ
  | .null => []
  | .shared block => [block]
  | .unique block => [block]

/-- The bytes of a variable. -/
def Slot.read (block : ℕ → Block) : Slot → List UInt8
  | .null => []
  | .shared b => (block b).bytes
  | .unique b => (block b).bytes

variable {H : Type}

namespace State

section Steps

variable [DecidableEq H]

/-- The variable gets a new value, and the destructor of the old one is about to run. -/
def setSlot (st : State H) (h : H) (slot : Slot) : State H :=
  { st with
    slots := Function.update st.slots h slot
    dropping := (st.slots h).refs ++ st.dropping }

/-- The variable has been moved from. -/
def moveFrom (st : State H) (h : H) : State H :=
  { st with slots := Function.update st.slots h .null }

/-- `UnsafeSharedSlice::create(slice)` -/
def create (st : State H) (bytes : List UInt8) : ℕ × State H :=
  (st.blocks.length, { st with blocks := st.blocks ++ [{ bytes := bytes }] })

def modifyBlock (st : State H) (b : ℕ) (f : Block → Block) : State H :=
  { st with blocks := st.blocks.modify b f }

/-- The block at this address, or what has never been allocated. -/
def block (st : State H) (b : ℕ) : Block := st.blocks.getD b { refcnt := 0, bytes := [] }

/-- `as_slice` -/
def asSlice (st : State H) (h : H) : List UInt8 := (st.slots h).read st.block

/-- `UniqueSharedSlice(SharedSlice from)` -/
def toUnique (st : State H) (h other : H) (b : ℕ) : State H :=
  if (st.block b).refcnt = 1 then (st.moveFrom other).setSlot h (.unique b)
  else
    let (b', st') := (st.setSlot other .null).create (st.asSlice other)
    st'.setSlot h (.unique b')

/-- One step, or `none` if it cannot be made. -/
def step (st : State H) : Step H → Option (State H)
  | .createShared h bytes =>
    let (b, st) := st.create bytes
    some (st.setSlot h (.shared b))
  | .createUnique h bytes =>
    let (b, st) := st.create bytes
    some (st.setSlot h (.unique b))
  | .clone h other =>
    match st.slots other with
    | .null => some (st.setSlot h .null)
    | .shared b =>
      some ((st.modifyBlock b fun block ↦ { block with refcnt := block.refcnt + 1 }).setSlot h
        (.shared b))
    | .unique _ => none
  | .copy h other =>
    match st.slots other with
    | .shared _ => none
    | _ =>
      let (b, st') := st.create (st.asSlice other)
      some (st'.setSlot h (.unique b))
  | .move h other =>
    if h = other then some st else some ((st.moveFrom other).setSlot h (st.slots other))
  | .toShared h other =>
    match st.slots other with
    | .null => some (st.setSlot h .null)
    | .shared _ => none
    | .unique b => some ((st.moveFrom other).setSlot h (.shared b))
  | .toUnique h other =>
    match st.slots other with
    | .null => some (st.setSlot h .null)
    | .shared b => some (st.toUnique h other b)
    | .unique _ => none
  | .clear h => some (st.setSlot h .null)
  | .write h i byte =>
    match st.slots h with
    | .unique b =>
      some (st.modifyBlock b fun block ↦ { block with bytes := block.bytes.set i byte })
    | _ => none
  | .dec k =>
    (st.dropping[k]?).map fun b ↦
      { st.modifyBlock b fun block ↦ { block with refcnt := block.refcnt - 1 } with
        dropping := st.dropping.eraseIdx k
        freeing := if (st.block b).refcnt = 1 then b :: st.freeing else st.freeing }
  | .free k =>
    (st.freeing[k]?).map fun b ↦
      { st.modifyBlock b fun block ↦ { block with isFreed := true } with
        freeing := st.freeing.eraseIdx k }

end Steps

end State

/-! ## What slices are for -/

/-- What a step does to the values of the variables. -/
def Step.apply [DecidableEq H] (v : H → List UInt8) : Step H → H → List UInt8
  | .createShared h bytes => Function.update v h bytes
  | .createUnique h bytes => Function.update v h bytes
  | .clone h other => Function.update v h (v other)
  | .copy h other => Function.update v h (v other)
  | .move h other =>
    if h = other then v else Function.update (Function.update v other []) h (v other)
  | .toShared h other => Function.update (Function.update v other []) h (v other)
  | .toUnique h other => Function.update (Function.update v other []) h (v other)
  | .clear h => Function.update v h []
  | .write h i byte => Function.update v h ((v h).set i byte)
  | .dec _ => v
  | .free _ => v

namespace State

variable {st st' : State H} {h h' other : H} {b b' : ℕ} {slot : Slot} {f : Block → Block}
  {bytes : List UInt8}

theorem block_modifyBlock : (st.modifyBlock b f).block b' =
    if b' = b ∧ b < st.blocks.length then f (st.block b') else st.block b' := by
  unfold block modifyBlock
  simp only [List.getD_eq_getElem?_getD, List.getElem?_modify]
  by_cases hb : b = b'
  · subst hb
    by_cases hlt : b < st.blocks.length <;> simp [hlt]
  · simp [hb, Ne.symm hb]

theorem block_create : (st.create bytes).2.block b =
    if b = st.blocks.length then { bytes := bytes } else st.block b := by
  unfold block create
  simp only [List.getD_eq_getElem?_getD, List.getElem?_append]
  split_ifs with hlt heq heq
  · exact absurd hlt (heq ▸ lt_irrefl _)
  · rfl
  · subst heq
    simp
  · obtain ⟨k, hk⟩ : ∃ k, b - st.blocks.length = k + 1 := ⟨b - st.blocks.length - 1, by omega⟩
    rw [hk, List.getElem?_eq_none (Nat.le_of_not_lt hlt)]
    rfl

theorem lt_of_refcnt (hcnt : (st.block b).refcnt ≠ 0) : b < st.blocks.length := by
  by_contra hle
  rw [block, List.getD_eq_default _ _ (Nat.le_of_not_lt hle)] at hcnt
  exact hcnt rfl

@[simp]
theorem block_setSlot [DecidableEq H] : (st.setSlot h slot).block b = st.block b := rfl

variable [Fintype H]

/-- The references to a block. -/
def refs (st : State H) (b : ℕ) : ℕ :=
  (total (Slot.refs ∘ st.slots)).count b + st.dropping.count b

/-- Each block counts its references, and is freed, or about to be, once, if there are none.  A
slice that may be written to has the only one. -/
structure Holds (st : State H) : Prop where
  counted : ∀ b, (st.block b).refcnt = st.refs b
  freed : ∀ b, st.freeing.count b + (if (st.block b).isFreed then 1 else 0) =
    if b < st.blocks.length ∧ (st.block b).refcnt = 0 then 1 else 0
  unique : ∀ h b, st.slots h = .unique b → (st.block b).refcnt = 1

theorem holds_init : ({} : State H).Holds where
  counted b := by
    simp only [refs, total]
    exact (by simp [Slot.refs, block])
  freed b := by simp [block]
  unique h b hslot := by cases hslot

@[simp]
theorem refs_modifyBlock : (st.modifyBlock b f).refs b' = st.refs b' := rfl

@[simp]
theorem refs_create : (st.create bytes).2.refs b = st.refs b := rfl

/-- References go from one variable to another. -/
theorem Holds.of_refs (hst : st.Holds) (hblocks : st'.blocks = st.blocks)
    (hfreeing : st'.freeing = st.freeing) (hrefs : ∀ b, st'.refs b = st.refs b)
    (hunique : ∀ h b, st'.slots h = .unique b → (st.block b).refcnt = 1) : st'.Holds := by
  have hblock (b : ℕ) : st'.block b = st.block b := by rw [block, hblocks, block]
  refine ⟨fun b ↦ ?_, fun b ↦ ?_, fun h b hslot ↦ ?_⟩
  · rw [hblock, hrefs, hst.counted]
  · rw [hblock, hfreeing, hblocks, hst.freed]
  · rw [hblock]
    exact hunique h b hslot

theorem holds_write (hst : st.Holds) (g : List UInt8 → List UInt8) :
    (st.modifyBlock b fun block ↦ { block with bytes := g block.bytes }).Holds := by
  refine ⟨fun b' ↦ ?_, fun b' ↦ ?_, fun h' b' hh' ↦ ?_⟩
  · have hcounted := hst.counted b'
    rw [block_modifyBlock, refs_modifyBlock]
    grind
  · have hfreed := hst.freed b'
    rw [block_modifyBlock]
    simp only [modifyBlock, List.length_modify]
    grind
  · have hunique := hst.unique h' b' hh'
    rw [block_modifyBlock]
    grind

theorem holds_free {k : ℕ} (hst : st.Holds) (hk : st.freeing[k]? = some b) :
    ({ st.modifyBlock b fun block ↦ { block with isFreed := true } with
      freeing := st.freeing.eraseIdx k } : State H).Holds := by
  have hmem : b ∈ st.freeing := List.mem_of_getElem? hk
  have hcount := count_eraseIdx hk
  refine ⟨fun b' ↦ ?_, fun b' ↦ ?_, fun h' b' hh' ↦ ?_⟩
  · have hcounted := hst.counted b'
    change ((st.modifyBlock b _).block b').refcnt = st.refs b'
    rw [block_modifyBlock]
    grind
  · have hfreed := hst.freed b'
    have hfreed_b := hst.freed b
    have hpos := List.count_pos_iff.mpr hmem
    have hlt : b < st.blocks.length := by
      by_contra hlt
      have hnot : ¬(b < st.blocks.length ∧ (st.block b).refcnt = 0) := fun hall ↦ hlt hall.1
      rw [if_neg hnot] at hfreed_b
      omega
    change List.count b' _ + (if ((st.modifyBlock b _).block b').isFreed then 1 else 0) =
      if b' < (st.blocks.modify b _).length ∧ ((st.modifyBlock b _).block b').refcnt = 0
        then 1 else 0
    rw [block_modifyBlock, List.length_modify]
    grind
  · have hunique := hst.unique h' b' hh'
    change ((st.modifyBlock b _).block b').refcnt = 1
    rw [block_modifyBlock]
    grind

variable [DecidableEq H]

/-- A variable has its reference counted. -/
theorem Holds.lt (hst : st.Holds) (hb : b ∈ (st.slots h).refs) :
    (st.block b).refcnt ≠ 0 ∧ b < st.blocks.length := by
  have hle := count_le_count_total (Slot.refs ∘ st.slots) h b
  have hpos := List.count_pos_iff.mpr hb
  have hcnt : (st.block b).refcnt ≠ 0 := by
    rw [hst.counted, refs]
    rw [Function.comp_apply] at hle
    omega
  exact ⟨hcnt, lt_of_refcnt hcnt⟩

theorem refs_setSlot : (st.setSlot h slot).refs b = st.refs b + slot.refs.count b := by
  have hcount := count_total_update (Slot.refs ∘ st.slots) h slot.refs b
  rw [← Function.comp_update] at hcount
  simp only [refs, setSlot, List.count_append]
  rw [Function.comp_apply] at hcount
  omega

theorem refs_moveFrom (st : State H) (h : H) (b : ℕ) :
    (st.moveFrom h).refs b + (st.slots h).refs.count b = st.refs b := by
  have hcount := count_total_update (Slot.refs ∘ st.slots) h (Slot.refs .null) b
  rw [← Function.comp_update] at hcount
  simp only [refs, moveFrom]
  rw [Function.comp_apply, show Slot.refs .null = [] from rfl, List.count_nil] at hcount
  omega

/-- A unique slice has the only reference to its block. -/
theorem Holds.only (hst : st.Holds) (hslot : st.slots h = .unique b) :
    (total (Slot.refs ∘ (st.moveFrom h).slots)).count b = 0 ∧ st.dropping.count b = 0 := by
  have hrefs := refs_moveFrom st h b
  rw [← hst.counted, hst.unique h b hslot, hslot, show Slot.refs (.unique b) = [b] from rfl,
    List.count_singleton_self, Nat.add_eq_right, refs, Nat.add_eq_zero_iff] at hrefs
  exact hrefs

/-- The block of a unique slice is not the block of another slice. -/
theorem Holds.alone (hst : st.Holds) (hslot : st.slots h = .unique b) (hne : h' ≠ h) :
    b ∉ (st.slots h').refs := by
  have hle := count_le_count_total (Slot.refs ∘ (st.moveFrom h).slots) h' b
  have hslots : (st.moveFrom h).slots h' = st.slots h' := Function.update_of_ne hne _ _
  rwa [(hst.only hslot).1, Function.comp_apply, hslots, Nat.le_zero, List.count_eq_zero] at hle

theorem holds_clear (hst : st.Holds) : (st.setSlot h .null).Holds := by
  refine hst.of_refs rfl rfl (fun b ↦ refs_setSlot) fun h' b hslot ↦ ?_
  simp only [setSlot, Function.update_apply] at hslot
  split_ifs at hslot
  exact hst.unique h' b hslot

/-- A variable is moved to another one. -/
theorem holds_move (hst : st.Holds) (hrefs : slot.refs = (st.slots other).refs)
    (hunique : ∀ b, slot = .unique b → (st.block b).refcnt = 1) :
    ((st.moveFrom other).setSlot h slot).Holds := by
  refine hst.of_refs rfl rfl (fun b ↦ ?_) fun h' b hslot ↦ ?_
  · rw [refs_setSlot, hrefs, refs_moveFrom]
  · simp only [setSlot, moveFrom, Function.update_apply] at hslot
    split_ifs at hslot
    · exact hunique b hslot
    · exact hst.unique h' b hslot

/-- A variable gets a new block. -/
theorem holds_create (hst : st.Holds) (hslot : slot.refs = [st.blocks.length]) :
    ((st.create bytes).2.setSlot h slot).Holds := by
  have hnew : (st.block st.blocks.length).refcnt = 0 := by
    by_contra hcnt
    exact (lt_of_refcnt hcnt).false
  refine ⟨fun b ↦ ?_, fun b ↦ ?_, fun h' b hh' ↦ ?_⟩
  · have hcounted := hst.counted b
    rw [block_setSlot, block_create, refs_setSlot, refs_create, hslot, List.count_singleton]
    grind
  · have hfreed := hst.freed b
    rw [block_setSlot, block_create]
    simp only [setSlot, create, List.length_append, List.length_singleton]
    grind
  · rw [block_setSlot, block_create]
    split_ifs with hb
    · rfl
    · simp only [setSlot, create, Function.update_apply] at hh'
      split_ifs at hh'
      · rw [hh'] at hslot
        exact absurd (List.singleton_inj.mp hslot) hb
      · exact hst.unique h' b hh'

theorem holds_clone (hst : st.Holds) (hother : st.slots other = .shared b) :
    ((st.modifyBlock b fun block ↦ { block with refcnt := block.refcnt + 1 }).setSlot h
      (.shared b)).Holds := by
  obtain ⟨-, hlt⟩ := hst.lt (h := other) (b := b) (by simp [hother, Slot.refs])
  refine ⟨fun b' ↦ ?_, fun b' ↦ ?_, fun h' b' hh' ↦ ?_⟩
  · have hcounted := hst.counted b'
    rw [block_setSlot, block_modifyBlock, refs_setSlot, refs_modifyBlock,
      show Slot.refs (.shared b) = [b] from rfl, List.count_singleton]
    grind
  · have hfreed := hst.freed b'
    have hcnt : (st.block b).refcnt ≠ 0 := (hst.lt (h := other) (by simp [hother, Slot.refs])).1
    rw [block_setSlot, block_modifyBlock]
    simp only [setSlot, modifyBlock, List.length_modify]
    grind
  · simp only [setSlot, modifyBlock, Function.update_apply] at hh'
    split_ifs at hh'
    have hne : other ≠ h' := fun heq ↦ by
      rw [heq, hh'] at hother
      cases hother
    have hmem := hst.alone hh' hne
    rw [block_setSlot, block_modifyBlock,
      if_neg fun heq ↦ hmem (by simp [heq.1, hother, Slot.refs])]
    exact hst.unique h' b' hh'

theorem holds_dec {k : ℕ} (hst : st.Holds) (hk : st.dropping[k]? = some b) :
    ({ st.modifyBlock b fun block ↦ { block with refcnt := block.refcnt - 1 } with
      dropping := st.dropping.eraseIdx k
      freeing := if (st.block b).refcnt = 1 then b :: st.freeing else st.freeing } :
      State H).Holds := by
  have hmem : b ∈ st.dropping := List.mem_of_getElem? hk
  have hcount := count_eraseIdx hk
  have hcnt : (st.block b).refcnt ≠ 0 := by
    rw [hst.counted, refs]
    have hpos := List.count_pos_iff.mpr hmem
    omega
  have hlt := lt_of_refcnt hcnt
  refine ⟨fun b' ↦ ?_, fun b' ↦ ?_, fun h' b' hh' ↦ ?_⟩
  · have hcounted := hst.counted b'
    change ((st.modifyBlock b _).block b').refcnt =
      (total (Slot.refs ∘ st.slots)).count b' + (st.dropping.eraseIdx k).count b'
    rw [refs] at hcounted
    rw [block_modifyBlock]
    grind
  · have hfreed := hst.freed b'
    change List.count b' _ + (if ((st.modifyBlock b _).block b').isFreed then 1 else 0) =
      if b' < (st.blocks.modify b _).length ∧ ((st.modifyBlock b _).block b').refcnt = 0
        then 1 else 0
    rw [block_modifyBlock, List.length_modify]
    grind
  · have hunique := hst.unique h' b' hh'
    have hne : b' ≠ b := by
      rintro rfl
      exact (List.count_pos_iff.mpr hmem).ne' (hst.only hh').2
    change ((st.modifyBlock b _).block b').refcnt = 1
    rw [block_modifyBlock, if_neg fun heq ↦ hne heq.1]
    exact hunique

/-! ## Slices are values -/

omit [Fintype H] [DecidableEq H] in
theorem read_congr {block block' : ℕ → Block}
    (hbytes : ∀ b ∈ slot.refs, (block' b).bytes = (block b).bytes) :
    slot.read block' = slot.read block := by
  cases slot with
  | null => rfl
  | shared b => exact hbytes b (List.mem_singleton_self b)
  | unique b => exact hbytes b (List.mem_singleton_self b)

omit [Fintype H] in
theorem asSlice_setSlot :
    (st.setSlot h slot).asSlice = Function.update st.asSlice h (slot.read st.block) :=
  Function.comp_update (Slot.read st.block) st.slots h slot

omit [Fintype H] in
theorem asSlice_moveFrom : (st.moveFrom h).asSlice = Function.update st.asSlice h [] :=
  Function.comp_update (Slot.read st.block) st.slots h .null

theorem asSlice_create (hst : st.Holds) : (st.create bytes).2.asSlice = st.asSlice := by
  funext h
  refine read_congr fun b hb ↦ ?_
  rw [block_create, if_neg (hst.lt hb).2.ne]

omit [Fintype H] [DecidableEq H] in
theorem asSlice_modifyBlock (hf : ∀ block, (f block).bytes = block.bytes) :
    (st.modifyBlock b f).asSlice = st.asSlice := by
  funext h
  refine read_congr fun b' hb' ↦ ?_
  rw [block_modifyBlock]
  split_ifs
  · exact hf _
  · rfl

/-- What is written to a unique slice, only this slice reads. -/
theorem asSlice_write (hst : st.Holds) (hslot : st.slots h = .unique b)
    (g : List UInt8 → List UInt8) :
    (st.modifyBlock b fun block ↦ { block with bytes := g block.bytes }).asSlice =
      Function.update st.asSlice h (g (st.asSlice h)) := by
  have hlt := (hst.lt (h := h) (b := b) (by simp [hslot, Slot.refs])).2
  funext h'
  by_cases hne : h' = h
  · subst hne
    rw [Function.update_self, asSlice, asSlice]
    change (st.slots h').read _ = _
    rw [hslot, Slot.read, Slot.read, block_modifyBlock, if_pos ⟨rfl, hlt⟩]
  · rw [Function.update_of_ne hne]
    refine read_congr fun b' hb' ↦ ?_
    have hb : b' ≠ b := ne_of_mem_of_not_mem hb' (hst.alone hslot hne)
    rw [block_modifyBlock, if_neg fun hand ↦ hb hand.1]

theorem holds_toUnique (hst : st.Holds) (hother : st.slots other = .shared b) :
    (st.toUnique h other b).Holds ∧ (st.toUnique h other b).asSlice =
      (Step.toUnique h other).apply st.asSlice := by
  have hread : st.asSlice other = (st.block b).bytes := by rw [asSlice, hother, Slot.read]
  unfold toUnique
  split_ifs with hcnt
  · refine ⟨holds_move hst (by rw [hother]; rfl) fun b' hb' ↦ ?_, ?_⟩
    · cases hb'
      exact hcnt
    · rw [asSlice_setSlot, asSlice_moveFrom, Step.apply, hread]
      rfl
  · have hcleared : (st.setSlot other .null).Holds := holds_clear hst
    refine ⟨holds_create hcleared rfl, ?_⟩
    rw [asSlice_setSlot, asSlice_create hcleared, asSlice_setSlot, Step.apply]
    congr 1
    rw [Slot.read, block_create]
    exact congrArg Block.bytes (if_pos rfl)

theorem holds_new (hst : st.Holds) (hslot : slot.refs = [st.blocks.length]) :
    ((st.create bytes).2.setSlot h slot).Holds ∧
      ((st.create bytes).2.setSlot h slot).asSlice = Function.update st.asSlice h bytes := by
  refine ⟨holds_create hst hslot, ?_⟩
  rw [asSlice_setSlot, asSlice_create hst]
  congr 1
  cases slot with
  | null => cases hslot
  | _ b =>
    obtain rfl := List.singleton_inj.mp hslot
    exact (congrArg Block.bytes block_create).trans (congrArg Block.bytes (if_pos rfl))

/-- One step keeps the blocks in order, and does what it should to the values. -/
theorem holds_step {x : Step H} (hst : st.Holds) (hstep : st.step x = some st') :
    st'.Holds ∧ st'.asSlice = x.apply st.asSlice := by
  have hread (h : H) {slot : Slot} (hslot : st.slots h = slot) :
      st.asSlice h = slot.read st.block := by rw [asSlice, hslot]
  have hnull (h : H) : (st.setSlot h .null).Holds ∧
      (st.setSlot h .null).asSlice = Function.update st.asSlice h [] :=
    ⟨holds_clear hst, asSlice_setSlot⟩
  cases x with
  | createShared h bytes => exact Option.some.inj hstep ▸ holds_new hst rfl
  | createUnique h bytes => exact Option.some.inj hstep ▸ holds_new hst rfl
  | clone h other =>
    simp only [step] at hstep
    split at hstep
    · next hother =>
      rw [Step.apply, hread other hother]
      exact Option.some.inj hstep ▸ hnull h
    · next b hother =>
      obtain rfl := Option.some.inj hstep
      refine ⟨holds_clone hst hother, ?_⟩
      have hbytes : (st.modifyBlock b fun block ↦
          { block with refcnt := block.refcnt + 1 }).asSlice = st.asSlice :=
        asSlice_modifyBlock fun _ ↦ rfl
      rw [asSlice_setSlot, hbytes, Step.apply, hread other hother]
      congr 1
      refine read_congr fun b' _ ↦ ?_
      rw [block_modifyBlock]
      split_ifs <;> rfl
    · cases hstep
  | copy h other =>
    simp only [step] at hstep
    split at hstep
    · cases hstep
    · exact Option.some.inj hstep ▸ holds_new hst rfl
  | move h other =>
    simp only [step] at hstep
    simp only [Step.apply]
    split_ifs at hstep ⊢ with heq
    · exact Option.some.inj hstep ▸ ⟨hst, rfl⟩
    · obtain rfl := Option.some.inj hstep
      refine ⟨holds_move hst rfl fun b hslot ↦ hst.unique other b hslot, ?_⟩
      rw [asSlice_setSlot, asSlice_moveFrom]
      rfl
  | toShared h other =>
    simp only [step] at hstep
    split at hstep
    · next hother =>
      have hvalue : Function.update st.asSlice other [] = st.asSlice :=
        Function.update_eq_self_iff.mpr (hread other hother).symm
      rw [Step.apply, hvalue, hread other hother]
      exact Option.some.inj hstep ▸ hnull h
    · cases hstep
    · next b hother =>
      obtain rfl := Option.some.inj hstep
      refine ⟨holds_move hst (by rw [hother]; rfl) nofun, ?_⟩
      rw [asSlice_setSlot, asSlice_moveFrom, Step.apply, hread other hother]
      rfl
  | toUnique h other =>
    simp only [step] at hstep
    split at hstep
    · next hother =>
      have hvalue : Function.update st.asSlice other [] = st.asSlice :=
        Function.update_eq_self_iff.mpr (hread other hother).symm
      rw [Step.apply, hvalue, hread other hother]
      exact Option.some.inj hstep ▸ hnull h
    · next b hother => exact Option.some.inj hstep ▸ holds_toUnique hst hother
    · cases hstep
  | clear h => exact Option.some.inj hstep ▸ hnull h
  | write h i byte =>
    simp only [step] at hstep
    split at hstep
    · next b hslot =>
      obtain rfl := Option.some.inj hstep
      exact ⟨holds_write hst fun l ↦ l.set i byte, asSlice_write hst hslot fun l ↦ l.set i byte⟩
    · cases hstep
  | dec k =>
    obtain ⟨b, hk, rfl⟩ := Option.map_eq_some_iff.mp hstep
    exact ⟨holds_dec hst hk, asSlice_modifyBlock fun _ ↦ rfl⟩
  | free k =>
    obtain ⟨b, hk, rfl⟩ := Option.map_eq_some_iff.mp hstep
    exact ⟨holds_free hst hk, asSlice_modifyBlock fun _ ↦ rfl⟩

/-- What holds of the blocks at any time. -/
structure Sound (st : State H) : Prop where
  counted : ∀ b, (st.block b).refcnt = st.refs b
  alive : ∀ h, ∀ b ∈ (st.slots h).refs, b < st.blocks.length ∧ (st.block b).isFreed = false
  alone : ∀ h b, st.slots h = .unique b → ∀ h' ≠ h, b ∉ (st.slots h').refs
  freed : ∀ b < st.blocks.length, st.refs b = 0 →
    st.freeing.count b + (if (st.block b).isFreed then 1 else 0) = 1

/-- However the threads take turns, slices are values: what is written to one is not seen in another
one, converting one keeps its bytes, and copies are made where they are needed.  A block is there as
long as a slice has it, and is freed once after that. -/
theorem run_values {xs : List (Step H)} (hrun : xs.foldlM step {} = some st) :
    st.asSlice = xs.foldl Step.apply (fun _ ↦ []) ∧ st.Sound := by
  obtain ⟨hst, hvalues⟩ := foldlM_simulates holds_step holds_init hrun
  refine ⟨hvalues, hst.counted, fun h b hb ↦ ?_, fun h b hslot h' hne ↦ hst.alone hslot hne,
    fun b hlt hrefs ↦ ?_⟩
  · obtain ⟨hcnt, hlt⟩ := hst.lt hb
    refine ⟨hlt, Bool.eq_false_iff.mpr fun hfree ↦ ?_⟩
    have hfreed := hst.freed b
    rw [if_pos hfree, if_neg fun hand ↦ hcnt hand.2] at hfreed
    omega
  · rw [hst.freed b, hst.counted b, if_pos ⟨hlt, hrefs⟩]

/-- A shared slice is made unique while another one shares its block, and is written to. -/
def copySteps : List (Step Bool) :=
  [.createShared true [1, 2], .clone false true, .toUnique true true, .write true 0 7]

theorem run_values_copy : ∃ st : State Bool, copySteps.foldlM step {} = some st ∧
    st.asSlice true = [7, 2] ∧ st.asSlice false = [1, 2] ∧ st.Sound := by
  have hrun : copySteps.foldlM step {} = some _ := rfl
  exact ⟨_, hrun, rfl, rfl, (run_values hrun).2⟩

end State

end PxcCore.SharedSlice
