import PxcCore.Lib.LinkedList
import PxcCore.Lib.Result

/-!
# ObjectPool

`ObjectPool.h`, on one thread: storages that are recycled through a free list, owners that give
them back, and weak pointers that remember the generation of a storage.

A storage is the number of its allocation.  What `data.clear()` leaves of the data is `clear` of it.
-/

namespace PxcCore.ObjectPool

open Lib

/-! ## Definitions -/

structure Storage (DataT : Type) where
  data : DataT
  next : Option ℕ := none
  generation : Int32 := 1

structure WeakPtr where
  generation : Int32 := -1
  storage : Option ℕ := none

/-- Whether `parent_` is the pool is `hasParent`. -/
structure OwnerPtr where
  storage : Option ℕ := none
  hasParent : Bool := false

/-- The members of `ObjectPool`. -/
structure Pool (DataT : Type) where
  storages : List (Storage DataT) := []
  head : Option ℕ := none
  storageCount : Int32 := 0

variable {DataT : Type} {p p' : Pool DataT} {st : ℕ}

namespace OwnerPtr

/-- `OwnerPtr(OwnerPtr &&other)`: the new owner and what is left of the other one. -/
def moveConstruct (other : OwnerPtr) : OwnerPtr × OwnerPtr :=
  ({ storage := other.storage, hasParent := other.hasParent },
    { other with storage := none, hasParent := false })

/-- `operator=(OwnerPtr &&other)`, for another owner. -/
def moveAssign (self other : OwnerPtr) : OwnerPtr × OwnerPtr :=
  ({ self with storage := other.storage, hasParent := other.hasParent },
    { other with storage := none, hasParent := false })

/-- `release` -/
def release (owner : OwnerPtr) : Option ℕ × OwnerPtr :=
  (owner.storage, { owner with storage := none })

end OwnerPtr

namespace Pool

/-- `*storage` -/
def access (p : Pool DataT) (storage : Option ℕ) : Except String (ℕ × Storage DataT) :=
  match storage with
  | none => .error "null pointer"
  | some st =>
    match p.storages[st]? with
    | none => .error "no such storage"
    | some storage => .ok (st, storage)

/-- `get_storage` -/
def getStorage [Inhabited DataT] (p : Pool DataT) : Except String (ℕ × Pool DataT) :=
  match p.head with
  | none =>
    .ok (p.storages.length,
      { p with storages := p.storages ++ [{ data := default }]
               storageCount := p.storageCount + 1 })
  | some res => do
    let (res, storage) ← p.access (some res)
    return (res, { p with head := storage.next })

/-- `init_data` -/
def initData (p : Pool DataT) (st : ℕ) (data : DataT) : Pool DataT :=
  { p with storages := p.storages.modify st fun storage ↦ { storage with data := data } }

/-- `destroy_data` -/
def destroyData (clear : DataT → DataT) (p : Pool DataT) (st : ℕ) : Pool DataT :=
  { p with storages := p.storages.modify st fun storage ↦
      { storage with generation := storage.generation + 1, data := clear storage.data } }

/-- `release_storage` -/
def releaseStorage (p : Pool DataT) (st : ℕ) : Pool DataT :=
  { p with storages := p.storages.modify st fun storage ↦ { storage with next := p.head }
           head := some st }

/-- `create` -/
def create [Inhabited DataT] (p : Pool DataT) (data : DataT) :
    Except String (OwnerPtr × Pool DataT) := do
  let (st, p) ← p.getStorage
  return ({ storage := some st, hasParent := true }, p.initData st data)

/-- `create_empty` -/
def createEmpty [Inhabited DataT] (p : Pool DataT) : Except String (OwnerPtr × Pool DataT) := do
  let (st, p) ← p.getStorage
  return ({ storage := some st, hasParent := true }, p)

/-- `release`, with what is left of the owner. -/
def release (clear : DataT → DataT) (p : Pool DataT) (owner : OwnerPtr) :
    Except String (OwnerPtr × Pool DataT) := do
  let (storage, owner) := owner.release
  let (st, _) ← p.access storage
  return (owner, (p.destroyData clear st).releaseStorage st)

/-- `OwnerPtr::reset` -/
def reset (clear : DataT → DataT) (p : Pool DataT) (owner : OwnerPtr) :
    Except String (OwnerPtr × Pool DataT) :=
  match owner.storage with
  | none => .ok (owner, p)
  | some tmp =>
    if owner.hasParent then do
      let (_, p) ← p.release clear { storage := some tmp, hasParent := true }
      return ({ owner with storage := none }, p)
    else .error "null pointer"

/-- `OwnerPtr::get_weak` -/
def getWeak (p : Pool DataT) (owner : OwnerPtr) : Except String WeakPtr := do
  let (st, storage) ← p.access owner.storage
  return { generation := storage.generation, storage := some st }

/-- The loop of `~ObjectPool`, which deletes the storages of the free list. -/
def deleteLoop : ℕ → List (Option (Storage DataT)) → Option ℕ → Int32 → Except String Int32
  | _, _, none, storageCount => .ok storageCount
  | 0, _, some _, _ => .error "fuel"
  | fuel + 1, storages, some toDelete, storageCount =>
    match storages[toDelete]? with
    | some (some storage) =>
      deleteLoop fuel (storages.set toDelete none) storage.next (storageCount - 1)
    | _ => .error "no such storage"

/-- `~ObjectPool` -/
def destroy (p : Pool DataT) : Except String Unit := do
  let storageCount ← deleteLoop p.storages.length (p.storages.map some) p.head p.storageCount
  if storageCount = 0 then return () else .error "LOG_CHECK(storage_count_.load() == 0)"

end Pool

/-- `is_alive` and `is_alive_unsafe` -/
def WeakPtr.isAlive (weak : WeakPtr) (p : Pool DataT) : Bool :=
  match weak.storage with
  | none => false
  | some st => (p.storages[st]?).any fun storage ↦ weak.generation = storage.generation

/-! ## Storages -/

namespace Pool

/-- The link of a storage. -/
def next (p : Pool DataT) (st : ℕ) : Option ℕ := (p.storages[st]?).bind Storage.next

/-- The generation of a storage that has been allocated. -/
def generation (p : Pool DataT) (st : ℕ) : Option Int32 := (p.storages[st]?).map Storage.generation

/-- Every storage is one of the owned ones or on the free list, and only once. -/
structure Wf (p : Pool DataT) (owned free : List ℕ) : Prop where
  linked : Linked p.next p.head free
  perm : (owned ++ free).Perm (List.range p.storages.length)
  count : p.storageCount = Int32.ofNat p.storages.length

theorem Wf.empty : Wf ({} : Pool DataT) [] [] where
  linked := .nil
  perm := .refl _
  count := rfl

namespace Wf

variable {owned owned' free : List ℕ}

theorem of_perm (h : p.Wf owned free) (hperm : owned'.Perm owned) : p.Wf owned' free where
  linked := h.linked
  perm := (hperm.append_right free).trans h.perm
  count := h.count

theorem nodup (h : p.Wf owned free) : (owned ++ free).Nodup :=
  h.perm.nodup_iff.2 List.nodup_range

theorem lt_length (h : p.Wf owned free) (hst : st ∈ owned ++ free) : st < p.storages.length :=
  List.mem_range.1 (h.perm.mem_iff.1 hst)

/-- A storage is owned once or on the free list once. -/
theorem count_add_count (h : p.Wf owned free) (hst : st < p.storages.length) :
    owned.count st + free.count st = 1 := by
  rw [← List.count_append, h.perm.count_eq]
  exact List.count_eq_one_of_mem List.nodup_range (List.mem_range.2 hst)

/-- Only links and generations matter. -/
theorem congr (h : p.Wf owned free) (hhead : p'.head = p.head)
    (hcount : p'.storageCount = p.storageCount)
    (hlength : p'.storages.length = p.storages.length) (hnext : ∀ st, p'.next st = p.next st) :
    p'.Wf owned free where
  linked := by
    rw [hhead]
    exact h.linked.congr fun st _ ↦ hnext st
  perm := hlength ▸ h.perm
  count := by rw [hcount, hlength, h.count]

end Wf

/-! ## `get_storage` -/

theorem getStorage_of_nil [Inhabited DataT] (h : p.head = none) :
    p.getStorage = .ok (p.storages.length,
      { p with storages := p.storages ++ [{ data := default }]
               storageCount := p.storageCount + 1 }) := by
  rw [getStorage, h]

theorem getStorage_of_head [Inhabited DataT] {storage : Storage DataT} (h : p.head = some st)
    (hstorage : p.storages[st]? = some storage) :
    p.getStorage = .ok (st, { p with head := storage.next }) := by
  rw [getStorage, h]
  simp only [access, hstorage, ok_bind, pure_eq_ok]

/-- A storage comes from the free list or is new. -/
theorem Wf.getStorage_spec [Inhabited DataT] {owned free : List ℕ} (h : p.Wf owned free) :
    ∃ st p' free', p.getStorage = .ok (st, p') ∧ p'.Wf (st :: owned) free' ∧
      ∀ st' generation, p.generation st' = some generation →
        p'.generation st' = some generation := by
  cases free with
  | nil =>
    have hhead : p.head = none := h.linked.eq_nil_iff.2 rfl
    refine ⟨p.storages.length, _, [], getStorage_of_nil hhead, ⟨?_, ?_, ?_⟩, ?_⟩
    · rw [hhead]
      exact .nil
    · have hperm : owned.Perm (List.range p.storages.length) := by simpa using h.perm
      rw [List.append_nil, List.length_append, List.length_singleton, List.range_succ]
      exact (hperm.cons _).trans (List.perm_append_singleton _ _).symm
    · rw [h.count, List.length_append, List.length_singleton, Int32.ofNat_add]
      rfl
    · intro st' generation hgeneration
      obtain ⟨storage, hstorage, rfl⟩ := Option.map_eq_some_iff.1 hgeneration
      obtain ⟨hlt, -⟩ := List.getElem?_eq_some_iff.1 hstorage
      rw [Pool.generation, List.getElem?_append_left hlt, hstorage, Option.map_some]
  | cons st rest =>
    obtain ⟨hhead, hrest⟩ := h.linked.of_cons
    have hlt : st < p.storages.length := h.lt_length (by simp)
    have hstorage := List.getElem?_eq_getElem hlt
    have hnext : p.next st = p.storages[st].next := by rw [next, hstorage, Option.bind_some]
    refine ⟨st, _, rest, getStorage_of_head hhead hstorage, ⟨?_, ?_, h.count⟩, ?_⟩
    · rw [← hnext]
      exact hrest
    · exact List.perm_middle.symm.trans h.perm
    · exact fun st' generation hgeneration ↦ hgeneration

/-! ## Changes of one storage -/

/-- `init_data` changes neither links nor generations. -/
theorem initData_next (p : Pool DataT) (st : ℕ) (data : DataT) (st' : ℕ) :
    (p.initData st data).next st' = p.next st' := by
  rw [next, initData, next]
  rcases eq_or_ne st st' with rfl | hne
  · rw [List.getElem?_modify_eq]
    cases p.storages[st]? <;> rfl
  · rw [List.getElem?_modify_ne _ _ hne]

theorem initData_generation (p : Pool DataT) (st : ℕ) (data : DataT) (st' : ℕ) :
    (p.initData st data).generation st' = p.generation st' := by
  rw [generation, initData, generation]
  rcases eq_or_ne st st' with rfl | hne
  · rw [List.getElem?_modify_eq]
    cases p.storages[st]? <;> rfl
  · rw [List.getElem?_modify_ne _ _ hne]

theorem Wf.initData {owned free : List ℕ} (h : p.Wf owned free) (st : ℕ) (data : DataT) :
    (p.initData st data).Wf owned free :=
  h.congr rfl rfl (List.length_modify _ _ _) (initData_next p st data)

/-- What the pool does with a storage that comes back. -/
def giveBack (clear : DataT → DataT) (p : Pool DataT) (st : ℕ) : Pool DataT :=
  (p.destroyData clear st).releaseStorage st

theorem giveBack_storage (clear : DataT → DataT) {storage : Storage DataT}
    (hstorage : p.storages[st]? = some storage) :
    (p.giveBack clear st).storages[st]? = some
      { data := clear storage.data, next := p.head, generation := storage.generation + 1 } := by
  rw [giveBack, releaseStorage, destroyData, List.getElem?_modify_eq, List.getElem?_modify_eq,
    hstorage]
  rfl

theorem giveBack_of_ne (clear : DataT → DataT) {st' : ℕ} (hne : st ≠ st') :
    (p.giveBack clear st).storages[st']? = p.storages[st']? := by
  rw [giveBack, releaseStorage, destroyData, List.getElem?_modify_ne _ _ hne,
    List.getElem?_modify_ne _ _ hne]

theorem giveBack_generation (clear : DataT → DataT) {generation : Int32}
    (h : p.generation st = some generation) :
    (p.giveBack clear st).generation st = some (generation + 1) := by
  obtain ⟨storage, hstorage, rfl⟩ := Option.map_eq_some_iff.1 h
  rw [Pool.generation, giveBack_storage clear hstorage, Option.map_some]

theorem giveBack_generation_of_ne (clear : DataT → DataT) {st' : ℕ} (hne : st ≠ st') :
    (p.giveBack clear st).generation st' = p.generation st' := by
  rw [Pool.generation, giveBack_of_ne clear hne, Pool.generation]

/-- A storage that comes back is the new head of the free list. -/
theorem Wf.giveBack {owned free : List ℕ} (h : p.Wf (st :: owned) free)
    (clear : DataT → DataT) : (p.giveBack clear st).Wf owned (st :: free) := by
  have hlt : st < p.storages.length := h.lt_length (by simp)
  have hlength : (p.giveBack clear st).storages.length = p.storages.length := by
    rw [Pool.giveBack, releaseStorage, destroyData, List.length_modify, List.length_modify]
  have hnext : (p.giveBack clear st).next = Function.update p.next st p.head := by
    funext st'
    rcases eq_or_ne st' st with rfl | hne
    · rw [Function.update_self, next,
        giveBack_storage clear (List.getElem?_eq_getElem hlt), Option.bind_some]
    · rw [Function.update_of_ne hne, next, giveBack_of_ne clear hne.symm, next]
  constructor
  · rw [hnext]
    refine h.linked.push ?_
    have hnodup := h.nodup
    rw [List.cons_append, List.nodup_cons, List.mem_append, not_or] at hnodup
    exact hnodup.1.2
  · rw [hlength]
    exact List.perm_middle.trans h.perm
  · rw [hlength, ← h.count]
    rfl

/-! ## The calls of a pool -/

variable {owned free : List ℕ}

theorem access_of_lt (hst : st < p.storages.length) :
    p.access (some st) = .ok (st, p.storages[st]) := by
  simp only [access, List.getElem?_eq_getElem hst]

/-- A storage that is created belongs to nobody else. -/
theorem Wf.create [Inhabited DataT] (h : p.Wf owned free) (data : DataT) :
    ∃ st p' free', p.create data = .ok ({ storage := some st, hasParent := true }, p') ∧
      p'.Wf (st :: owned) free' ∧ ∀ st' generation, p.generation st' = some generation →
        p'.generation st' = some generation := by
  obtain ⟨st, p', free', hget, hwf, hgeneration⟩ := h.getStorage_spec
  refine ⟨st, p'.initData st data, free', ?_, hwf.initData st data, fun st' generation h ↦ ?_⟩
  · simp only [Pool.create, hget, ok_bind, pure_eq_ok]
  · rw [initData_generation, hgeneration st' generation h]

theorem Wf.createEmpty [Inhabited DataT] (h : p.Wf owned free) :
    ∃ st p' free', p.createEmpty = .ok ({ storage := some st, hasParent := true }, p') ∧
      p'.Wf (st :: owned) free' ∧ ∀ st' generation, p.generation st' = some generation →
        p'.generation st' = some generation := by
  obtain ⟨st, p', free', hget, hwf, hgeneration⟩ := h.getStorage_spec
  refine ⟨st, p', free', ?_, hwf, hgeneration⟩
  simp only [Pool.createEmpty, hget, ok_bind, pure_eq_ok]

theorem release_eq (clear : DataT → DataT) {owner : OwnerPtr} (howner : owner.storage = some st)
    (hst : st < p.storages.length) :
    p.release clear owner = .ok ({ owner with storage := none }, p.giveBack clear st) := by
  simp only [Pool.release, OwnerPtr.release, howner, access_of_lt hst, ok_bind, pure_eq_ok,
    giveBack]

theorem reset_of_empty (clear : DataT → DataT) {owner : OwnerPtr} (howner : owner.storage = none) :
    p.reset clear owner = .ok (owner, p) := by
  rw [reset, howner]

theorem reset_eq (clear : DataT → DataT) {owner : OwnerPtr} (howner : owner.storage = some st)
    (hparent : owner.hasParent) (hst : st < p.storages.length) :
    p.reset clear owner = .ok ({ owner with storage := none }, p.giveBack clear st) := by
  have htemp := release_eq clear
    (show ({ storage := some st, hasParent := true } : OwnerPtr).storage = some st from rfl) hst
  rw [reset, howner]
  simp only [hparent, if_true, htemp, ok_bind, pure_eq_ok]

theorem getWeak_eq {owner : OwnerPtr} (howner : owner.storage = some st) {generation : Int32}
    (hgeneration : p.generation st = some generation) :
    p.getWeak owner = .ok { generation := generation, storage := some st } := by
  obtain ⟨storage, hstorage, rfl⟩ := Option.map_eq_some_iff.1 hgeneration
  simp only [getWeak, howner, access, hstorage, ok_bind, pure_eq_ok]

/-! ## The end of a pool -/

/-- The loop deletes the storages of the free list, each of them once. -/
theorem deleteLoop_eq {head : Option ℕ} {l : List ℕ} (h : Linked p.next head l)
    (hnodup : l.Nodup) {fuel n : ℕ} (hfuel : l.length ≤ fuel) (hn : l.length ≤ n)
    {storages : List (Option (Storage DataT))}
    (hstorages : ∀ st ∈ l, ∃ storage, storages[st]? = some (some storage) ∧
      storage.next = p.next st) :
    deleteLoop fuel storages head (Int32.ofNat n) = .ok (Int32.ofNat (n - l.length)) := by
  induction h generalizing fuel n storages with
  | nil => cases fuel <;> rfl
  | @cons st rest hrest ih =>
    obtain ⟨hnotMem, hnodup⟩ := List.nodup_cons.1 hnodup
    obtain ⟨storage, hstorage, hnext⟩ := hstorages st List.mem_cons_self
    rw [List.length_cons] at hfuel hn ⊢
    obtain ⟨fuel, rfl⟩ := Nat.exists_eq_add_of_le' (Nat.le_of_add_left_le hfuel)
    have hcount : Int32.ofNat n - 1 = Int32.ofNat (n - 1) :=
      (Int32.ofNat_sub n 1 (Nat.le_of_add_left_le hn)).symm
    simp only [deleteLoop, hstorage, hnext, hcount]
    rw [ih hnodup (Nat.le_of_succ_le_succ hfuel) (Nat.le_sub_one_of_lt hn) ?_,
      Nat.sub_sub, Nat.add_comm 1]
    intro st' hst'
    obtain ⟨storage', hstorage', hnext'⟩ := hstorages st' (List.mem_cons_of_mem _ hst')
    have hne : st ≠ st' := (ne_of_mem_of_not_mem hst' hnotMem).symm
    exact ⟨storage', by rw [List.getElem?_set_ne hne, hstorage'], hnext'⟩

/-- The check of `~ObjectPool` passes if nothing is owned. -/
theorem Wf.destroy (h : p.Wf [] free) : p.destroy = .ok () := by
  have hperm : free.Perm (List.range p.storages.length) := h.perm
  have hlength : free.length = p.storages.length := by rw [hperm.length_eq, List.length_range]
  have hloop := deleteLoop_eq h.linked h.nodup hlength.le hlength.le
    (show ∀ st ∈ free, ∃ storage, (p.storages.map some)[st]? = some (some storage) ∧
      storage.next = p.next st from fun st hst ↦ by
        have hlt : st < p.storages.length := h.lt_length hst
        exact ⟨p.storages[st], by simp [hlt], by simp [next, hlt]⟩)
  rw [Pool.destroy, h.count, hloop, hlength, Nat.sub_self]
  rfl

end Pool

/-- A weak pointer is alive as long as its storage has its generation. -/
theorem WeakPtr.isAlive_iff {weak : WeakPtr} (hst : weak.storage = some st) {generation : Int32}
    (hgeneration : p.generation st = some generation) :
    weak.isAlive p ↔ weak.generation = generation := by
  obtain ⟨storage, hstorage, rfl⟩ := Option.map_eq_some_iff.1 hgeneration
  rw [isAlive]
  simp only [hst, hstorage, Option.any_some, decide_eq_true_eq]

/-- The next generation is another one. -/
theorem ne_next_generation (generation : Int32) : generation ≠ generation + 1 := by
  intro heq
  have hzero : generation + 0 = generation + 1 := (Int32.add_zero generation).trans heq
  exact absurd ((Int32.add_right_inj generation).1 hzero) (by decide)

end PxcCore.ObjectPool
