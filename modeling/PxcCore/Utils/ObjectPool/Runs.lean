import PxcCore.Lib.ListUpdate
import PxcCore.Lib.Simulation
import PxcCore.Utils.ObjectPool

/-!
# Runs of an `ObjectPool`

The owners and the weak pointers of a pool, with the calls that change them.  An ownership begins
when a storage is created, moves from owner to owner, and ends when its owner gives the storage
back or is destroyed.  A weak pointer should be alive as long as the ownership it comes from.
-/

namespace PxcCore.ObjectPool

open Lib

variable {DataT : Type}

/-! ## Definitions -/

/-- A pool with the owners and the weak pointers that have been made.  A destroyed owner is
`none`. -/
structure World (DataT : Type) where
  pool : Pool DataT := {}
  owners : List (Option OwnerPtr) := []
  weaks : List WeakPtr := []

/-- The calls.  An owner or a weak pointer is the number of its construction. -/
inductive Op (DataT : Type) where
  | default
  | create (data : DataT)
  | createEmpty
  | moveConstruct (other : ℕ)
  | moveAssign (self other : ℕ)
  | reset (owner : ℕ)
  | ownerRelease (owner : ℕ)
  | release (owner : ℕ)
  | destroy (owner : ℕ)
  | getWeak (owner : ℕ)
  | isAlive (weak : ℕ)

namespace World

variable {w w' : World DataT}

/-- An owner that has not been destroyed. -/
def owner (w : World DataT) (i : ℕ) : Except String OwnerPtr :=
  match (w.owners[i]?).join with
  | none => .error "no such owner"
  | some owner => .ok owner

/-- A call, with what `is_alive` returns. -/
def step [Inhabited DataT] (clear : DataT → DataT) (w : World DataT) :
    Op DataT → Except String (Option Bool × World DataT)
  | .default => return (none, { w with owners := w.owners ++ [some {}] })
  | .create data => do
    let (owner, pool) ← w.pool.create data
    return (none, { w with pool := pool, owners := w.owners ++ [some owner] })
  | .createEmpty => do
    let (owner, pool) ← w.pool.createEmpty
    return (none, { w with pool := pool, owners := w.owners ++ [some owner] })
  | .moveConstruct other => do
    let owner ← w.owner other
    let (self, rest) := owner.moveConstruct
    return (none, { w with owners := w.owners.set other (some rest) ++ [some self] })
  | .moveAssign self other => do
    let selfOwner ← w.owner self
    let otherOwner ← w.owner other
    if self = other then return (none, w)
    else
      let (selfOwner, otherOwner) := selfOwner.moveAssign otherOwner
      return (none,
        { w with owners := (w.owners.set self (some selfOwner)).set other (some otherOwner) })
  | .reset i => do
    let owner ← w.owner i
    let (owner, pool) ← w.pool.reset clear owner
    return (none, { w with pool := pool, owners := w.owners.set i (some owner) })
  | .ownerRelease i => do
    let owner ← w.owner i
    return (none, { w with owners := w.owners.set i (some owner.release.2) })
  | .release i => do
    let owner ← w.owner i
    let (owner, pool) ← w.pool.release clear owner
    return (none, { w with pool := pool, owners := w.owners.set i (some owner) })
  | .destroy i => do
    let owner ← w.owner i
    let (_, pool) ← w.pool.reset clear owner
    return (none, { w with pool := pool, owners := w.owners.set i none })
  | .getWeak i => do
    let owner ← w.owner i
    let weak ← w.pool.getWeak owner
    return (none, { w with weaks := w.weaks ++ [weak] })
  | .isAlive i =>
    match w.weaks[i]? with
    | none => .error "no such weak pointer"
    | some weak => return (some (weak.isAlive w.pool), w)

/-- The storage of an owner. -/
def storageOf (w : World DataT) (i : ℕ) : Option ℕ := (w.owners[i]?).join.bind OwnerPtr.storage

/-- The storages of these owners. -/
def ownedBy (owners : List (Option OwnerPtr)) : List ℕ :=
  owners.filterMap (·.bind OwnerPtr.storage)

/-- The storages of the owners. -/
def owned (w : World DataT) : List ℕ := ownedBy w.owners

/-- The arguments of a call exist, and it does not use a null pointer. -/
def Valid (w : World DataT) : Op DataT → Prop
  | .default | .create _ | .createEmpty => True
  | .moveConstruct i | .reset i | .ownerRelease i | .destroy i => (w.owners[i]?).join ≠ none
  | .moveAssign i j => (w.owners[i]?).join ≠ none ∧ (w.owners[j]?).join ≠ none
  | .release i | .getWeak i => w.storageOf i ≠ none
  | .isAlive i => i < w.weaks.length

/-- No weak pointer has the generation that this storage gets when it is given back. -/
def Fresh (w : World DataT) (st : ℕ) : Prop :=
  ∀ weak ∈ w.weaks, weak.storage = some st →
    ∀ generation, w.pool.generation st = some generation → weak.generation ≠ generation + 1

/-- The calls that keep track of a storage: an owner that has a storage is not overwritten and does
not hand it out, and one that is given back gets a generation that no weak pointer has. -/
def Admits (w : World DataT) : Op DataT → Prop
  | .moveAssign self other => self = other ∨ w.storageOf self = none
  | .ownerRelease i => w.storageOf i = none
  | .reset i | .release i | .destroy i => ∀ st, w.storageOf i = some st → w.Fresh st
  | _ => True

end World

/-! ## Ownerships -/

/-- What the calls mean for the ownerships.  An ownership is the number of its creation. -/
structure Ownerships where
  started : ℕ := 0
  ended : List ℕ := []
  owners : List (Option (Option ℕ)) := []
  weaks : List ℕ := []

namespace Ownerships

variable {o o' : Ownerships}

/-- The ownership that an owner has. -/
def held (o : Ownerships) (i : ℕ) : Option ℕ := (o.owners[i]?).join.join

def step (o : Ownerships) : Op DataT → Ownerships
  | .default => { o with owners := o.owners ++ [some none] }
  | .create _ | .createEmpty =>
    { o with started := o.started + 1, owners := o.owners ++ [some (some o.started)] }
  | .moveConstruct other =>
    { o with owners := o.owners.set other (some none) ++ [some (o.held other)] }
  | .moveAssign self other =>
    if self = other then o
    else { o with owners := (o.owners.set self (some (o.held other))).set other (some none) }
  | .reset i | .ownerRelease i | .release i =>
    { o with ended := (o.held i).toList ++ o.ended, owners := o.owners.set i (some none) }
  | .destroy i => { o with ended := (o.held i).toList ++ o.ended, owners := o.owners.set i none }
  | .getWeak i => { o with weaks := o.weaks ++ (o.held i).toList }
  | .isAlive _ => o

end Ownerships

/-- What holds between calls: every storage is owned by one owner or on the free list once, a weak
pointer is alive as long as its ownership, and the pool may be destroyed if nothing is owned. -/
structure Sound (w : World DataT) (o : Ownerships) : Prop where
  placed : ∃ free, Linked w.pool.next w.pool.head free ∧
    ∀ st < w.pool.storages.length, w.owned.count st + free.count st = 1
  length_eq : w.weaks.length = o.weaks.length
  alive_iff : ∀ p ∈ w.weaks.zip o.weaks, p.1.isAlive w.pool ↔ p.2 ∉ o.ended
  destroy_eq : w.owned = [] → w.pool.destroy = .ok ()

/-! ## The invariant -/

variable {w w' : World DataT} {o : Ownerships} {own : ℕ → ℕ} {free : List ℕ} {st i : ℕ}
  {owner : OwnerPtr}

/-- A weak pointer has the generation of its storage exactly if its ownership has not ended. -/
structure Tracks (pool : Pool DataT) (owned : List ℕ) (own : ℕ → ℕ) (o : Ownerships)
    (weak : WeakPtr) (k : ℕ) : Prop where
  lt : k < o.started
  storage : ∃ st generation, weak.storage = some st ∧ pool.generation st = some generation ∧
    (k ∉ o.ended → st ∈ owned ∧ own st = k ∧ weak.generation = generation) ∧
    (k ∈ o.ended → weak.generation ≠ generation)

/-- The ownership of a storage is `own` of it. -/
structure Inv (w : World DataT) (o : Ownerships) (own : ℕ → ℕ) (free : List ℕ) : Prop where
  pool : w.pool.Wf w.owned free
  parent : ∀ owner, some owner ∈ w.owners → owner.storage ≠ none → owner.hasParent
  owners_eq : o.owners = w.owners.map (Option.map fun owner ↦ owner.storage.map own)
  own_lt : ∀ st ∈ w.owned, own st < o.started
  own_inj : Set.InjOn own { st | st ∈ w.owned }
  own_notMem : ∀ st ∈ w.owned, own st ∉ o.ended
  ended_lt : ∀ k ∈ o.ended, k < o.started
  weaks : List.Forall₂ (Tracks w.pool w.owned own o) w.weaks o.weaks

theorem World.owner_eq_ok : w.owner i = .ok owner ↔ w.owners[i]? = some (some owner) := by
  rw [World.owner]
  rcases hi : w.owners[i]? with _ | _ | owner' <;> simp

theorem World.storageOf_eq (h : w.owners[i]? = some (some owner)) :
    w.storageOf i = owner.storage := by
  rw [storageOf, h]
  rfl

theorem World.mem_owned (h : w.owners[i]? = some (some owner)) (hst : owner.storage = some st) :
    st ∈ w.owned :=
  List.mem_filterMap.2 ⟨some owner, List.mem_of_getElem? h, hst⟩

/-- What an owner has goes when it changes. -/
theorem World.ownedBy_set {owners : List (Option OwnerPtr)} (h : owners[i]? = some (some owner))
    (x : Option OwnerPtr) : (ownedBy (owners.set i x) ++ owner.storage.toList).Perm
      (ownedBy owners ++ (x.bind OwnerPtr.storage).toList) :=
  perm_filterMap_set h x

theorem World.ownedBy_concat (owners : List (Option OwnerPtr)) (owner : OwnerPtr) :
    ownedBy (owners ++ [some owner]) = ownedBy owners ++ owner.storage.toList := by
  rw [ownedBy, List.filterMap_append, filterMap_cons_eq, List.filterMap_nil, List.append_nil]
  rfl

/-- An owner that is overwritten loses what it has, and the other one loses nothing to others. -/
theorem World.ownedBy_moveAssign {owners : List (Option OwnerPtr)} {self other : ℕ}
    {selfOwner otherOwner : OwnerPtr} (hself : owners[self]? = some (some selfOwner))
    (hother : owners[other]? = some (some otherOwner)) (hne : self ≠ other) :
    (ownedBy ((owners.set self (some (selfOwner.moveAssign otherOwner).1)).set other
        (some (selfOwner.moveAssign otherOwner).2)) ++ selfOwner.storage.toList).Perm
      (ownedBy owners) := by
  have hset := ownedBy_set hself (some (selfOwner.moveAssign otherOwner).1)
  have hother' : (owners.set self (some (selfOwner.moveAssign otherOwner).1))[other]? =
      some (some otherOwner) := by rw [List.getElem?_set_ne hne, hother]
  have hset' := ownedBy_set hother' (some (selfOwner.moveAssign otherOwner).2)
  rw [show (some (selfOwner.moveAssign otherOwner).2).bind OwnerPtr.storage = none from rfl,
    Option.toList_none, List.append_nil] at hset'
  refine (List.perm_append_right_iff otherOwner.storage.toList).1 ?_
  rw [List.append_assoc]
  refine (List.perm_append_comm.append_left _).trans ?_
  rw [← List.append_assoc]
  exact (hset'.append_right _).trans hset

namespace Inv

theorem empty : Inv ({} : World DataT) {} id [] where
  pool := .empty
  parent := by simp
  owners_eq := rfl
  own_lt := by simp [World.owned, World.ownedBy]
  own_inj := by simp [World.owned, World.ownedBy]
  own_notMem := by simp [World.owned, World.ownedBy]
  ended_lt := by simp
  weaks := .nil

theorem held_eq (h : Inv w o own free) (hi : w.owners[i]? = some (some owner)) :
    o.held i = owner.storage.map own := by
  rw [Ownerships.held, h.owners_eq, List.getElem?_map, hi]
  rfl

theorem sound (h : Inv w o own free) : Sound w o where
  placed := ⟨free, h.pool.linked, fun _ hst ↦ h.pool.count_add_count hst⟩
  length_eq := h.weaks.length_eq
  alive_iff := by
    rintro ⟨weak, k⟩ hp
    obtain ⟨-, st, generation, hst, hgeneration, hlive, hdead⟩ :=
      (List.forall₂_iff_zip.1 h.weaks).2 hp
    rw [WeakPtr.isAlive_iff hst hgeneration]
    constructor
    · exact fun heq hended ↦ hdead hended heq
    · exact fun hended ↦ (hlive hended).2.2
  destroy_eq hnone := by
    have hwf := h.pool
    rw [hnone] at hwf
    exact hwf.destroy

/-- Storages go from owner to owner. -/
theorem setOwners (h : Inv w o own free) {owners : List (Option OwnerPtr)}
    {held : List (Option (Option ℕ))} (hperm : (World.ownedBy owners).Perm w.owned)
    (hparent : ∀ owner, some owner ∈ owners → owner.storage ≠ none → owner.hasParent)
    (hheld : held = owners.map (Option.map fun owner ↦ owner.storage.map own)) :
    Inv { w with owners := owners } { o with owners := held } own free where
  pool := h.pool.of_perm hperm
  parent := hparent
  owners_eq := hheld
  own_lt := fun st hst ↦ h.own_lt st (hperm.mem_iff.1 hst)
  own_inj := fun st hst st' hst' heq ↦ h.own_inj (hperm.mem_iff.1 hst) (hperm.mem_iff.1 hst') heq
  own_notMem := fun st hst ↦ h.own_notMem st (hperm.mem_iff.1 hst)
  ended_lt := h.ended_lt
  weaks := by
    refine h.weaks.imp fun weak k htracks ↦ ⟨htracks.lt, ?_⟩
    obtain ⟨st, generation, hst, hgeneration, hlive, hdead⟩ := htracks.storage
    refine ⟨st, generation, hst, hgeneration, fun hended ↦ ?_, hdead⟩
    exact ⟨hperm.mem_iff.2 (hlive hended).1, (hlive hended).2⟩

/-- A storage is given back: its ownership ends, and its generation is a new one. -/
theorem giveBack (h : Inv w o own free) (hi : w.owners[i]? = some (some owner))
    (hst : owner.storage = some st) {x : Option OwnerPtr} (hx : x.bind OwnerPtr.storage = none)
    (hfresh : w.Fresh st) (clear : DataT → DataT) :
    Inv { w with pool := w.pool.giveBack clear st, owners := w.owners.set i x }
      { o with ended := own st :: o.ended, owners := o.owners.set i (x.map fun _ ↦ none) }
      own (st :: free) := by
  have hperm : (st :: World.ownedBy (w.owners.set i x)).Perm w.owned := by
    have hset := World.ownedBy_set hi x
    rw [hst, hx, Option.toList_some, Option.toList_none, List.append_nil] at hset
    exact (List.perm_append_singleton st _).symm.trans hset
  have hwf := h.pool.of_perm hperm
  have hnodup : ∀ st' ∈ World.ownedBy (w.owners.set i x), st' ≠ st := by
    have hnodup := hwf.nodup
    rw [List.cons_append, List.nodup_cons, List.mem_append, not_or] at hnodup
    exact fun st' hst' ↦ ne_of_mem_of_not_mem hst' hnodup.1.1
  have hmem : ∀ st' ∈ World.ownedBy (w.owners.set i x), st' ∈ w.owned :=
    fun st' hst' ↦ hperm.mem_iff.1 (List.mem_cons_of_mem _ hst')
  have howned : st ∈ w.owned := World.mem_owned hi hst
  have hne : ∀ st' ∈ World.ownedBy (w.owners.set i x), own st' ≠ own st :=
    fun st' hst' heq ↦ hnodup st' hst' (h.own_inj (hmem st' hst') howned heq)
  constructor
  · exact hwf.giveBack clear
  · intro owner' howner' hstorage
    rcases List.mem_or_eq_of_mem_set howner' with hold | rfl
    · exact h.parent owner' hold hstorage
    · exact absurd hx hstorage
  · change o.owners.set i (x.map fun _ ↦ none) = _
    rw [h.owners_eq, List.map_set]
    cases x with
    | none => rfl
    | some x =>
      have hempty : x.storage = none := hx
      rw [Option.map_some, Option.map_some, hempty, Option.map_none]
  · exact fun st' hst' ↦ h.own_lt st' (hmem st' hst')
  · exact fun a ha b hb heq ↦ h.own_inj (hmem a ha) (hmem b hb) heq
  · intro st' hst'
    rw [List.mem_cons, not_or]
    exact ⟨hne st' hst', h.own_notMem st' (hmem st' hst')⟩
  · intro k hk
    rcases List.mem_cons.1 hk with rfl | hk
    · exact h.own_lt st howned
    · exact h.ended_lt k hk
  · refine ((List.forall₂_and_left _ _).2 ⟨hfresh, h.weaks⟩).imp fun weak k ↦ ?_
    rintro ⟨hnew, hlt, st', generation, hst', hgeneration, hlive, hdead⟩
    rcases eq_or_ne st st' with rfl | hne'
    · have hgeneration' := Pool.giveBack_generation clear hgeneration
      have hended : weak.generation ≠ generation + 1 := hnew hst' generation hgeneration
      refine ⟨hlt, st, generation + 1, hst', hgeneration', fun hk ↦ ?_, fun _ ↦ hended⟩
      -- the ownership of a storage that is given back is not a live one
      rw [List.mem_cons, not_or] at hk
      exact absurd (hlive hk.2).2.1.symm hk.1
    · refine ⟨hlt, st', generation, hst', ?_, fun hk ↦ ?_, fun hk ↦ ?_⟩
      · exact (Pool.giveBack_generation_of_ne clear hne').trans hgeneration
      · rw [List.mem_cons, not_or] at hk
        obtain ⟨hmem', hown⟩ := hlive hk.2
        have hmem'' := List.mem_of_ne_of_mem hne'.symm (hperm.mem_iff.2 hmem')
        exact ⟨hmem'', hown⟩
      · rcases List.mem_cons.1 hk with rfl | hk
        · by_contra heq
          obtain ⟨hmem', hown, -⟩ := hlive (h.own_notMem st howned)
          exact hne' (h.own_inj howned hmem' hown.symm)
        · exact hdead hk

/-- A storage gets a new ownership. -/
theorem create (h : Inv w o own free) {p' : Pool DataT} {free' : List ℕ}
    (hwf : p'.Wf (st :: w.owned) free')
    (hgeneration : ∀ st' generation, w.pool.generation st' = some generation →
      p'.generation st' = some generation) :
    Inv { w with pool := p'
                 owners := w.owners ++ [some { storage := some st, hasParent := true }] }
      { o with started := o.started + 1, owners := o.owners ++ [some (some o.started)] }
      (Function.update own st o.started) free' := by
  have hnotMem : st ∉ w.owned := fun hmem ↦ by
    have hnodup := hwf.nodup
    rw [List.cons_append, List.nodup_cons] at hnodup
    exact hnodup.1 (List.mem_append_left _ hmem)
  have hown : ∀ st' ∈ w.owned, Function.update own st o.started st' = own st' :=
    fun st' hst' ↦ Function.update_of_ne (ne_of_mem_of_not_mem hst' hnotMem) _ _
  have howned : World.ownedBy (w.owners ++ [some { storage := some st, hasParent := true }]) =
      w.owned ++ [st] := World.ownedBy_concat _ _
  have hmem : ∀ st' ∈ w.owned ++ [st], st' ∈ w.owned ∧
      Function.update own st o.started st' = own st' ∨
        Function.update own st o.started st' = o.started ∧ st' = st := fun st' hst' ↦ by
    rcases List.mem_append.1 hst' with hold | hnew
    · exact .inl ⟨hold, hown st' hold⟩
    · obtain rfl := List.mem_singleton.1 hnew
      exact .inr ⟨Function.update_self st' _ _, rfl⟩
  constructor
  · refine hwf.of_perm ?_
    rw [World.owned, howned]
    exact List.perm_append_singleton _ _
  · intro owner' howner' hstorage
    rcases List.mem_append.1 howner' with hold | hnew
    · exact h.parent owner' hold hstorage
    · obtain rfl := Option.some.inj (List.mem_singleton.1 hnew)
      rfl
  · change o.owners ++ [some (some o.started)] = _
    rw [h.owners_eq, List.map_append]
    congr 1
    · refine List.map_congr_left fun x hx ↦ ?_
      cases x with
      | none => rfl
      | some owner =>
        rw [Option.map_some, Option.map_some]
        rcases hst : owner.storage with _ | st'
        · rfl
        · have hst' : st' ∈ w.owned := List.mem_filterMap.2 ⟨some owner, hx, hst⟩
          rw [Option.map_some, Option.map_some, hown st' hst']
    · rw [List.map_singleton, Option.map_some, Option.map_some, Function.update_self]
  · intro st' hst'
    rw [World.owned, howned] at hst'
    rcases hmem st' hst' with ⟨hold, heq⟩ | ⟨heq, -⟩
    · rw [heq]
      exact (h.own_lt st' hold).trans (Nat.lt_succ_self _)
    · rw [heq]
      exact Nat.lt_succ_self _
  · intro a ha b hb heq
    rw [World.owned, howned] at ha hb
    rcases hmem a ha with ⟨ha', hxa⟩ | ⟨hxa, hxa'⟩ <;>
      rcases hmem b hb with ⟨hb', hxb⟩ | ⟨hxb, hxb'⟩ <;>
      rw [hxa, hxb] at heq
    · exact h.own_inj ha' hb' heq
    · exact absurd heq (h.own_lt a ha').ne
    · exact absurd heq.symm (h.own_lt b hb').ne
    · exact hxa'.trans hxb'.symm
  · intro st' hst'
    rw [World.owned, howned] at hst'
    rcases hmem st' hst' with ⟨hold, heq⟩ | ⟨heq, -⟩
    · rw [heq]
      exact h.own_notMem st' hold
    · rw [heq]
      exact fun hended ↦ (h.ended_lt _ hended).ne rfl
  · exact fun k hk ↦ (h.ended_lt k hk).trans (Nat.lt_succ_self _)
  · refine h.weaks.imp fun weak k ↦ ?_
    rintro ⟨hlt, st', generation, hst', hgen, hlive, hdead⟩
    refine ⟨hlt.trans (Nat.lt_succ_self _), st', generation, hst', hgeneration st' _ hgen,
      fun hk ↦ ?_, hdead⟩
    obtain ⟨hmem', rfl, heq⟩ := hlive hk
    rw [World.owned, howned]
    exact ⟨List.mem_append_left _ hmem', hown st' hmem', heq⟩

/-- A weak pointer is made from an owner. -/
theorem getWeak (h : Inv w o own free) (hi : w.owners[i]? = some (some owner))
    (hst : owner.storage = some st) {generation : Int32}
    (hgeneration : w.pool.generation st = some generation) :
    Inv { w with weaks := w.weaks ++ [{ generation := generation, storage := some st }] }
      { o with weaks := o.weaks ++ [own st] } own free where
  pool := h.pool
  parent := h.parent
  owners_eq := h.owners_eq
  own_lt := h.own_lt
  own_inj := h.own_inj
  own_notMem := h.own_notMem
  ended_lt := h.ended_lt
  weaks := by
    have howned : st ∈ w.owned := World.mem_owned hi hst
    have htracks : List.Forall₂ (Tracks w.pool w.owned own { o with weaks := o.weaks ++ [own st] })
        w.weaks o.weaks := h.weaks.imp fun weak k htracks ↦ ⟨htracks.lt, htracks.storage⟩
    refine forall₂_concat htracks ⟨h.own_lt st howned, st, generation, rfl, hgeneration, ?_, ?_⟩
    · exact fun _ ↦ ⟨howned, rfl, rfl⟩
    · exact fun hended ↦ absurd hended (h.own_notMem st howned)

/-- A new owner without a storage. -/
theorem default (h : Inv w o own free) :
    Inv { w with owners := w.owners ++ [some {}] } { o with owners := o.owners ++ [some none] }
      own free := by
  refine h.setOwners ?_ ?_ ?_
  · rw [World.ownedBy_concat, Option.toList_none, List.append_nil]
    exact .refl _
  · intro owner' howner' hstorage
    rcases List.mem_append.1 howner' with hold | hnew
    · exact h.parent owner' hold hstorage
    · obtain rfl := Option.some.inj (List.mem_singleton.1 hnew)
      exact absurd rfl hstorage
  · rw [List.map_append, h.owners_eq]
    rfl

/-- The new owner has the storage of the other one. -/
theorem moveConstruct (h : Inv w o own free) (hi : w.owners[i]? = some (some owner)) :
    Inv { w with owners := w.owners.set i (some owner.moveConstruct.2) ++
                   [some owner.moveConstruct.1] }
      { o with owners := o.owners.set i (some none) ++ [some (o.held i)] } own free := by
  refine h.setOwners ?_ ?_ ?_
  · rw [World.ownedBy_concat]
    have hset := World.ownedBy_set hi (some owner.moveConstruct.2)
    rwa [show (some owner.moveConstruct.2).bind OwnerPtr.storage = none from rfl,
      Option.toList_none, List.append_nil] at hset
  · intro owner' howner' hstorage
    rcases List.mem_append.1 howner' with hset | hnew
    · rcases List.mem_or_eq_of_mem_set hset with hold | heq
      · exact h.parent owner' hold hstorage
      · obtain rfl := Option.some.inj heq
        exact absurd rfl hstorage
    · obtain rfl := Option.some.inj (List.mem_singleton.1 hnew)
      exact h.parent _ (List.mem_of_getElem? hi) hstorage
  · rw [List.map_append, List.map_set, ← h.owners_eq, h.held_eq hi]
    rfl

/-- An owner without a storage gets the one of another owner. -/
theorem moveAssign (h : Inv w o own free) {self other : ℕ} {selfOwner otherOwner : OwnerPtr}
    (hself : w.owners[self]? = some (some selfOwner))
    (hother : w.owners[other]? = some (some otherOwner)) (hne : self ≠ other)
    (hempty : selfOwner.storage = none) :
    Inv { w with owners := (w.owners.set self (some (selfOwner.moveAssign otherOwner).1)).set other
                   (some (selfOwner.moveAssign otherOwner).2) }
      { o with owners := (o.owners.set self (some (o.held other))).set other (some none) }
      own free := by
  refine h.setOwners ?_ ?_ ?_
  · have hperm := World.ownedBy_moveAssign hself hother hne
    rwa [hempty, Option.toList_none, List.append_nil] at hperm
  · intro owner' howner' hstorage
    rcases List.mem_or_eq_of_mem_set howner' with hset | heq
    · rcases List.mem_or_eq_of_mem_set hset with hold | heq
      · exact h.parent owner' hold hstorage
      · obtain rfl := Option.some.inj heq
        exact h.parent _ (List.mem_of_getElem? hother) hstorage
    · obtain rfl := Option.some.inj heq
      exact absurd rfl hstorage
  · rw [List.map_set, List.map_set, ← h.owners_eq, h.held_eq hother]
    rfl

/-- An owner gives its storage back, if it has one. -/
theorem giveUp (h : Inv w o own free) (hi : w.owners[i]? = some (some owner))
    {x : Option OwnerPtr} (hx : x.bind OwnerPtr.storage = none)
    (hfresh : ∀ st, owner.storage = some st → w.Fresh st) (clear : DataT → DataT) :
    ∃ free', Inv { w with pool := owner.storage.elim w.pool (w.pool.giveBack clear)
                          owners := w.owners.set i x }
      { o with ended := (o.held i).toList ++ o.ended
               owners := o.owners.set i (x.map fun _ ↦ none) } own free' := by
  rw [h.held_eq hi]
  rcases hst : owner.storage with _ | st
  · refine ⟨free, h.setOwners ?_ ?_ ?_⟩
    · have hset := World.ownedBy_set hi x
      rwa [hst, hx, Option.toList_none, List.append_nil, List.append_nil] at hset
    · intro owner' howner' hstorage
      rcases List.mem_or_eq_of_mem_set howner' with hold | rfl
      · exact h.parent owner' hold hstorage
      · exact absurd hx hstorage
    · rw [List.map_set, ← h.owners_eq]
      cases x with
      | none => rfl
      | some x =>
        have hempty : x.storage = none := hx
        rw [Option.map_some, Option.map_some, hempty, Option.map_none]
  · exact ⟨st :: free, h.giveBack hi hst hx (hfresh st hst) clear⟩

end Inv

/-! ## What the pool returns -/

/-- A storage that is owned has been allocated. -/
theorem Inv.lt_length (h : Inv w o own free) (hi : w.owners[i]? = some (some owner))
    (hst : owner.storage = some st) : st < w.pool.storages.length :=
  h.pool.lt_length (List.mem_append_left _ (World.mem_owned hi hst))

/-- An owner that has a storage gives it back, and one that has none stays. -/
theorem Inv.reset_eq (h : Inv w o own free) (hi : w.owners[i]? = some (some owner))
    (clear : DataT → DataT) : w.pool.reset clear owner = .ok ({ owner with storage := none },
      owner.storage.elim w.pool (w.pool.giveBack clear)) := by
  obtain ⟨_ | st, hasParent⟩ := owner
  · exact Pool.reset_of_empty clear rfl
  · have hparent : hasParent := h.parent _ (List.mem_of_getElem? hi) (Option.some_ne_none st)
    exact Pool.reset_eq clear rfl hparent (h.lt_length hi rfl)

theorem Inv.release_eq (h : Inv w o own free) (hi : w.owners[i]? = some (some owner))
    (hst : owner.storage = some st) (clear : DataT → DataT) :
    w.pool.release clear owner = .ok ({ owner with storage := none },
      owner.storage.elim w.pool (w.pool.giveBack clear)) := by
  rw [Pool.release_eq clear hst (h.lt_length hi hst), hst]
  rfl

theorem Inv.getWeak_eq (h : Inv w o own free) (hi : w.owners[i]? = some (some owner))
    (hst : owner.storage = some st) : ∃ generation, w.pool.generation st = some generation ∧
      w.pool.getWeak owner = .ok { generation := generation, storage := some st } := by
  have hstorage := List.getElem?_eq_getElem (h.lt_length hi hst)
  have hgeneration : w.pool.generation st = some _ := congrArg (Option.map Storage.generation)
    hstorage
  exact ⟨_, hgeneration, Pool.getWeak_eq hst hgeneration⟩

/-! ## Calls that are not admitted -/

/-- A storage that its owner loses is neither owned nor free. -/
theorem Inv.not_sound_of_lost (h : Inv w o own free) (hi : w.owners[i]? = some (some owner))
    (hst : owner.storage = some st) {owners : List (Option OwnerPtr)}
    (hperm : (World.ownedBy owners ++ [st]).Perm w.owned) (o' : Ownerships) :
    ¬Sound { w with owners := owners } o' := by
  rintro ⟨⟨free', hlinked, hcount⟩, -⟩
  obtain rfl := h.pool.linked.unique hlinked
  have hlt := h.lt_length hi hst
  have hbefore := h.pool.count_add_count hlt
  have hafter := hcount st hlt
  rw [← hperm.count_eq, List.count_append, List.count_singleton_self] at hbefore
  change (World.ownedBy owners).count st + _ = 1 at hafter
  omega

/-- A storage whose generation comes around makes an old weak pointer alive. -/
theorem Inv.not_sound_of_stale (h : Inv w o own free) (hstale : ¬w.Fresh st)
    (clear : DataT → DataT) {owners : List (Option OwnerPtr)} {ended : List ℕ}
    (hended : ∀ k ∈ o.ended, k ∈ ended) {held : List (Option (Option ℕ))} :
    ¬Sound { w with pool := w.pool.giveBack clear st, owners := owners }
      { o with ended := ended, owners := held } := by
  intro hsound
  rw [World.Fresh] at hstale
  push Not at hstale
  obtain ⟨weak, hweak, hst, generation, hgeneration, heq⟩ := hstale
  obtain ⟨j, hj⟩ := List.mem_iff_getElem?.1 hweak
  obtain ⟨hlt, -⟩ := List.getElem?_eq_some_iff.1 hj
  have hlt' : j < o.weaks.length := h.weaks.length_eq ▸ hlt
  have hp : (weak, o.weaks[j]) ∈ w.weaks.zip o.weaks :=
    List.mem_of_getElem? (List.getElem?_zip_eq_some.2 ⟨hj, List.getElem?_eq_getElem hlt'⟩)
  obtain ⟨-, st', generation', hst', hgeneration', hlive, -⟩ :=
    (List.forall₂_iff_zip.1 h.weaks).2 hp
  obtain rfl := Option.some.inj (hst.symm.trans hst')
  obtain rfl := Option.some.inj (hgeneration.symm.trans hgeneration')
  -- the weak pointer was not alive before, so that its ownership has ended
  have hdead : o.weaks[j] ∈ o.ended := by
    by_contra hk
    exact ne_next_generation generation ((hlive hk).2.2.symm.trans heq)
  have halive := (WeakPtr.isAlive_iff hst (Pool.giveBack_generation clear hgeneration)).2 heq
  exact (hsound.alive_iff _ hp).1 halive (hended _ hdead)

/-! ## Each call -/

/-- The owner that an argument names. -/
theorem World.exists_owner (h : (w.owners[i]?).join ≠ none) :
    ∃ owner, w.owner i = .ok owner ∧ w.owners[i]? = some (some owner) := by
  obtain ⟨owner, howner⟩ := Option.ne_none_iff_exists'.1 h
  have hi := Option.join_eq_some_iff.1 howner
  exact ⟨owner, World.owner_eq_ok.2 hi, hi⟩

theorem World.exists_storage (h : w.storageOf i ≠ none) :
    ∃ owner st, w.owner i = .ok owner ∧ w.owners[i]? = some (some owner) ∧
      owner.storage = some st := by
  obtain ⟨st, hst⟩ := Option.ne_none_iff_exists'.1 h
  obtain ⟨owner, howner, hst⟩ := Option.bind_eq_some_iff.1 hst
  have hi := Option.join_eq_some_iff.1 howner
  exact ⟨owner, st, World.owner_eq_ok.2 hi, hi, hst⟩

section Calls

variable [Inhabited DataT] {clear : DataT → DataT} {op : Op DataT} {out : Option Bool}

/-- What a call keeps that the world admits. -/
theorem Inv.step_spec (h : Inv w o own free) (hadmits : w.Admits op)
    (hstep : w.step clear op = .ok (out, w')) : ∃ own' free', Inv w' (o.step op) own' free' := by
  cases op with
  | default =>
    obtain ⟨-, rfl⟩ := Prod.mk.inj (Except.ok.inj hstep)
    exact ⟨own, free, h.default⟩
  | create data =>
    obtain ⟨st, p', free', hcreate, hwf, hgeneration⟩ := h.pool.create data
    simp only [World.step, hcreate, ok_bind] at hstep
    obtain ⟨-, rfl⟩ := Prod.mk.inj (Except.ok.inj hstep)
    exact ⟨_, free', h.create hwf hgeneration⟩
  | createEmpty =>
    obtain ⟨st, p', free', hcreate, hwf, hgeneration⟩ := h.pool.createEmpty
    simp only [World.step, hcreate, ok_bind] at hstep
    obtain ⟨-, rfl⟩ := Prod.mk.inj (Except.ok.inj hstep)
    exact ⟨_, free', h.create hwf hgeneration⟩
  | moveConstruct i =>
    obtain ⟨owner, howner, hret⟩ := bind_eq_ok.1 hstep
    obtain ⟨-, rfl⟩ := Prod.mk.inj (Except.ok.inj hret)
    exact ⟨own, free, h.moveConstruct (World.owner_eq_ok.1 howner)⟩
  | moveAssign self other =>
    obtain ⟨selfOwner, hself, hrest⟩ := bind_eq_ok.1 hstep
    obtain ⟨otherOwner, hother, hret⟩ := bind_eq_ok.1 hrest
    rw [World.owner_eq_ok] at hself hother
    rcases eq_or_ne self other with rfl | hne
    · rw [if_pos rfl] at hret
      obtain ⟨-, rfl⟩ := Prod.mk.inj (Except.ok.inj hret)
      rw [Ownerships.step, if_pos rfl]
      exact ⟨own, free, h⟩
    · rw [if_neg hne] at hret
      obtain ⟨-, rfl⟩ := Prod.mk.inj (Except.ok.inj hret)
      rw [Ownerships.step, if_neg hne]
      have hempty := hadmits.resolve_left hne
      rw [World.storageOf_eq hself] at hempty
      exact ⟨own, free, h.moveAssign hself hother hne hempty⟩
  | reset i =>
    obtain ⟨owner, howner, hrest⟩ := bind_eq_ok.1 hstep
    rw [World.owner_eq_ok] at howner
    simp only [h.reset_eq howner, ok_bind] at hrest
    obtain ⟨-, rfl⟩ := Prod.mk.inj (Except.ok.inj hrest)
    rw [World.Admits, World.storageOf_eq howner] at hadmits
    exact ⟨own, h.giveUp howner rfl hadmits clear⟩
  | ownerRelease i =>
    obtain ⟨owner, howner, hrest⟩ := bind_eq_ok.1 hstep
    rw [World.owner_eq_ok] at howner
    obtain ⟨-, rfl⟩ := Prod.mk.inj (Except.ok.inj hrest)
    rw [World.Admits, World.storageOf_eq howner] at hadmits
    have hempty : (some owner.release.2).bind OwnerPtr.storage = none := rfl
    have hgiveUp := h.giveUp howner hempty (by simp [hadmits]) clear
    rw [hadmits] at hgiveUp
    exact ⟨own, hgiveUp⟩
  | release i =>
    obtain ⟨owner, howner, hrest⟩ := bind_eq_ok.1 hstep
    rw [World.owner_eq_ok] at howner
    rcases hst : owner.storage with _ | st
    · simp [Pool.release, OwnerPtr.release, hst, Pool.access] at hrest
    · simp only [h.release_eq howner hst, ok_bind] at hrest
      obtain ⟨-, rfl⟩ := Prod.mk.inj (Except.ok.inj hrest)
      rw [World.Admits, World.storageOf_eq howner] at hadmits
      exact ⟨own, h.giveUp howner rfl hadmits clear⟩
  | destroy i =>
    obtain ⟨owner, howner, hrest⟩ := bind_eq_ok.1 hstep
    rw [World.owner_eq_ok] at howner
    simp only [h.reset_eq howner, ok_bind] at hrest
    obtain ⟨-, rfl⟩ := Prod.mk.inj (Except.ok.inj hrest)
    rw [World.Admits, World.storageOf_eq howner] at hadmits
    exact ⟨own, h.giveUp howner rfl hadmits clear⟩
  | getWeak i =>
    obtain ⟨owner, howner, hrest⟩ := bind_eq_ok.1 hstep
    rw [World.owner_eq_ok] at howner
    rcases hst : owner.storage with _ | st
    · simp [Pool.getWeak, hst, Pool.access] at hrest
    · obtain ⟨generation, hgeneration, hweak⟩ := h.getWeak_eq howner hst
      simp only [hweak, ok_bind] at hrest
      obtain ⟨-, rfl⟩ := Prod.mk.inj (Except.ok.inj hrest)
      rw [Ownerships.step, h.held_eq howner, hst]
      exact ⟨own, free, h.getWeak howner hst hgeneration⟩
  | isAlive i =>
    rw [World.step] at hstep
    rcases hi : w.weaks[i]? with _ | weak
    · rw [hi] at hstep
      cases hstep
    · rw [hi] at hstep
      obtain ⟨-, rfl⟩ := Prod.mk.inj (Except.ok.inj hstep)
      exact ⟨own, free, h⟩

/-- A call that does not use a null pointer returns. -/
theorem Inv.step_ok (h : Inv w o own free) (hvalid : w.Valid op) :
    ∃ out w', w.step clear op = .ok (out, w') := by
  cases op with
  | default => exact ⟨_, _, rfl⟩
  | create data =>
    obtain ⟨st, p', free', hcreate, -⟩ := h.pool.create data
    exact ⟨_, _, by simp only [World.step, hcreate, ok_bind, pure_eq_ok]; rfl⟩
  | createEmpty =>
    obtain ⟨st, p', free', hcreate, -⟩ := h.pool.createEmpty
    exact ⟨_, _, by simp only [World.step, hcreate, ok_bind, pure_eq_ok]; rfl⟩
  | moveConstruct i | ownerRelease i =>
    obtain ⟨owner, howner, -⟩ := World.exists_owner hvalid
    exact ⟨_, _, by simp only [World.step, howner, ok_bind, pure_eq_ok]; rfl⟩
  | moveAssign self other =>
    obtain ⟨selfOwner, hself, -⟩ := World.exists_owner hvalid.1
    obtain ⟨otherOwner, hother, -⟩ := World.exists_owner hvalid.2
    simp only [World.step, hself, hother, ok_bind]
    split
    · exact ⟨_, _, rfl⟩
    · exact ⟨_, _, rfl⟩
  | reset i | destroy i =>
    obtain ⟨owner, howner, hi⟩ := World.exists_owner hvalid
    exact ⟨_, _, by simp only [World.step, howner, h.reset_eq hi, ok_bind, pure_eq_ok]; rfl⟩
  | release i =>
    obtain ⟨owner, st, howner, hi, hst⟩ := World.exists_storage hvalid
    exact ⟨_, _, by simp only [World.step, howner, h.release_eq hi hst, ok_bind, pure_eq_ok]; rfl⟩
  | getWeak i =>
    obtain ⟨owner, st, howner, hi, hst⟩ := World.exists_storage hvalid
    obtain ⟨generation, -, hweak⟩ := h.getWeak_eq hi hst
    exact ⟨_, _, by simp only [World.step, howner, hweak, ok_bind, pure_eq_ok]; rfl⟩
  | isAlive i =>
    exact ⟨_, _, by simp only [World.step, List.getElem?_eq_getElem hvalid, pure_eq_ok]; rfl⟩

/-- A call that the world does not admit goes wrong. -/
theorem Inv.admits_of_sound (h : Inv w o own free) (hstep : w.step clear op = .ok (out, w'))
    (hsound : Sound w' (o.step op)) : w.Admits op := by
  cases op with
  | default | create data | createEmpty | moveConstruct i | getWeak i | isAlive i => exact trivial
  | moveAssign self other =>
    obtain ⟨selfOwner, hself, hrest⟩ := bind_eq_ok.1 hstep
    obtain ⟨otherOwner, hother, hret⟩ := bind_eq_ok.1 hrest
    rw [World.owner_eq_ok] at hself hother
    rcases eq_or_ne self other with rfl | hne
    · exact .inl rfl
    · refine .inr ?_
      rw [World.storageOf_eq hself]
      by_contra hst
      obtain ⟨st, hst⟩ := Option.ne_none_iff_exists'.1 hst
      rw [if_neg hne] at hret
      obtain ⟨-, rfl⟩ := Prod.mk.inj (Except.ok.inj hret)
      have hperm := World.ownedBy_moveAssign hself hother hne
      rw [hst] at hperm
      exact h.not_sound_of_lost hself hst hperm _ hsound
  | ownerRelease i =>
    obtain ⟨owner, howner, hret⟩ := bind_eq_ok.1 hstep
    rw [World.owner_eq_ok] at howner
    rw [World.Admits, World.storageOf_eq howner]
    by_contra hst
    obtain ⟨st, hst⟩ := Option.ne_none_iff_exists'.1 hst
    obtain ⟨-, rfl⟩ := Prod.mk.inj (Except.ok.inj hret)
    have hset := World.ownedBy_set howner (some owner.release.2)
    rw [hst, show (some owner.release.2).bind OwnerPtr.storage = none from rfl,
      Option.toList_none, List.append_nil] at hset
    exact h.not_sound_of_lost howner hst hset _ hsound
  | reset i | destroy i =>
    obtain ⟨owner, howner, hrest⟩ := bind_eq_ok.1 hstep
    rw [World.owner_eq_ok] at howner
    simp only [h.reset_eq howner, ok_bind] at hrest
    obtain ⟨-, rfl⟩ := Prod.mk.inj (Except.ok.inj hrest)
    intro st hst
    rw [World.storageOf_eq howner] at hst
    rw [hst] at hsound
    by_contra hstale
    exact h.not_sound_of_stale hstale clear (fun k hk ↦ List.mem_append_right _ hk) hsound
  | release i =>
    obtain ⟨owner, howner, hrest⟩ := bind_eq_ok.1 hstep
    rw [World.owner_eq_ok] at howner
    intro st hst
    rw [World.storageOf_eq howner] at hst
    simp only [h.release_eq howner hst, ok_bind] at hrest
    obtain ⟨-, rfl⟩ := Prod.mk.inj (Except.ok.inj hrest)
    rw [hst] at hsound
    by_contra hstale
    exact h.not_sound_of_stale hstale clear (fun k hk ↦ List.mem_append_right _ hk) hsound

/-! ## Runs -/

/-- A call that the world admits, with what it means for the ownerships. -/
def Call (clear : DataT → DataT) (s : World DataT × Ownerships) (op : Op DataT)
    (out : Option Bool) (s' : World DataT × Ownerships) : Prop :=
  s.1.Admits op ∧ s.1.step clear op = .ok (out, s'.1) ∧ s'.2 = s.2.step op

/-- In every run whose calls neither overwrite an owner that has a storage nor take a storage from
its owner without giving it back, and in which no generation comes around to that of a weak pointer,
every storage is owned once or free once, a weak pointer is alive as long as its ownership, and the
check of `~ObjectPool` passes when nothing is owned.  Any other call ends this. -/
theorem runs_sound {trace : List (Op DataT × Option Bool)}
    (hruns : Runs (Call clear) ({}, {}) trace (w, o)) :
    Sound w o ∧ (∀ op, w.Valid op → ∃ out w', w.step clear op = .ok (out, w')) ∧
      ∀ op out w', w.step clear op = .ok (out, w') → (Sound w' (o.step op) ↔ w.Admits op) := by
  have hinv : ∃ own free, Inv (w, o).1 (w, o).2 own free := by
    refine hruns.invariant (P := fun s ↦ ∃ own free, Inv s.1 s.2 own free) ?_ ⟨id, [], .empty⟩
    rintro s op out s' ⟨own, free, h⟩ ⟨hadmits, hstep, heq⟩
    rw [heq]
    exact h.step_spec hadmits hstep
  obtain ⟨own, free, h⟩ := hinv
  refine ⟨h.sound, fun op hvalid ↦ h.step_ok hvalid, fun op out w' hstep ↦ ⟨?_, ?_⟩⟩
  · exact h.admits_of_sound hstep
  · intro hadmits
    obtain ⟨own', free', h'⟩ := h.step_spec hadmits hstep
    exact h'.sound

/-- A storage is created and given back, and its weak pointer is dead. -/
theorem runs_sound_three :
    Sound ({ pool := { storages := [{ data := 5, generation := 2 }]
                       head := some 0
                       storageCount := 1 }
             owners := [none]
             weaks := [{ generation := 1, storage := some 0 }] } : World ℕ)
      { started := 1, ended := [0], owners := [none], weaks := [0] } := by
  have hcreate : Call id (({} : World ℕ), {}) (.create 5) none
      ({ pool := { storages := [{ data := 5 }], storageCount := 1 }
         owners := [some { storage := some 0, hasParent := true }] },
        { started := 1, owners := [some (some 0)] }) := ⟨trivial, rfl, rfl⟩
  have hweak : Call id
      (({ pool := { storages := [{ data := 5 }], storageCount := 1 }
          owners := [some { storage := some 0, hasParent := true }] } : World ℕ),
        { started := 1, owners := [some (some 0)] }) (.getWeak 0) none
      ({ pool := { storages := [{ data := 5 }], storageCount := 1 }
         owners := [some { storage := some 0, hasParent := true }]
         weaks := [{ generation := 1, storage := some 0 }] },
        { started := 1, owners := [some (some 0)], weaks := [0] }) := ⟨trivial, rfl, rfl⟩
  have hdestroy : Call id
      (({ pool := { storages := [{ data := 5 }], storageCount := 1 }
          owners := [some { storage := some 0, hasParent := true }]
          weaks := [{ generation := 1, storage := some 0 }] } : World ℕ),
        { started := 1, owners := [some (some 0)], weaks := [0] }) (.destroy 0) none
      ({ pool := { storages := [{ data := 5, generation := 2 }], head := some 0, storageCount := 1 }
         owners := [none]
         weaks := [{ generation := 1, storage := some 0 }] },
        { started := 1, ended := [0], owners := [none], weaks := [0] }) := by
    refine ⟨fun st hst weak hmem _ generation hgeneration ↦ ?_, rfl, rfl⟩
    obtain rfl : 0 = st := Option.some.inj hst
    obtain rfl : 1 = generation := Option.some.inj hgeneration
    obtain rfl := List.mem_singleton.1 hmem
    decide
  exact (runs_sound (.cons hcreate (.cons hweak (.cons hdestroy (.nil _))))).1

/-- An owner is overwritten by another one, and both are destroyed: the storage of the first is
lost. -/
theorem moveAssign_leaks :
    let ops : List (Op ℕ) := [.create 5, .create 7, .moveAssign 0 1, .destroy 0, .destroy 1]
    ∃ outs w, runProgram (World.step id) ops {} = .ok (outs, w) ∧ w.owners = [none, none] ∧
      w.pool.destroy = .error "LOG_CHECK(storage_count_.load() == 0)" ∧
      ∀ o, ¬Sound w o := by
  refine ⟨List.replicate 5 none,
    { pool := { storages := [{ data := 5 }, { data := 7, generation := 2 }]
                head := some 1
                storageCount := 2 }
      owners := [none, none] }, rfl, rfl, rfl, fun o hsound ↦ ?_⟩
  obtain ⟨free, hlinked, hcount⟩ := hsound.placed
  obtain rfl : [1] = free := Linked.unique (.cons .nil) hlinked
  exact absurd (hcount 0 (by decide)) (by decide)

end Calls

end PxcCore.ObjectPool
