import PxcCore.Utils.FlatHashTable.Construct
import PxcCore.Utils.FlatHashTable.Iterate
import PxcCore.Utils.FlatHashTable.RemoveIf

/-!
# The load of the array

Runs of all operations, with `remove_if` and the constructor from an initializer list.  In every
table that they make the load is below three fifths, so that some bucket is empty and every loop
that looks for one ends.
-/

namespace PxcCore.FlatHashTable

open Lib LinearProbing Buckets

/-! ## All operations -/

/-- An operation on the tables `ι`; the constructor makes a new table in the place of an old one. -/
inductive AnyOp {K : Type} (T : Traits K) (V ι : Type) where
  | op (op : Op T V ι)
  | construct (i : ι) (nodes : List (K × V))
  | removeIf (i : ι) (f : Calls K V → K × V → Bool) (random : UInt32)

section

variable {K V ι : Type} (T : Traits K) [DecidableEq ι] [Inhabited V]

/-- One operation. -/
def stepAny (tables : ι → Table K V) : AnyOp T V ι → Except Fault (ι → Table K V)
  | .op op => do
    let (_, tables) ← step T tables op
    return tables
  | .construct i nodes => do
    let t ← Table.construct T nodes
    return Function.update tables i t
  | .removeIf i f random => do
    let (_, t) ← (tables i).removeIf T f random
    return Function.update tables i t

/-- A sequence of operations on tables that start out empty. -/
def runAny (ops : List (AnyOp T V ι)) : Except Fault (ι → Table K V) :=
  ops.foldlM (stepAny T) fun _ ↦ {}

end

variable {K V ι : Type} {T : Traits K}

/-- A table that the operations can make: it stands for a map, and its array passed the `CHECK`. -/
structure Table.Sound (T : Traits K) (t : Table K V) : Prop where
  models : ∃ m, Table.Models T t m
  le_max : t.bucketCount ≤ maxBucketCount T

/-- A program stops for what it was asked to do, not for want of steps or of room in an array, or
what it returns is sound. -/
def Returns {α : Type} (sound : α → Prop) (r : Except Fault α) : Prop :=
  (∃ fault, r = .error fault ∧ fault ≠ .fuel ∧ fault ≠ .check) ∨ ∃ a, r = .ok a ∧ sound a

theorem Returns.error {α : Type} {sound : α → Prop} {r : Except Fault α} {fault : Fault}
    (h : r = .error fault) (hfuel : fault ≠ .fuel) (hcheck : fault ≠ .check) : Returns sound r :=
  Or.inl ⟨fault, h, hfuel, hcheck⟩

theorem Returns.ok {α : Type} {sound : α → Prop} {r : Except Fault α} {a : α}
    (h : r = .ok a) (ha : sound a) : Returns sound r := Or.inr ⟨a, h, ha⟩

section

variable [DecidableEq ι] [Inhabited V]

/-- Every operation keeps all tables sound. -/
theorem stepAny_spec {tables : ι → Table K V} (h : ∀ i, Table.Sound T (tables i))
    (op : AnyOp T V ι) : Returns (fun tables ↦ ∀ i, Table.Sound T (tables i))
      (stepAny T tables op) := by
  have hup (i : ι) {t : Table K V} (ht : Table.Sound T t) (j : ι) :
      Table.Sound T (Function.update tables i t j) := by
    rw [Function.update_apply]
    split_ifs
    · exact ht
    · exact h j
  cases op with
  | op op =>
    have hmodels (i : ι) := (h i).models
    choose m hm using hmodels
    obtain he | he | ⟨r, tables', he, -, hm'⟩ := step_spec hm op
    · exact .error (by rw [stepAny, he]; rfl) (by decide) (by decide)
    · exact .error (by rw [stepAny, he]; rfl) (by decide) (by decide)
    · refine .ok (by rw [stepAny, he]; rfl) fun i ↦ ⟨⟨_, hm' i⟩, ?_⟩
      exact step_le_max hm (fun i ↦ (h i).le_max) he i
  | construct i nodes =>
    obtain he | he | ⟨t, he, hm, hmax⟩ := Table.construct_spec (T := T) nodes
    · exact .error (by rw [stepAny, he]; rfl) (by decide) (by decide)
    · exact .error (by rw [stepAny, he]; rfl) (by decide) (by decide)
    · exact .ok (by rw [stepAny, he]; rfl) (hup i ⟨⟨_, hm⟩, hmax⟩)
  | removeIf i f random =>
    obtain ⟨m, hm⟩ := (h i).models
    obtain ⟨calls, t, he, -, -, -, hm', hmax⟩ := hm.removeIf (h i).le_max f random
    exact .ok (by rw [stepAny, he]; rfl) (hup i ⟨hm', hmax⟩)

/-- Every run leaves all tables sound. -/
theorem runAny_spec (ops : List (AnyOp T V ι)) :
    Returns (fun tables ↦ ∀ i, Table.Sound T (tables i)) (runAny T ops) := by
  have hrun (ops : List (AnyOp T V ι)) : ∀ tables : ι → Table K V,
      (∀ i, Table.Sound T (tables i)) →
      Returns (fun tables ↦ ∀ i, Table.Sound T (tables i)) (ops.foldlM (stepAny T) tables) := by
    induction ops with
    | nil =>
      intro tables h
      exact .ok rfl h
    | cons op ops ih =>
      intro tables h
      rw [List.foldlM_cons]
      obtain ⟨fault, he, hfuel, hcheck⟩ | ⟨tables', he, h'⟩ := stepAny_spec h op
      · exact .error (by rw [he]; rfl) hfuel hcheck
      · rw [he]
        exact ih tables' h'
  exact hrun ops _ fun _ ↦ ⟨⟨_, .init⟩, Nat.zero_le _⟩

end

/-! ## `remove_if` -/

/-- `remove_if`, in every state that operations can bring tables to, whatever bucket the iteration
begins from: it returns, its predicate was called once on each node that was there, the nodes left
are those for which it was false, and each of them is reached from its own bucket.  When the
predicate looks at its argument only, these are the nodes of which it is false. -/
theorem removeIf_exact [DecidableEq ι] [Inhabited V] (ops : List (AnyOp T V ι))
    (f : Calls K V → K × V → Bool) (random : UInt32) :
    (∃ fault, runAny T ops = .error fault) ∨ ∃ tables, runAny T ops = .ok tables ∧
      ∀ i, ∃ calls t, (tables i).removeIf T f random = .ok (calls, t) ∧ Answers f calls ∧
        called calls = (tables i).entries ∧ t.entries = spared calls ∧
        Probing t.bucketCount (home T t.bucketCountMask) t.nodes ∧
        ∀ p, (f = fun _ ↦ p) → t.entries = (tables i).entries.filter fun x ↦ p x = false := by
  obtain ⟨fault, he, -⟩ | ⟨tables, he, h⟩ := runAny_spec ops
  · exact Or.inl ⟨fault, he⟩
  · refine Or.inr ⟨tables, he, fun i ↦ ?_⟩
    obtain ⟨m, hm⟩ := (h i).models
    obtain ⟨calls, t, hr, hf, hcalled, hspared, ⟨m', hm'⟩, -⟩ := hm.removeIf (h i).le_max f random
    refine ⟨calls, t, hr, hf, hcalled, hspared, hm'.probing, ?_⟩
    rintro p rfl
    rw [hspared, spared_of_pure hf, hcalled]

/-! ## Iterating -/

/-- Iterating, in every state that operations can bring tables to, wherever it begins: `operator++`
comes to every node once before it comes to the end, and iterating again goes through the nodes in
the same order, whatever bucket `begin` would have drawn. -/
theorem iterate_exact [DecidableEq ι] [Inhabited V] (ops : List (AnyOp T V ι)) :
    (∃ fault, runAny T ops = .error fault) ∨ ∃ tables, runAny T ops = .ok tables ∧
      ∀ i random, ∃ nodes t, (tables i).iterate random = .ok (nodes, t) ∧
        (nodes : Multiset (K × V)) = (tables i).entries ∧
        ∀ again, t.iterate again = .ok (nodes, t) := by
  obtain ⟨fault, he, -⟩ | ⟨tables, he, h⟩ := runAny_spec ops
  · exact Or.inl ⟨fault, he⟩
  · refine Or.inr ⟨tables, he, fun i random ↦ ?_⟩
    obtain ⟨m, hm⟩ := (h i).models
    exact hm.iterate random

/-! ## The load -/

/-- What the load of a table has to be for its loops to end, and that no product or sum that is
computed from its counters needs more than 32 bits. -/
structure Table.Loaded (t : Table K V) : Prop where
  load : t.usedNodeCount * 5 < t.bucketCountMask * 3 + 5
  exists_empty : t.allocated = true → ∃ b < t.bucketCount, t.nodes b = none
  growing : t.bucketCountMask * 3 + 5 < 2 ^ 32 ∧ 2 * t.bucketCount < 2 ^ 32
  shrinking : t.usedNodeCount * 10 < 2 ^ 32 ∧ (t.usedNodeCount + 1) * 5 < 2 ^ 32 ∧
    normalizeFlatHashTableSize ((t.usedNodeCount + 1) * 5 / 3 + 1) < 2 ^ 32
  reserving : ∀ size ≤ 1 <<< 29, size * 5 < 2 ^ 32 ∧
    normalizeFlatHashTableSize (size * 5 / 3 + 1) < 2 ^ 32

/-- The size that `normalize_flat_hash_table_size` makes of a load has 32 bits. -/
theorem normalize_lt {size : ℕ} (h : size * 5 < 2 ^ 32) :
    normalizeFlatHashTableSize (size * 5 / 3 + 1) < 2 ^ 32 := by
  have := @Table.normalize_le (size * 5 / 3 + 1) (Nat.succ_ne_zero _)
  omega

theorem Table.Models.loaded {t : Table K V} {m : K → Option V} (h : Table.Models T t m) :
    t.Loaded := by
  have hreserving : ∀ size ≤ 1 <<< 29, size * 5 < 2 ^ 32 ∧
      normalizeFlatHashTableSize (size * 5 / 3 + 1) < 2 ^ 32 := by
    intro size hsize
    have hlt : size * 5 < 2 ^ 32 := by
      rw [Nat.one_shiftLeft] at hsize
      omega
    exact ⟨hlt, normalize_lt hlt⟩
  rcases h.shape with rfl | ha
  · have hzero : (0 + 1) * 5 < 2 ^ 32 := by decide
    exact ⟨Nat.succ_pos 4, by simp, by simp, ⟨by simp, hzero, normalize_lt hzero⟩, hreserving⟩
  · obtain ⟨hused, hmask, hcount⟩ := ha.products_lt
    have hload := ha.load
    have hlt := ha.used_lt
    have h8 := ha.eight_le
    have hm := ha.mask
    obtain ⟨k, -, hk, hpow⟩ := ha.count
    have hpow' : 2 ^ k ≤ 2 ^ 29 := Nat.pow_le_pow_right (by omega) hk
    have hsucc : (t.usedNodeCount + 1) * 5 < 2 ^ 32 := by omega
    exact ⟨hload, fun _ ↦ ha.exists_empty, ⟨by omega, hcount⟩, ⟨hused, hsucc, normalize_lt hsucc⟩,
      hreserving⟩

/-- The load of flat hash tables.  A run on tables that start out empty stops, if at all, at a
`CHECK` on what it was asked to do: no loop is out of steps and the `CHECK` after growing does not
fail.  In the tables of a run that goes through the load is below three fifths, there is an empty
bucket in every array, and 32 bits are enough; and after `reserve(size)` on a table without nodes,
`emplace` of up to `size` nodes keeps the array. -/
theorem runAny_load [DecidableEq ι] [Inhabited V] (ops : List (AnyOp T V ι)) :
    Returns (fun tables : ι → Table K V ↦ ∀ i, (tables i).Loaded ∧
      ∀ size t, (tables i).size = 0 → (tables i).reserve T size = .ok t →
        ∀ nodes : List (T.Key × V), nodes.length ≤ size →
          ∃ t', Table.emplaceAll T nodes t = .ok t' ∧ t'.bucketCount = t.bucketCount)
      (runAny T ops) := by
  obtain ⟨fault, he, hfuel, hcheck⟩ | ⟨tables, he, h⟩ := runAny_spec ops
  · exact .error he hfuel hcheck
  refine .ok he fun i ↦ ?_
  obtain ⟨m, hm⟩ := (h i).models
  refine ⟨hm.loaded, fun size t h0 hr nodes hlen ↦ ?_⟩
  by_cases hs : size = 0
  · rw [hs, Nat.le_zero, List.length_eq_zero_iff] at hlen
    rw [hlen]
    exact ⟨t, rfl, rfl⟩
  · obtain ⟨ha, -, hused, hroom⟩ := hm.reserve_room hs hr
    apply ha.emplaceAll
    rw [hused, show (tables i).usedNodeCount = 0 from h0]
    omega

end PxcCore.FlatHashTable
