import PxcCore.Utils.FlatHashTable.Size
import PxcCore.Utils.WaitFreeHashMap.Refine

/-!
# Runs on a `WaitFreeHashMap` or a `WaitFreeHashSet`

The operations that go through all nested maps see the entries of all tables, which make up the map
that the whole stands for.  A run of operations returns what it returns on a finite map.
-/

namespace PxcCore.WaitFreeHashMap

open Lib KeyEq FlatHashTable

variable {K V : Type} {T : Traits K}

namespace Map

variable {s : Map K V} {m : K → Option V} {f : Fields K V}

/-! ## `erase` -/

theorem Refines.erase (h : Refines T s m) (key : K) :
    Ends Stops (fun n s ↦ n = (if (m key).isSome then 1 else 0) ∧ Refines T s (T.erase m key))
      (s.erase T key) := by
  apply h.descend
  intro f m' hf hkey
  rw [← hkey]
  obtain he | ⟨t, he, ht⟩ := hf.1.erase key
  · exact .error (by rw [he]; rfl) (Or.inl rfl)
  · refine Or.inr ⟨_, .flat { f with defaultMap := t }, by rw [he]; rfl, rfl, ht, ?_⟩
    have hle := hf.1.represents.ncard_live_erase_le key
    rw [← ht.size, ← hf.1.size] at hle
    exact hle.trans_lt hf.2

/-! ## All elements -/

/-- `foreach` visits the nodes of all tables. -/
theorem Refines.foreach (h : Refines T s m) (random : Random) :
    ∃ nodes, s.foreach random = .ok nodes ∧ (nodes : Multiset (K × V)) = s.entries := by
  induction s generalizing m random with
  | flat f =>
    obtain ⟨nodes, he, hnodes⟩ := h.1.elements (random [])
    exact ⟨nodes, by rw [Map.foreach, he]; rfl, hnodes⟩
  | split f maps ih =>
    have hfold (l : List (Fin maxStorageCount)) : ∀ before : List (K × V), ∃ nodes,
        l.foldlM (fun nodes i ↦ do
          let nested ← (maps i).foreach fun path ↦ random (i :: path)
          return nodes ++ nested) before = (.ok nodes : Except Fault (List (K × V))) ∧
        (nodes : Multiset (K × V)) = before + (l : Multiset (Fin maxStorageCount)).bind
          fun i ↦ (maps i).entries := by
      induction l with
      | nil =>
        intro before
        exact ⟨before, rfl, (add_zero _).symm⟩
      | cons i l ihl =>
        intro before
        obtain ⟨nested, he, hnested⟩ := ih i (h.2 i) fun path ↦ random (i :: path)
        obtain ⟨nodes, hl, hnodes⟩ := ihl (before ++ nested)
        refine ⟨nodes, ?_, ?_⟩
        · rw [List.foldlM_cons, he, ok_bind]
          exact hl
        · rw [hnodes, ← Multiset.coe_add, hnested, ← Multiset.cons_coe, Multiset.cons_bind,
            add_assoc]
    obtain ⟨nodes, he, hnodes⟩ := hfold (List.finRange maxStorageCount) []
    exact ⟨nodes, he, hnodes.trans (zero_add _)⟩

/-- `calc_size` counts them. -/
theorem Refines.calcSize (h : Refines T s m) : s.calcSize = s.entries.card := by
  induction s generalizing m with
  | flat f => exact h.1.card_entries.symm
  | split f maps ih =>
    have hfold (l : List (Fin maxStorageCount)) : ∀ before : ℕ,
        l.foldl (fun result i ↦ result + (maps i).calcSize) before = before +
          ((l : Multiset (Fin maxStorageCount)).bind fun i ↦ (maps i).entries).card := by
      induction l with
      | nil =>
        intro before
        rfl
      | cons i l ihl =>
        intro before
        rw [List.foldl_cons, ihl, ih i (h.2 i), ← Multiset.cons_coe, Multiset.cons_bind,
          Multiset.card_add, add_assoc]
    exact (hfold _ 0).trans (zero_add _)

/-- `empty` is true of a map without nodes. -/
theorem Refines.empty (h : Refines T s m) : s.empty = true ↔ s.entries = 0 := by
  induction s generalizing m with
  | flat f => rw [Map.empty, beq_iff_eq, ← h.1.card_entries, Multiset.card_eq_zero, entries]
  | split f maps ih =>
    rw [Map.empty, List.all_eq_true, entries, Multiset.eq_zero_iff_forall_notMem]
    constructor
    · intro hall x hx
      obtain ⟨i, -, hi⟩ := Multiset.mem_bind.1 hx
      rw [(ih i (h.2 i)).1 (hall i (List.mem_finRange i))] at hi
      exact Multiset.notMem_zero x hi
    · intro hnone i _
      rw [ih i (h.2 i), Multiset.eq_zero_iff_forall_notMem]
      intro x hx
      exact hnone x (Multiset.mem_bind.2 ⟨i, Finset.mem_univ_val i, hx⟩)

/-- What `get_random` returns: a key of the map, or the empty key if there is none. -/
def Member (T : Traits K) (m : K → Option V) (key : K) : Prop :=
  (m key).isSome ∨ (∀ k, m k = none) ∧ key = T.emptyKey

theorem getRandomFlat_spec (h : Table.Models T f.defaultMap m) (random : UInt32) :
    ∃ key, getRandomFlat T random f = .ok key ∧ Member T m key := by
  rw [getRandomFlat]
  by_cases h0 : f.defaultMap.size = 0
  · refine ⟨T.emptyKey, if_pos h0, Or.inr ⟨fun k ↦ ?_, rfl⟩⟩
    rw [h.represents.eq_none_iff]
    rw [← h.card_entries, Multiset.card_eq_zero] at h0
    intro x hx
    rw [h0] at hx
    exact absurd hx (Multiset.notMem_zero x)
  · obtain ⟨b, t, hbegin, ht, hsome, hnode⟩ := h.beginImpl random
    rw [if_neg h0, hbegin, mapError_ok, ok_bind]
    cases b with
    | none =>
      have hused : f.defaultMap.usedNodeCount ≠ 0 := h0
      simp [hused] at hsome
    | some d =>
      obtain ⟨bucket, rfl⟩ := Table.beginImpl_eq hbegin
      obtain ⟨hlt, hd⟩ := hnode d rfl
      obtain ⟨x, hx⟩ := Option.isSome_iff_exists.1 hd
      refine ⟨x.1, by simp [hx], Or.inl ?_⟩
      rw [h.represents.of_mem (Buckets.mem_contents.2 ⟨d, hlt, hx⟩) (T.refl x.1)]
      rfl

theorem Refines.getRandom (h : Refines T s m) (random : UInt32) :
    ∃ key, s.getRandom T random = .ok key ∧ Member T m key := by
  induction s generalizing m with
  | flat f => exact getRandomFlat_spec h.1 random
  | split f maps ih =>
    rw [Map.getRandom]
    cases hfind : (List.finRange maxStorageCount).find? fun i ↦ !(maps i).empty with
    | none =>
      have hnone : ∀ k, m k = none := by
        intro k
        have hk := List.find?_eq_none.1 hfind (getWaitFreeIndex T f.hashMult k)
          (List.mem_finRange _)
        rw [Bool.not_eq_true, Bool.not_eq_false', (h.2 _).empty] at hk
        have hpart := (h.2 (getWaitFreeIndex T f.hashMult k)).represents
        rw [hk] at hpart
        have := (hpart.eq_none_iff k).2 fun x hx ↦ absurd hx (Multiset.notMem_zero x)
        rwa [part_self] at this
      have hempty : Table.Models T f.defaultMap (fun _ ↦ none : K → Option V) := by
        rw [h.1]
        exact .init
      have hm : m = fun _ ↦ none := funext hnone
      rw [hm]
      exact getRandomFlat_spec hempty random
    | some i =>
      obtain ⟨key, he, hkey⟩ := ih i (h.2 i)
      refine ⟨key, he, Or.inl ?_⟩
      obtain hsome | ⟨hnone, -⟩ := hkey
      · rw [part] at hsome
        split_ifs at hsome
        · exact hsome
        · cases hsome
      · have hi := List.find?_some hfind
        rw [Bool.not_eq_true', ← Bool.not_eq_true, (h.2 i).empty] at hi
        refine absurd ?_ hi
        rw [Multiset.eq_zero_iff_forall_notMem]
        intro x hx
        have := (h.2 i).represents.of_mem hx (T.refl x.1)
        rw [hnone] at this
        cases this

end Map

/-! ## Histories -/

/-- An operation on a map; `insert` and `getRandom` are those of a set. -/
inductive Op (T : Traits K) (V : Type) where
  | set (key : T.Key) (value : V) (random : Random)
  | insert (key : T.Key) (value : V) (random : Random)
  | subscript (key : T.Key) (f : V → V) (random : Random)
  | erase (key : K)
  | get (key : K)
  | count (key : K)
  | foreach (random : Random)
  | calcSize
  | empty
  | getRandom (random : UInt32)

/-- What an operation returns. -/
inductive Result (K V : Type) where
  | done
  | inserted (new : Bool)
  | value (value : V)
  | number (n : ℕ)
  | elements (nodes : List (K × V))
  | isEmpty (empty : Bool)
  | key (key : K)

section

variable [Inhabited V]

/-- One operation, with at most `depth` splits nested in one another. -/
def step (T : Traits K) (depth : ℕ) (s : Map K V) :
    Op T V → Except Fault (Result K V × Map K V)
  | .set key value random => do
    let (_, s) ← s.set T depth random key.1 value
    return (.done, s)
  | .insert key value random => do
    let (new, s) ← s.set T depth random key.1 value
    return (.inserted new, s)
  | .subscript key f random => do
    let (value, s) ← s.subscript T depth random key.1 f
    return (.value value, s)
  | .erase key => do
    let (n, s) ← s.erase T key
    return (.number n, s)
  | .get key => do
    let value ← s.get T key
    return (.value value, s)
  | .count key => do
    let n ← s.count T key
    return (.number n, s)
  | .foreach random => do
    let nodes ← s.foreach random
    return (.elements nodes, s)
  | .calcSize => return (.number s.calcSize, s)
  | .empty => return (.isEmpty s.empty, s)
  | .getRandom random => do
    let key ← s.getRandom T random
    return (.key key, s)

/-- A sequence of operations, with what each returns. -/
def run (T : Traits K) (depth : ℕ) :
    List (Op T V) → Map K V → Except Fault (List (Result K V) × Map K V)
  | [], s => .ok ([], s)
  | op :: ops, s => do
    let (r, s) ← step T depth s op
    let (rs, s) ← run T depth ops s
    return (r :: rs, s)

/-- The map after an operation. -/
def Op.apply (m : K → Option V) : Op T V → K → Option V
  | .set key value _ => T.insert m key.1 value
  | .insert key value _ => T.insert m key.1 value
  | .subscript key f _ => T.insert m key.1 (f ((m key.1).getD default))
  | .erase key => T.erase m key
  | _ => m

/-- What an operation has to return on the map `m`. -/
def Op.Returns (m : K → Option V) : Op T V → Result K V → Prop
  | .set _ _ _, r => r = .done
  | .insert key _ _, r => r = .inserted (m key.1).isNone
  | .subscript key _ _, r => r = .value ((m key.1).getD default)
  | .erase key, r => r = .number (if (m key).isSome then 1 else 0)
  | .get key, r => r = .value ((m key).getD default)
  | .count key, r => r = .number (if (m key).isSome then 1 else 0)
  | .foreach _, r => ∃ nodes, r = .elements nodes ∧ T.Represents (nodes : Multiset (K × V)) m
  | .calcSize, r => r = .number (T.live m).ncard
  | .empty, r => r = .isEmpty (decide ((T.live m).ncard = 0))
  | .getRandom _, r => ∃ key, r = .key key ∧ Map.Member T m key

/-- Every operation of a history returned what it has to. -/
def Returned : List (Op T V) → List (Result K V) → (K → Option V) → Prop
  | op :: ops, r :: rs, m => op.Returns m r ∧ Returned ops rs (op.apply m)
  | [], [], _ => True
  | _, _, _ => False

/-- The map after a history. -/
def history (ops : List (Op T V)) : K → Option V := ops.foldl Op.apply fun _ ↦ none

open Map in
theorem step_spec {s : Map K V} {m : K → Option V} (h : Refines T s m) (depth : ℕ) (op : Op T V) :
    Ends Stops (fun r s' ↦ op.Returns m r ∧ Refines T s' (op.apply m)) (step T depth s op) := by
  cases op with
  | set key value random =>
    refine (h.set key.2 depth random value).bind ?_
    rintro new s' ⟨-, hs'⟩
    exact .ok rfl ⟨rfl, hs'⟩
  | insert key value random =>
    refine (h.set key.2 depth random value).bind ?_
    rintro new s' ⟨rfl, hs'⟩
    exact .ok rfl ⟨rfl, hs'⟩
  | subscript key f random =>
    refine (h.subscript key.2 depth random f).bind ?_
    rintro value s' ⟨rfl, hs'⟩
    exact .ok rfl ⟨rfl, hs'⟩
  | erase key =>
    refine (h.erase key).bind ?_
    rintro n s' ⟨rfl, hs'⟩
    exact .ok rfl ⟨rfl, hs'⟩
  | get key => exact .ok (by rw [step, h.get]; rfl) ⟨rfl, h⟩
  | count key => exact .ok (by rw [step, h.count]; rfl) ⟨rfl, h⟩
  | foreach random =>
    obtain ⟨nodes, he, hnodes⟩ := h.foreach random
    exact .ok (by rw [step, he]; rfl) ⟨⟨nodes, rfl, hnodes ▸ h.represents⟩, h⟩
  | calcSize =>
    refine .ok rfl ⟨?_, h⟩
    rw [Op.Returns, h.calcSize, h.represents.ncard_live]
  | empty =>
    refine .ok rfl ⟨?_, h⟩
    rw [Op.Returns, h.represents.ncard_live, Result.isEmpty.injEq, Bool.eq_iff_iff,
      decide_eq_true_iff, Multiset.card_eq_zero]
    exact h.empty
  | getRandom random =>
    obtain ⟨key, he, hkey⟩ := h.getRandom random
    exact .ok (by rw [step, he]; rfl) ⟨⟨key, rfl, hkey⟩, h⟩

open Map in
theorem run_spec {s : Map K V} {m : K → Option V} (h : Refines T s m) (depth : ℕ)
    (ops : List (Op T V)) :
    Ends Stops (fun rs s' ↦ Returned ops rs m ∧ Refines T s' (ops.foldl Op.apply m))
      (run T depth ops s) := by
  induction ops generalizing s m with
  | nil => exact .ok rfl ⟨trivial, h⟩
  | cons op ops ih =>
    refine (step_spec h depth op).bind ?_
    rintro r s' ⟨hr, hs'⟩
    refine (ih hs').bind ?_
    rintro rs s'' ⟨hrs, hs''⟩
    exact .ok rfl ⟨⟨hr, hrs⟩, hs''⟩

/-- A `WaitFreeHashMap` behaves as a finite map and a `WaitFreeHashSet` as a finite set, however
often it is split.  Whatever is run on one that starts out empty, unless the `CHECK` on the size of
a table stops it or `split_storage` goes deeper than `depth`: every operation returns what it
returns on the map that the history leaves, and `get`, `calc_size` and `empty` agree with that
map afterwards. -/
theorem runs_as_map (depth : ℕ) (ops : List (Op T V)) :
    Map.Ends Map.Stops (fun rs s ↦ Returned ops rs (fun _ ↦ none) ∧
        (∀ key, s.get T key = .ok ((history ops key).getD default)) ∧
        s.calcSize = (T.live (history ops)).ncard ∧
        (s.empty = true ↔ ∀ key, history ops key = none) ∧
        ∀ random, ∃ nodes, s.foreach random = .ok nodes ∧
          T.Represents (nodes : Multiset (K × V)) (history ops))
      (run T depth ops (.flat {})) := by
  have hsize : 0 < defaultStorageSize.toNat := by decide
  have hinit : Map.Refines T (.flat {} : Map K V) (fun _ ↦ none) := .init hsize rfl
  refine (run_spec hinit depth ops).imp ?_
  rintro rs s ⟨hrs, hs⟩
  refine ⟨hrs, hs.get, ?_, ?_, fun random ↦ ?_⟩
  · rw [hs.calcSize, history, hs.represents.ncard_live]
  · rw [hs.empty]
    constructor
    · intro h0 key
      refine (hs.represents.eq_none_iff key).2 fun x hx ↦ ?_
      rw [h0] at hx
      exact absurd hx (Multiset.notMem_zero x)
    · intro hnone
      rw [Multiset.eq_zero_iff_forall_notMem]
      intro x hx
      have := hs.represents.of_mem hx (T.refl x.1)
      rw [← history, hnone] at this
      cases this
  · obtain ⟨nodes, he, hnodes⟩ := hs.foreach random
    exact ⟨nodes, he, hnodes ▸ hs.represents⟩

end

end PxcCore.WaitFreeHashMap
