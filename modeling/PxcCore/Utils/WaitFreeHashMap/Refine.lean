import PxcCore.Utils.WaitFreeHashMap.Map

/-!
# `WaitFreeHashMap` stands for a finite map

A map that is split stands for the map of which each nested map has the part that the hash of a key
leads to.  One lemma for each operation: it keeps the correspondence, when the table of no map hits
the `CHECK` on its size and no split is nested too deep.
-/

namespace PxcCore.WaitFreeHashMap

open Lib KeyEq FlatHashTable

variable {K V : Type} {T : Traits K}

/-- Equal keys go the same way. -/
theorem getWaitFreeIndex_congr (hashMult : UInt32) {a b : K} (h : T.eq a b = true) :
    getWaitFreeIndex T hashMult a = getWaitFreeIndex T hashMult b := by
  rw [getWaitFreeIndex, getWaitFreeIndex, T.hash_eq h]

namespace Map

/-- The map that a `WaitFreeHashMap` stands for.  One that is not split is below its threshold, and
the table of one that is split has been cleared. -/
def Refines (T : Traits K) : Map K V → (K → Option V) → Prop
  | .flat f, m => Table.Models T f.defaultMap m ∧ f.defaultMap.size < f.maxStorageSize.toNat
  | .split f maps, m =>
    f.defaultMap = {} ∧ ∀ i, Refines T (maps i) (part (getWaitFreeIndex T f.hashMult) m i)

/-- The nodes of all tables. -/
def entries : Map K V → Multiset (K × V)
  | .flat f => f.defaultMap.entries
  | .split _ maps => Finset.univ.val.bind fun i ↦ (maps i).entries

variable {s : Map K V} {m : K → Option V} {f : Fields K V}

theorem Refines.represents (h : Refines T s m) : T.Represents s.entries m := by
  induction s generalizing m with
  | flat f => exact h.1.represents
  | split f maps ih => exact .of_parts (getWaitFreeIndex_congr f.hashMult) fun i ↦ ih i (h.2 i)

/-- A new map. -/
theorem Refines.init (h : 0 < f.maxStorageSize.toNat) (ht : f.defaultMap = {}) :
    Refines T (.flat f) (fun _ ↦ none) := by
  refine ⟨?_, ?_⟩
  · rw [ht]
    exact .init
  · rw [ht]
    exact h

/-! ## Looking up a key -/

/-- The table at the end of the way of a key has what the whole map has for the key. -/
theorem Refines.leaf (h : Refines T s m) (key : K) :
    ∃ m', Table.Models T (s.leaf T key).defaultMap m' ∧ m' key = m key := by
  induction s generalizing m with
  | flat f => exact ⟨m, h.1, rfl⟩
  | split f maps ih =>
    obtain ⟨m', hm', hkey⟩ := ih _ (h.2 (getWaitFreeIndex T f.hashMult key))
    rw [part_self] at hkey
    exact ⟨m', hm', hkey⟩

theorem Refines.get [Inhabited V] (h : Refines T s m) (key : K) :
    s.get T key = .ok ((m key).getD default) := by
  obtain ⟨m', hm', hkey⟩ := h.leaf key
  rw [Map.get, hm'.find, hkey]
  rfl

theorem Refines.count (h : Refines T s m) (key : K) :
    s.count T key = .ok (if (m key).isSome then 1 else 0) := by
  obtain ⟨m', hm', hkey⟩ := h.leaf key
  rw [Map.count, hm'.count, hkey]
  rfl

/-! ## Changing a key -/

/-- How a call ends: it stops with one of the faults, or it returns an answer and a map. -/
def Ends {α : Type} (faults : Fault → Prop) (P : α → Map K V → Prop)
    (r : Except Fault (α × Map K V)) : Prop :=
  (∃ fault, r = .error fault ∧ faults fault) ∨ ∃ a s, r = .ok (a, s) ∧ P a s

section

variable {α : Type} {faults : Fault → Prop} {P Q : α → Map K V → Prop}
  {r : Except Fault (α × Map K V)}

theorem Ends.error {fault : Fault} (h : r = .error fault) (hf : faults fault) : Ends faults P r :=
  Or.inl ⟨fault, h, hf⟩

theorem Ends.ok {a : α} {s : Map K V} (h : r = .ok (a, s)) (hP : P a s) : Ends faults P r :=
  Or.inr ⟨a, s, h, hP⟩

theorem Ends.imp (hPQ : ∀ a s, P a s → Q a s) (h : Ends faults P r) : Ends faults Q r := by
  obtain h | ⟨a, s, h, hP⟩ := h
  · exact Or.inl h
  · exact .ok h (hPQ a s hP)

/-- A call after a call. -/
theorem Ends.bind {β : Type} {R : β → Map K V → Prop} {k : α × Map K V → Except Fault (β × Map K V)}
    (h : Ends faults P r) (hk : ∀ a s, P a s → Ends faults R (k (a, s))) :
    Ends faults R (r >>= k) := by
  obtain ⟨fault, rfl, hf⟩ | ⟨a, s, rfl, hP⟩ := h
  · exact .error rfl hf
  · exact hk a s hP

/-- An operation at the end of the way of a key changes the key in the map, if that is what it does
to a map that is not split. -/
theorem Refines.descend (h : Refines T s m) {key : K} {v : Option V} {answer : α → Prop}
    {op : Fields K V → Except Fault (α × Map K V)}
    (hop : ∀ f m', Refines T (.flat f) m' → m' key = m key →
      Ends faults (fun a s' ↦ answer a ∧ Refines T s' (T.change m' key v)) (op f)) :
    Ends faults (fun a s' ↦ answer a ∧ Refines T s' (T.change m key v)) (s.descend T key op) := by
  induction s generalizing m with
  | flat f => exact hop f m h rfl
  | split f maps ih =>
    have hcongr {a b : K} : T.eq a b = true →
        getWaitFreeIndex T f.hashMult a = getWaitFreeIndex T f.hashMult b :=
      getWaitFreeIndex_congr f.hashMult
    refine (ih (getWaitFreeIndex T f.hashMult key) (h.2 _) ?_).bind ?_
    · rw [part_self]
      exact hop
    · rintro a s' ⟨ha, hs'⟩
      refine .ok rfl ⟨ha, h.1, fun i ↦ ?_⟩
      rw [Function.update_apply]
      split_ifs with hi
      · rw [hi, part_change hcongr]
        exact hs'
      · rw [part_change_of_ne hcongr _ _ hi]
        exact h.2 i

end

/-! ## Splitting -/

/-- The threshold of a nested map. -/
theorem maxStorageSize_nestedFields (hashMult : UInt32) (i : Fin maxStorageCount) :
    ((nestedFields hashMult i : Fields K V).maxStorageSize).toNat =
      4096 + (UInt32.ofNat i * nextHashMult hashMult).toNat % 4096 := by
  have hsize : defaultStorageSize.toNat = 4096 := rfl
  rw [nestedFields, UInt32.toNat_add, UInt32.toNat_mod, hsize]
  omega

theorem Refines.nested (hashMult : UInt32) (i : Fin maxStorageCount) :
    Refines T (.flat (nestedFields hashMult i) : Map K V) (fun _ ↦ none) := by
  refine .init ?_ rfl
  rw [maxStorageSize_nestedFields]
  exact Nat.lt_add_right _ (by decide)

theorem clear_eq {t : Table K V} (h : Table.Models T t m) : t.clear = {} := by
  rcases h.shape with rfl | ha
  · rfl
  · exact if_pos ha.allocated

/-- `split_storage` distributes the entries of the table, when the nested maps can be set.  `I` is
what else is known of the nested maps. -/
theorem splitStorage_spec {faults : Fault → Prop} (hf : Table.Models T f.defaultMap m)
    {set : Random → K → V → Map K V → Except Fault (Bool × Map K V)}
    {I : Fin maxStorageCount → Map K V → Prop}
    (hinit : ∀ i, I i (.flat (nestedFields f.hashMult i)))
    (hset : ∀ node ∈ f.defaultMap.entries, ∀ random s m',
      I (getWaitFreeIndex T f.hashMult node.1) s → Refines T s m' →
      Ends faults (fun _ s' ↦ I (getWaitFreeIndex T f.hashMult node.1) s' ∧
        Refines T s' (T.insert m' node.1 node.2)) (set random node.1 node.2 s))
    (random : Random) :
    (∃ fault, splitStorage T set random f = .error fault ∧ faults fault) ∨
      ∃ maps, splitStorage T set random f = .ok (.split { f with defaultMap := {} } maps) ∧
        ∀ i, I i (maps i) ∧ Refines T (maps i) (part (getWaitFreeIndex T f.hashMult) m i) := by
  obtain ⟨nodes, helements, hnodes⟩ := hf.elements (random [])
  have hcongr {a b : K} : T.eq a b = true →
      getWaitFreeIndex T f.hashMult a = getWaitFreeIndex T f.hashMult b :=
    getWaitFreeIndex_congr f.hashMult
  have hfold (l : List (K × V)) : ∀ (maps : Fin maxStorageCount → Map K V) (m₀ : K → Option V),
      (∀ node ∈ l, node ∈ f.defaultMap.entries) →
      (∀ i, I i (maps i) ∧ Refines T (maps i) (part (getWaitFreeIndex T f.hashMult) m₀ i)) →
      (∃ fault, l.foldlM (moveNode T set random f.hashMult) maps = .error fault ∧
        faults fault) ∨
      ∃ maps', l.foldlM (moveNode T set random f.hashMult) maps = .ok maps' ∧
        ∀ i, I i (maps' i) ∧
          Refines T (maps' i) (part (getWaitFreeIndex T f.hashMult) (T.insertList m₀ l) i) := by
    induction l with
    | nil =>
      intro maps m₀ _ hmaps
      exact Or.inr ⟨maps, rfl, hmaps⟩
    | cons node l ih =>
      intro maps m₀ hmem hmaps
      obtain ⟨hI, hR⟩ := hmaps (getWaitFreeIndex T f.hashMult node.1)
      rw [List.foldlM_cons]
      obtain ⟨fault, he, hfault⟩ | ⟨_, nested, he, hI', hR'⟩ := hset node
        (hmem node List.mem_cons_self)
        (fun path ↦ random (getWaitFreeIndex T f.hashMult node.1 :: path)) _ _ hI hR
      · refine Or.inl ⟨fault, ?_, hfault⟩
        rw [moveNode, he]
        rfl
      · rw [moveNode, he]
        refine ih _ (T.insert m₀ node.1 node.2)
          (fun x hx ↦ hmem x (List.mem_cons_of_mem _ hx)) fun i ↦ ?_
        rw [Function.update_apply]
        split_ifs with hi
        · rw [hi, ← change_some, part_change hcongr]
          exact ⟨hI', hR'⟩
        · rw [← change_some, part_change_of_ne hcongr _ _ hi]
          exact hmaps i
  have hall := hfold nodes _ (fun _ ↦ none)
    (fun node hnode ↦ hnodes ▸ Multiset.mem_coe.2 hnode) fun i ↦ ⟨hinit i, by
      rw [part_none]
      exact .nested f.hashMult i⟩
  have hmap : T.insertList (fun _ ↦ none) nodes = m :=
    Represents.insertList_eq (hnodes ▸ hf.represents)
  rw [hmap] at hall
  rw [splitStorage, helements, mapError_ok, ok_bind]
  obtain ⟨fault, he, hfault⟩ | ⟨maps, he, hmaps⟩ := hall
  · refine Or.inl ⟨fault, ?_, hfault⟩
    rw [he]
    rfl
  · refine Or.inr ⟨maps, ?_, hmaps⟩
    rw [he, ← clear_eq hf]
    rfl

/-- Below the threshold a table stays below or comes to it. -/
theorem Refines.size_lt (h : Refines T (.flat f) m) {t : Table K V} {key : K} {v : V}
    (ht : Table.Models T t (T.insert m key v)) (hne : t.size ≠ f.maxStorageSize.toNat) :
    Refines T (.flat { f with defaultMap := t }) (T.insert m key v) := by
  have hle := h.1.represents.ncard_live_insert_le key v
  rw [← ht.size, ← h.1.size] at hle
  exact ⟨ht, lt_of_le_of_ne (hle.trans h.2) hne⟩

/-! ## `set` and `operator[]` -/

variable [Inhabited V]

/-- `set` on a map that is not split: the key is set in the table, and when that has come to its
threshold it is split. -/
theorem setFlat_cases (h : Table.Models T f.defaultMap m) {key : K}
    (hk : T.isHashTableKeyEmpty key = false) (depth : ℕ) (random : Random) (value : V) :
    f.defaultMap.emplace T key default = .error .tooLarge ∧
        setFlat T depth random key value f = .error (.table .tooLarge) ∨
      ∃ t, Table.Models T t (T.insert m key value) ∧
        (t.size ≠ f.maxStorageSize.toNat ∧ setFlat T depth random key value f =
            .ok ((m key).isNone, .flat { f with defaultMap := t }) ∨
          t.size = f.maxStorageSize.toNat ∧ setFlat T depth random key value f =
            match depth with
            | 0 => .error .depth
            | depth + 1 => do
              let s ← splitStorage T (set T depth) random { f with defaultMap := t }
              return ((m key).isNone, s)) := by
  obtain he | ⟨b, t₁, t, he, -, hm, ht, -⟩ := h.emplace_modify hk default fun _ ↦ value
  · refine Or.inl ⟨he, ?_⟩
    cases depth <;> rw [setFlat, he] <;> rfl
  · refine Or.inr ⟨t, ht, ?_⟩
    by_cases hsize : t.size = f.maxStorageSize.toNat
    · refine Or.inr ⟨hsize, ?_⟩
      cases depth with
      | zero =>
        rw [setFlat, he, mapError_ok, ok_bind]
        dsimp only
        rw [hm, mapError_ok, ok_bind]
        exact if_pos hsize
      | succ depth =>
        rw [setFlat, he, mapError_ok, ok_bind]
        dsimp only
        rw [hm, mapError_ok, ok_bind]
        exact if_pos hsize
    · refine Or.inl ⟨hsize, ?_⟩
      cases depth with
      | zero =>
        rw [setFlat, he, mapError_ok, ok_bind]
        dsimp only
        rw [hm, mapError_ok, ok_bind]
        exact if_neg hsize
      | succ depth =>
        rw [setFlat, he, mapError_ok, ok_bind]
        dsimp only
        rw [hm, mapError_ok, ok_bind]
        exact if_neg hsize

/-- What may stop a call: the `CHECK` on the size of a table, or a split that is nested too deep. -/
def Stops (fault : Fault) : Prop := fault = .table .tooLarge ∨ fault = .depth

/-- `set` on every map, from `set` on maps that are not split. -/
theorem Refines.set_of_flat {key : K} {value : V} {depth : ℕ} {random : Random}
    (hflat : ∀ {f m}, Refines T (.flat f) m →
      Ends Stops (fun a s ↦ a = (m key).isNone ∧ Refines T s (T.insert m key value))
        (setFlat T depth random key value f)) (h : Refines T s m) :
    Ends Stops (fun a s ↦ a = (m key).isNone ∧ Refines T s (T.insert m key value))
      (s.set T depth random key value) := by
  apply h.descend
  intro f m' hf hkey
  rw [← hkey]
  exact hflat hf

/-- `split_storage`, from `set` on maps that are not split. -/
theorem splitStorage_ends {depth : ℕ} (hflat : ∀ {key : K}, T.isHashTableKeyEmpty key = false →
      ∀ (random : Random) (value : V) {f m}, Refines T (.flat f) m →
        Ends Stops (fun a s ↦ a = (m key).isNone ∧ Refines T s (T.insert m key value))
          (setFlat T depth random key value f))
    (hf : Table.Models T f.defaultMap m) (random : Random) :
    (∃ fault, splitStorage T (set T depth) random f = .error fault ∧ Stops fault) ∨
      ∃ s, splitStorage T (set T depth) random f = .ok s ∧ Refines T s m := by
  have hset : ∀ node ∈ f.defaultMap.entries, ∀ random s m', True → Refines T s m' →
      Ends Stops (fun _ s' ↦ True ∧ Refines T s' (T.insert m' node.1 node.2))
        (set T depth random node.1 node.2 s) := by
    intro node hnode random s m' _ hs
    refine .imp ?_ (hs.set_of_flat fun hf' ↦ hflat (hf.keys hnode) random node.2 hf')
    exact fun _ _ h ↦ ⟨trivial, h.2⟩
  obtain h | ⟨maps, he, hmaps⟩ :=
    @splitStorage_spec _ _ _ _ _ _ hf _ (fun _ _ ↦ True) (fun _ ↦ trivial) hset random
  · exact Or.inl h
  · exact Or.inr ⟨_, he, rfl, fun i ↦ (hmaps i).2⟩

/-- `set` on a map that is not split. -/
theorem Refines.setFlat (h : Refines T (.flat f) m) {key : K}
    (hk : T.isHashTableKeyEmpty key = false) (depth : ℕ) (random : Random) (value : V) :
    Ends Stops (fun a s ↦ a = (m key).isNone ∧ Refines T s (T.insert m key value))
      (Map.setFlat T depth random key value f) := by
  induction depth generalizing f m key random value with
  | zero =>
    obtain ⟨-, he⟩ | ⟨t, ht, ⟨hne, he⟩ | ⟨-, he⟩⟩ := setFlat_cases h.1 hk 0 random value
    · exact .error he (Or.inl rfl)
    · exact .ok he ⟨rfl, h.size_lt ht hne⟩
    · exact .error he (Or.inr rfl)
  | succ depth ih =>
    obtain ⟨-, he⟩ | ⟨t, ht, ⟨hne, he⟩ | ⟨-, he⟩⟩ := setFlat_cases h.1 hk (depth + 1) random value
    · exact .error he (Or.inl rfl)
    · exact .ok he ⟨rfl, h.size_lt ht hne⟩
    · rw [he]
      obtain ⟨fault, hs, hfault⟩ | ⟨s, hs, hm⟩ := @splitStorage_ends _ _ T _
        { f with defaultMap := t } _ depth (fun hk random value _ _ hf ↦ ih hf hk random value)
        ht random
      · exact .error (by dsimp only; rw [hs]; rfl) hfault
      · exact .ok (by dsimp only; rw [hs]; rfl) ⟨rfl, hm⟩

/-- `set` and `insert`. -/
theorem Refines.set (h : Refines T s m) {key : K} (hk : T.isHashTableKeyEmpty key = false)
    (depth : ℕ) (random : Random) (value : V) :
    Ends Stops (fun a s ↦ a = (m key).isNone ∧ Refines T s (T.insert m key value))
      (s.set T depth random key value) :=
  h.set_of_flat fun hf ↦ hf.setFlat hk depth random value

/-- `operator[]` on a map that is not split. -/
theorem Refines.subscriptFlat (h : Refines T (.flat f) m) {key : K}
    (hk : T.isHashTableKeyEmpty key = false) (depth : ℕ) (random : Random) (g : V → V) :
    Ends Stops (fun a s ↦ a = (m key).getD default ∧
        Refines T s (T.insert m key (g ((m key).getD default))))
      (Map.subscriptFlat T random key g depth f) := by
  induction depth generalizing f m with
  | zero =>
    rw [Map.subscriptFlat]
    obtain he | ⟨b, t₁, t, he, h₁, hm, ht, hsize⟩ := h.1.emplace_modify hk default g
    · exact .error (by rw [he]; rfl) (Or.inl rfl)
    rw [he, mapError_ok, ok_bind]
    by_cases hmax : t₁.size = f.maxStorageSize.toNat
    · exact .error (if_neg (not_not.2 hmax)) (Or.inr rfl)
    · dsimp only
      rw [if_pos hmax, hm, mapError_ok, ok_bind]
      exact .ok rfl ⟨rfl, h.size_lt ht (hsize ▸ hmax)⟩
  | succ depth ih =>
    rw [Map.subscriptFlat]
    obtain he | ⟨b, t₁, t, he, h₁, hm, ht, hsize⟩ := h.1.emplace_modify hk default g
    · exact .error (by rw [he]; rfl) (Or.inl rfl)
    rw [he, mapError_ok, ok_bind]
    by_cases hmax : t₁.size = f.maxStorageSize.toNat
    · dsimp only
      rw [if_neg (not_not.2 hmax)]
      obtain ⟨fault, hs, hfault⟩ | ⟨s, hs, hR⟩ := @splitStorage_ends _ _ T _
        { f with defaultMap := t₁ } _ depth
        (fun hk random value _ _ hf ↦ hf.setFlat hk depth random value) h₁ random
      · exact .error (by rw [hs]; rfl) hfault
      · rw [hs, ok_bind, ← T.insert_emplace m key default]
        have hkey : T.emplace m key default key = some ((m key).getD default) := by
          cases hmk : m key with
          | none => rw [T.emplace_of_none hmk, insert_self, Option.getD_none]
          | some v => rw [T.emplace_of_some hmk, hmk, Option.getD_some]
        apply hR.descend
        intro f' m' hf' hm'
        have hans : (m' key).getD default = (m key).getD default := by
          rw [hm', hkey, Option.getD_some]
        rw [← hans]
        exact ih hf'
    · dsimp only
      rw [if_pos hmax, hm, mapError_ok, ok_bind]
      exact .ok rfl ⟨rfl, h.size_lt ht (hsize ▸ hmax)⟩

/-- `operator[]`. -/
theorem Refines.subscript (h : Refines T s m) {key : K} (hk : T.isHashTableKeyEmpty key = false)
    (depth : ℕ) (random : Random) (g : V → V) :
    Ends Stops (fun a s ↦ a = (m key).getD default ∧
        Refines T s (T.insert m key (g ((m key).getD default))))
      (s.subscript T depth random key g) := by
  apply h.descend
  intro f m' hf hkey
  rw [← hkey]
  exact hf.subscriptFlat hk depth random g

end Map

end PxcCore.WaitFreeHashMap
