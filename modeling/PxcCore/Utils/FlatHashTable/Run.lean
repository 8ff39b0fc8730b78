import PxcCore.Utils.FlatHashTable.Erase

/-!
# Runs of operations on flat hash tables

Any number of tables, indexed by `ι`, on which operations are run one after another.  The maps that
the tables stand for are computed from the history alone, by `Op.apply`, and `run_refines` compares
the two after every history.
-/

namespace PxcCore.FlatHashTable

open Lib LinearProbing Buckets

variable {K V : Type} {T : Traits K}

/-! ## The remaining operations -/

namespace Table

variable {t : Table K V} {m : K → Option V}

theorem Models.init : Models T ({} : Table K V) (fun _ ↦ none) where
  shape := Or.inl rfl
  begin_ok := Or.inr (Or.inl rfl)
  represents := by
    rw [entries, contents_none]
    exact .empty

theorem Models.find (h : Models T t m) (key : K) : t.find T key = .ok (m key) := by
  obtain ⟨hf, hm⟩ | ⟨b, x, hf, -, -, hx, -, hm⟩ := h.findImpl key
  · simp [Table.find, hf, hm]
  · simp [Table.find, hf, hm, hx]

theorem Models.count (h : Models T t m) (key : K) :
    t.count T key = .ok (if (m key).isSome then 1 else 0) := by
  obtain ⟨hf, hm⟩ | ⟨b, x, hf, -, -, -, -, hm⟩ := h.findImpl key
  · simp [Table.count, hf, hm]
  · simp [Table.count, hf, hm]

/-- `size` is the number of keys of the map. -/
theorem Models.size (h : Models T t m) : t.size = (T.live m).ncard := by
  rw [h.represents.ncard_live]
  rcases h.shape with rfl | ha
  · simp [Table.size, entries]
  · exact ha.used

theorem Models.probing (h : Models T t m) :
    Probing t.bucketCount (home T t.bucketCountMask) t.nodes := by
  rcases h.shape with rfl | ha
  · exact .none
  · exact ha.probing

/-- Erasing the node in a bucket and shrinking. -/
theorem Models.eraseNode_tryShrink (h : Models T t m) (ha : Allocated T t) {b : ℕ}
    (hb : b < t.bucketCount) {x : K × V} (hx : t.nodes b = some x) {key : K}
    (hk : T.eq x.1 key = true) :
    ∃ t₁, t.eraseNode T b = .ok t₁ ∧ (t₁.tryShrink T = .error .tooLarge ∨
      ∃ t', t₁.tryShrink T = .ok t' ∧ Models T t' (T.erase m key)) := by
  obtain ⟨t₁, he, ha', hent⟩ := ha.eraseNode hb hx
  have hr := h.represents
  rw [← hent] at hr
  obtain hs | ⟨t', hs, hm, -⟩ := ha'.tryShrink (hr.erase hk)
  · exact ⟨t₁, he, Or.inl hs⟩
  · exact ⟨t₁, he, Or.inr ⟨t', hs, hm⟩⟩

theorem Models.eraseIterator (h : Models T t m) (it : ℕ) :
    t.eraseIterator T it = .error .badIterator ∨ t.eraseIterator T it = .error .tooLarge ∨
      ∃ x t', t.nodes it = some x ∧ m x.1 = some x.2 ∧ t.eraseIterator T it = .ok t' ∧
        Models T t' (T.erase m x.1) := by
  by_cases hit : it < t.bucketCount ∧ (t.nodes it).isSome
  swap
  · left
    simp [Table.eraseIterator, hit]
  right
  obtain ⟨x, hx⟩ := Option.isSome_iff_exists.1 hit.2
  have ha : Allocated T t := by
    rcases h.shape with rfl | ha
    · simp at hit
    · exact ha
  have hm := h.represents.of_mem (mem_contents.2 ⟨it, hit.1, hx⟩) (T.refl x.1)
  obtain ⟨t₁, he, hs | ⟨t', hs, hm'⟩⟩ := h.eraseNode_tryShrink ha hit.1 hx (T.refl x.1)
  · left
    simp [Table.eraseIterator, hit, he, hs]
  · right
    exact ⟨x, t', hx, hm, by simp [Table.eraseIterator, hit, he, hs], hm'⟩

theorem Models.erase (h : Models T t m) (key : K) :
    t.erase T key = .error .tooLarge ∨
      ∃ t', t.erase T key = .ok (if (m key).isSome then 1 else 0, t') ∧
        Models T t' (T.erase m key) := by
  obtain ⟨hf, hm⟩ | ⟨b, x, hf, ha, hb, hx, hk, hm⟩ := h.findImpl key
  · right
    exact ⟨t, by simp [Table.erase, hf, hm], h.toInv, h.represents.erase_none hm⟩
  obtain ⟨t₁, he, hs | ⟨t', hs, hm'⟩⟩ := h.eraseNode_tryShrink ha hb hx hk
  · left
    simp [Table.erase, hf, he, hs]
  · right
    exact ⟨t', by simp [Table.erase, hf, he, hs, hm], hm'⟩

theorem Models.clear (h : Models T t m) : Models T t.clear (fun _ ↦ none) := by
  rcases h.shape with rfl | ha
  · exact .init
  · simp only [Table.clear, ha.allocated, if_true]
    exact .init

theorem Models.reserve (h : Models T t m) (size : ℕ) :
    t.reserve T size = .error .tooLarge ∨ ∃ t', t.reserve T size = .ok t' ∧ Models T t' m := by
  unfold Table.reserve
  by_cases h0 : size = 0
  · right
    exact ⟨t, by rw [if_pos h0]; rfl, h⟩
  rw [if_neg h0]
  by_cases h1 : size > 1 <<< 29
  · left
    rw [if_pos h1]
    rfl
  rw [if_neg h1]
  obtain ⟨k, hk, he, -⟩ := exists_normalize (size * 5 / 3 + 1)
  simp only [he]
  by_cases h2 : 2 ^ k > t.bucketCount
  swap
  · right
    exact ⟨t, by rw [if_neg h2]; rfl, h⟩
  rw [if_pos h2]
  have hload : t.usedNodeCount * 5 < (2 ^ k - 1) * 3 + 5 := by
    rcases h.shape with rfl | ha
    · simp
    · have := ha.load
      have := ha.mask
      omega
  rcases resize_spec h.shape hk hload with hr | ⟨t', hr, ha', he', -, -, hb⟩
  · exact Or.inl hr
  · exact Or.inr ⟨t', hr, ⟨Or.inr ha', Or.inl hb⟩, he' ▸ h.represents⟩

/-- `begin` points to a node, wherever the random bucket is, unless the table is empty. -/
theorem Models.beginImpl (h : Models T t m) (random : UInt32) :
    ∃ b t', t.beginImpl random = .ok (b, t') ∧ Models T t' m ∧
      b.isSome = decide (t.usedNodeCount ≠ 0) ∧
      ∀ d ∈ b, d < t.bucketCount ∧ (t.nodes d).isSome := by
  unfold Table.beginImpl
  by_cases h0 : t.usedNodeCount = 0
  · exact ⟨none, t, by rw [if_pos h0], h, by simp [h0], by simp⟩
  have ha : Allocated T t := by
    rcases h.shape with rfl | ha
    · simp at h0
    · exact ha
  rw [if_neg h0]
  by_cases h1 : t.beginBucket = invalidBucket
  swap
  · obtain ⟨hlt, hsome⟩ := (h.begin_ok.resolve_left h1).resolve_left h0
    rw [if_neg h1]
    exact ⟨some t.beginBucket, t, rfl, h, by simp [h0], by simpa using ⟨hlt, hsome⟩⟩
  rw [if_pos h1]
  have hsome : ∃ b < t.bucketCount, (t.nodes b).isSome = true := by
    rw [ha.used] at h0
    obtain ⟨x, hx⟩ := Multiset.card_pos_iff_exists_mem.1 (Nat.pos_of_ne_zero h0)
    obtain ⟨b, hb, hbx⟩ := mem_contents.1 hx
    exact ⟨b, hb, by simp [hbx]⟩
  have hlt : random.toNat &&& t.bucketCountMask < t.bucketCount := by
    have := Nat.and_le_right (n := random.toNat) (m := t.bucketCountMask)
    have := ha.mask
    have := ha.eight_le
    omega
  obtain ⟨b, hb, hp, hs, -⟩ := probe_next hlt hsome
  rw [ha.next_eq, hp]
  refine ⟨some b, { t with beginBucket := b }, rfl, ?_, by simp [h0], by simpa using ⟨hb, hs⟩⟩
  refine ⟨⟨Or.inr ?_, Or.inr (Or.inr ⟨hb, hs⟩)⟩, h.represents⟩
  exact ⟨ha.allocated, ha.count, ha.mask, ha.used, ha.load, ha.probing, ha.keys⟩

end Table

/-! ## Histories -/

/-- An operation on the tables `ι`. -/
inductive Op (T : Traits K) (V ι : Type) where
  | emplace (i : ι) (key : T.Key) (value : V)
  | subscript (i : ι) (key : T.Key)
  | eraseIterator (i : ι) (bucket : ℕ)
  | erase (i : ι) (key : T.Key)
  | find (i : ι) (key : T.Key)
  | count (i : ι) (key : T.Key)
  | clear (i : ι)
  | reserve (i : ι) (size : ℕ)
  | begin (i : ι) (random : UInt32)
  | swap (i j : ι)
  | move (dst src : ι) (h : dst ≠ src)

/-- What an operation returns.  `node` is the value of the node and whether it is new, `erased` the
key of the node an iterator pointed to. -/
inductive Result (K V : Type) where
  | node (value : Option V) (inserted : Bool)
  | erased (key : Option K)
  | found (value : Option V)
  | number (n : ℕ)
  | bucket (b : Option ℕ)
  | done

section

variable (T) {ι : Type} [DecidableEq ι] [Inhabited V]

/-- One operation.  `operator[]` is `emplace` with `ValueT()`, and a move assignment clears its
target, copies the fields and drops those of its source. -/
def step (tables : ι → Table K V) : Op T V ι → Except Fault (Result K V × (ι → Table K V))
  | .emplace i key value => do
    let ((b, inserted), t) ← (tables i).emplace T key.1 value
    return (.node ((t.nodes b).map Prod.snd) inserted, Function.update tables i t)
  | .subscript i key => do
    let ((b, inserted), t) ← (tables i).emplace T key.1 default
    return (.node ((t.nodes b).map Prod.snd) inserted, Function.update tables i t)
  | .eraseIterator i bucket => do
    let t ← (tables i).eraseIterator T bucket
    return (.erased (((tables i).nodes bucket).map Prod.fst), Function.update tables i t)
  | .erase i key => do
    let (n, t) ← (tables i).erase T key.1
    return (.number n, Function.update tables i t)
  | .find i key => do
    let value ← (tables i).find T key.1
    return (.found value, tables)
  | .count i key => do
    let n ← (tables i).count T key.1
    return (.number n, tables)
  | .clear i => return (.done, Function.update tables i (tables i).clear)
  | .reserve i size => do
    let t ← (tables i).reserve T size
    return (.done, Function.update tables i t)
  | .begin i random => do
    let (b, t) ← (tables i).beginImpl random
    return (.bucket b, Function.update tables i t)
  | .swap i j =>
    return (.done, Function.update (Function.update tables i (tables j)) j (tables i))
  | .move dst src _ =>
    let tables := Function.update tables dst (tables dst).clear
    let tables := Function.update tables dst (tables src)
    return (.done, Function.update tables src {})

/-- A sequence of operations, with what each returns. -/
def run : List (Op T V ι) → (ι → Table K V) → Except Fault (List (Result K V) × (ι → Table K V))
  | [], tables => .ok ([], tables)
  | op :: ops, tables => do
    let (r, tables) ← step T tables op
    let (rs, tables) ← run ops tables
    return (r :: rs, tables)

variable {T}

/-- The maps after an operation that returned `r`. -/
def Op.apply (m : ι → K → Option V) : Op T V ι → Result K V → ι → K → Option V
  | .emplace i key value, _ => Function.update m i (T.emplace (m i) key.1 value)
  | .subscript i key, _ => Function.update m i (T.emplace (m i) key.1 default)
  | .eraseIterator i _, .erased (some key) => Function.update m i (T.erase (m i) key)
  | .erase i key, _ => Function.update m i (T.erase (m i) key.1)
  | .clear i, _ => Function.update m i fun _ ↦ none
  | .swap i j, _ => Function.update (Function.update m i (m j)) j (m i)
  | .move dst src _, _ => Function.update (Function.update m dst (m src)) src fun _ ↦ none
  | _, _ => m

/-- What an operation has to return on the maps `m`. -/
def Op.Returns (m : ι → K → Option V) : Op T V ι → Result K V → Prop
  | .emplace i key value, r =>
    r = .node (T.emplace (m i) key.1 value key.1) (m i key.1).isNone
  | .subscript i key, r =>
    r = .node (T.emplace (m i) key.1 default key.1) (m i key.1).isNone
  | .eraseIterator i _, r => ∃ key, r = .erased (some key) ∧ (m i key).isSome
  | .erase i key, r => r = .number (if (m i key.1).isSome then 1 else 0)
  | .find i key, r => r = .found (m i key.1)
  | .count i key, r => r = .number (if (m i key.1).isSome then 1 else 0)
  | .begin i _, r => ∃ b, r = .bucket b ∧ b.isSome = decide ((T.live (m i)).ncard ≠ 0)
  | _, r => r = .done

/-- The maps after a history. -/
def history : List (Op T V ι) → List (Result K V) → (ι → K → Option V) → ι → K → Option V
  | op :: ops, r :: rs, m => history ops rs (op.apply m r)
  | _, _, m => m

/-- Every operation of a history returned what it has to. -/
def Returned : List (Op T V ι) → List (Result K V) → (ι → K → Option V) → Prop
  | op :: ops, r :: rs, m => op.Returns m r ∧ Returned ops rs (op.apply m r)
  | [], [], _ => True
  | _, _, _ => False

/-- A step stops at a `CHECK` on an allocation size or at an iterator that points to no node, or
does to the tables what it does to the maps. -/
theorem step_spec {tables : ι → Table K V} {m : ι → K → Option V}
    (h : ∀ i, Table.Models T (tables i) (m i)) (op : Op T V ι) :
    step T tables op = .error .tooLarge ∨ step T tables op = .error .badIterator ∨
      ∃ r tables', step T tables op = .ok (r, tables') ∧ op.Returns m r ∧
        ∀ i, Table.Models T (tables' i) (op.apply m r i) := by
  have hup (i : ι) {t : Table K V} {m' : K → Option V} (ht : Table.Models T t m') (j : ι) :
      Table.Models T (Function.update tables i t j) (Function.update m i m' j) := by
    by_cases hj : j = i
    · subst hj
      simpa using ht
    · simpa [hj] using h j
  cases op with
  | emplace i key value =>
    rcases (h i).emplace key.2 value with he | ⟨b, t', he, hm, hv⟩
    · exact Or.inl (by simp [step, he])
    · exact Or.inr (Or.inr ⟨_, _, by simp [step, he]; rfl, by rw [Op.Returns, hv], hup i hm⟩)
  | subscript i key =>
    rcases (h i).emplace key.2 default with he | ⟨b, t', he, hm, hv⟩
    · exact Or.inl (by simp [step, he])
    · exact Or.inr (Or.inr ⟨_, _, by simp [step, he]; rfl, by rw [Op.Returns, hv], hup i hm⟩)
  | eraseIterator i bucket =>
    rcases (h i).eraseIterator bucket with he | he | ⟨x, t', hx, hmx, he, hm⟩
    · exact Or.inr (Or.inl (by simp [step, he]))
    · exact Or.inl (by simp [step, he])
    · refine Or.inr (Or.inr ⟨.erased (some x.1), _, by simp [step, he, hx], ?_, hup i hm⟩)
      exact ⟨x.1, rfl, by simp [hmx]⟩
  | erase i key =>
    rcases (h i).erase key.1 with he | ⟨t', he, hm⟩
    · exact Or.inl (by simp [step, he])
    · exact Or.inr (Or.inr ⟨_, _, by simp only [step, he]; rfl, rfl, hup i hm⟩)
  | find i key => exact Or.inr (Or.inr ⟨_, _, by simp only [step, (h i).find]; rfl, rfl, h⟩)
  | count i key => exact Or.inr (Or.inr ⟨_, _, by simp only [step, (h i).count]; rfl, rfl, h⟩)
  | clear i => exact Or.inr (Or.inr ⟨_, _, rfl, rfl, hup i (h i).clear⟩)
  | reserve i size =>
    rcases (h i).reserve size with he | ⟨t', he, hm⟩
    · exact Or.inl (by simp [step, he])
    · refine Or.inr (Or.inr ⟨_, _, by simp only [step, he]; rfl, rfl, ?_⟩)
      simpa [Op.apply] using hup i hm
  | begin i random =>
    obtain ⟨b, t', he, hm, hb, -⟩ := (h i).beginImpl random
    refine Or.inr (Or.inr ⟨_, _, by simp only [step, he]; rfl, ⟨b, rfl, ?_⟩, ?_⟩)
    · rw [hb, ← (h i).size]
      rfl
    · simpa [Op.apply] using hup i hm
  | swap i j =>
    refine Or.inr (Or.inr ⟨_, _, rfl, rfl, fun l ↦ ?_⟩)
    simp only [Op.apply, Function.update_apply]
    split_ifs
    · exact h i
    · exact h j
    · exact h l
  | move dst src hne =>
    refine Or.inr (Or.inr ⟨_, _, rfl, rfl, fun l ↦ ?_⟩)
    simp only [Op.apply, Function.update_apply]
    split_ifs
    · exact .init
    · simp_all
    · exact h src
    · exact h l

/-- A run stops at a `CHECK` on an allocation size or at an iterator that points to no node, or
does to the tables what its history does to the maps. -/
theorem run_spec {tables : ι → Table K V} {m : ι → K → Option V}
    (h : ∀ i, Table.Models T (tables i) (m i)) (ops : List (Op T V ι)) :
    run T ops tables = .error .tooLarge ∨ run T ops tables = .error .badIterator ∨
      ∃ rs tables', run T ops tables = .ok (rs, tables') ∧ Returned ops rs m ∧
        ∀ i, Table.Models T (tables' i) (history ops rs m i) := by
  induction ops generalizing tables m with
  | nil => exact Or.inr (Or.inr ⟨[], tables, rfl, trivial, h⟩)
  | cons op ops ih =>
    rcases step_spec h op with hs | hs | ⟨r, tables', hs, hr, hm⟩
    · exact Or.inl (by simp [run, hs])
    · exact Or.inr (Or.inl (by simp [run, hs]))
    rcases ih hm with hi | hi | ⟨rs, tables'', hi, hrs, hm'⟩
    · exact Or.inl (by simp [run, hs, hi])
    · exact Or.inr (Or.inl (by simp [run, hs, hi]))
    · exact Or.inr (Or.inr ⟨r :: rs, tables'', by simp [run, hs, hi], ⟨hr, hrs⟩, hm'⟩)

/-- Flat hash tables behave as finite maps.  Whatever is run on tables that start out empty, unless
it is stopped by the `CHECK` on an allocation size or by an iterator that points to no node: every
operation returns what it returns on maps, and afterwards `find` finds what the history leaves in
the map, `size` is the number of keys in it, and every node is reached from its own bucket by a run
of buckets that are not empty. -/
theorem run_refines (ops : List (Op T V ι)) :
    run T ops (fun _ ↦ {}) = .error .tooLarge ∨ run T ops (fun _ ↦ {}) = .error .badIterator ∨
      ∃ rs tables, run T ops (fun _ ↦ {}) = .ok (rs, tables) ∧
        Returned ops rs (fun _ _ ↦ none) ∧
        ∀ i, let m := history ops rs (fun _ _ ↦ none) i
          (∀ key, (tables i).find T key = .ok (m key)) ∧
          (tables i).size = (T.live m).ncard ∧
          Probing (tables i).bucketCount (home T (tables i).bucketCountMask) (tables i).nodes := by
  rcases run_spec (fun _ ↦ Table.Models.init) ops with h | h | ⟨rs, tables, h, hr, hm⟩
  · exact Or.inl h
  · exact Or.inr (Or.inl h)
  · exact Or.inr (Or.inr ⟨rs, tables, h, hr, fun i ↦ ⟨(hm i).find, (hm i).size, (hm i).probing⟩⟩)

end

end PxcCore.FlatHashTable
