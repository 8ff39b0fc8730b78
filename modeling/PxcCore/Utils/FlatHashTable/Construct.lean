import PxcCore.Utils.FlatHashTable.Size

/-!
# Room in a table

`reserve` asks for five thirds of the nodes, and one more, before it rounds up to a power of two.
That is room for so many nodes, whether they are put in by `emplace` or by the constructor from an
initializer list, which does not look at the load.
-/

namespace PxcCore.FlatHashTable

open Lib LinearProbing Buckets

section

variable {K V : Type} (T : Traits K)

namespace Table

/-- The loop of the constructor from an initializer list.  `used_node_count_` is set at its end. -/
def constructNodes : List (K × V) → ℕ → Table K V → Except Fault (Table K V)
  | [], usedNodes, t => .ok { t with usedNodeCount := usedNodes }
  | newNode :: nodes, usedNodes, t => do
    if T.isHashTableKeyEmpty newNode.1 then throw .emptyKey
    match probe (nextBucket t.bucketCountMask)
        (fun b ↦ (t.nodes b).all fun node ↦ T.eq node.1 newNode.1) t.bucketCount
        (calcBucket T t.bucketCountMask newNode.1) with
    | none => throw .fuel
    | some b =>
      if (t.nodes b).isSome then constructNodes nodes usedNodes t
      else
        constructNodes nodes (usedNodes + 1)
          { t with nodes := Function.update t.nodes b (some newNode) }

/-- `FlatHashTable(std::initializer_list<NodeT> nodes)`. -/
def construct (nodes : List (K × V)) : Except Fault (Table K V) := do
  if nodes.length = 0 then return {}
  let t ← ({} : Table K V).reserve T nodes.length
  constructNodes T nodes 0 t

/-- `emplace` of one node after the other. -/
def emplaceAll : List (T.Key × V) → Table K V → Except Fault (Table K V)
  | [], t => .ok t
  | node :: nodes, t => do
    let (_, t) ← t.emplace T node.1.1 node.2
    emplaceAll nodes t

end Table

end

variable {K V : Type} {T : Traits K}

namespace Table

variable {t t' : Table K V} {m : K → Option V}

/-! ## `reserve` -/

/-- After `reserve` there is room for so many nodes. -/
theorem Models.reserve_room (h : Models T t m) {size : ℕ} (hs : size ≠ 0)
    (hr : t.reserve T size = .ok t') :
    Allocated T t' ∧ Models T t' m ∧ t'.usedNodeCount = t.usedNodeCount ∧
      size * 5 < t'.bucketCountMask * 3 := by
  have h' : Models T t' m := by
    obtain he | ⟨t₁, he, h₁⟩ := h.reserve size
    · rw [hr] at he
      cases he
    · rw [hr] at he
      cases he
      exact h₁
  obtain ⟨k, hk, hwant, hlt⟩ := exists_normalize (size * 5 / 3 + 1)
  have hcount : 2 ^ k ≤ t'.bucketCount := by
    rw [Table.reserve, if_neg hs] at hr
    split_ifs at hr
    · cases hr
    · rw [hwant] at hr
      dsimp only at hr
      split_ifs at hr with hgrow
      · exact (resize_bucketCount hr).1.ge
      · cases hr
        exact not_lt.1 hgrow
  have h8 : 2 ^ 3 ≤ 2 ^ k := Nat.pow_le_pow_right (by omega) hk
  have ha : Allocated T t' := by
    refine h'.shape.resolve_left ?_
    rintro rfl
    change 2 ^ k ≤ 0 at hcount
    omega
  refine ⟨ha, h', ?_, ?_⟩
  · exact h'.size.trans h.size.symm
  · rw [ha.mask]
    omega

/-- With its first array a table has no bucket written down to begin from. -/
theorem reserve_init {size : ℕ} (hs : size ≠ 0) (hr : ({} : Table K V).reserve T size = .ok t') :
    t'.beginBucket = invalidBucket := by
  obtain ⟨k, hk, hwant, -⟩ := exists_normalize (size * 5 / 3 + 1)
  have hpos : 2 ^ k > ({} : Table K V).bucketCount := Nat.two_pow_pos k
  rw [Table.reserve, if_neg hs] at hr
  split_ifs at hr
  · cases hr
  · rw [hwant] at hr
    dsimp only at hr
    rw [if_pos hpos] at hr
    have hload : ({} : Table K V).usedNodeCount * 5 < (2 ^ k - 1) * 3 + 5 := by
      change 0 * 5 < _
      omega
    obtain he | ⟨t₁, he, -, -, -, -, hbegin⟩ := @resize_spec K V T {} (Or.inl rfl) k hk hload
    · rw [hr] at he
      cases he
    · rw [hr] at he
      cases he
      exact hbegin

/-! ## `emplace` without growing -/

/-- As long as there is room, nodes are put in and the array is kept. -/
theorem Allocated.emplaceAll (ha : Allocated T t) (nodes : List (T.Key × V))
    (hroom : (t.usedNodeCount + nodes.length) * 5 < t.bucketCountMask * 3 + 5) :
    ∃ t', Table.emplaceAll T nodes t = .ok t' ∧ t'.bucketCount = t.bucketCount := by
  induction nodes generalizing t with
  | nil => exact ⟨t, rfl, rfl⟩
  | cons node nodes ih =>
    obtain ⟨⟨key, hk⟩, value⟩ := node
    rw [List.length_cons] at hroom
    rw [Table.emplaceAll]
    by_cases hall : ∀ x ∈ t.entries, T.eq x.1 key = false
    · obtain ⟨b, t₁, he, ha₁, -, hent, hc⟩ :=
        ha.emplaceRec_room hk hall (by omega) 1 value
      have hused : t₁.usedNodeCount = t.usedNodeCount + 1 := by
        rw [ha₁.used, hent, Multiset.card_cons, ← ha.used]
      have hmask : t₁.bucketCountMask = t.bucketCountMask := by rw [ha₁.mask, ha.mask, hc]
      obtain ⟨t', hr, hc'⟩ := ih ha₁ (by rw [hused, hmask]; omega)
      refine ⟨t', ?_, hc'.trans hc⟩
      rw [Table.emplace, he, ok_bind]
      exact hr
    · push Not at hall
      obtain ⟨x, hx, he⟩ := hall
      obtain ⟨b, hfound⟩ := ha.emplaceRec_found hk hx (by simpa using he) 1 value
      rw [Table.emplace, hfound, ok_bind]
      exact ih ha (by omega)

/-! ## The constructor -/

/-- The loop of the constructor puts a node in unless its key is there. -/
theorem Models.constructNodes {usedNodes : ℕ} {nodes : List (K × V)}
    (h : Models T { t with usedNodeCount := usedNodes } m)
    (ha : Allocated T { t with usedNodeCount := usedNodes })
    (hbegin : t.beginBucket = invalidBucket)
    (hroom : (usedNodes + nodes.length) * 5 < t.bucketCountMask * 3 + 5) :
    Table.constructNodes T nodes usedNodes t = .error .emptyKey ∨
      ∃ t', Table.constructNodes T nodes usedNodes t = .ok t' ∧
        Models T t' (nodes.foldl (fun m node ↦ T.emplace m node.1 node.2) m) ∧
        t'.bucketCount = t.bucketCount := by
  induction nodes generalizing usedNodes t m with
  | nil => exact Or.inr ⟨_, rfl, h, rfl⟩
  | cons node nodes ih =>
    obtain ⟨key, value⟩ := node
    rw [List.length_cons] at hroom
    rw [Table.constructNodes, List.foldl_cons]
    cases hk : T.isHashTableKeyEmpty key with
    | true => exact Or.inl rfl
    | false =>
      obtain ⟨b, hb, hp, ⟨x, hx, he⟩ | ⟨hn, hall, hv⟩⟩ := ha.search key
      · have hm := h.represents.of_mem (mem_contents.2 ⟨b, hb, hx⟩) he
        dsimp only at hp hx
        rw [T.emplace_of_some hm]
        simp only [hp, hx, Bool.false_eq_true, if_false, Option.isSome_some, if_true]
        exact ih h ha hbegin (by omega)
      · have hm := (h.represents.eq_none_iff key).2 hall
        have hl : usedNodes * 5 < t.bucketCountMask * 3 := by omega
        have hnext : ({ t with
            nodes := Function.update t.nodes b (some (key, value))
            usedNodeCount := usedNodes + 1 } : Table K V) =
              ({ t with usedNodeCount := usedNodes } : Table K V).withNode b (key, value) := by
          rw [Table.withNode, Table.invalidateIterators, ← hbegin]
        have h' := h.withNode ha hb hn hk hm hl hv value
        have ha' := ha.withNode hb hn hk hl hv value
        rw [← hnext] at h' ha'
        dsimp only at hp hn
        rw [T.emplace_of_none hm]
        simp only [hp, hn, Bool.false_eq_true, if_false, Option.isSome_none]
        refine ih h' ha' hbegin ?_
        change (usedNodes + 1 + nodes.length) * 5 < t.bucketCountMask * 3 + 5
        omega

/-- The constructor makes the table of the map that the list stands for. -/
theorem construct_spec (nodes : List (K × V)) :
    Table.construct T nodes = .error .tooLarge ∨ Table.construct T nodes = .error .emptyKey ∨
      ∃ t, Table.construct T nodes = .ok t ∧
        Models T t (nodes.foldl (fun m node ↦ T.emplace m node.1 node.2) fun _ ↦ none) ∧
        t.bucketCount ≤ maxBucketCount T := by
  rw [Table.construct]
  by_cases h0 : nodes.length = 0
  · rw [List.length_eq_zero_iff.1 h0]
    exact Or.inr (Or.inr ⟨{}, rfl, .init, Nat.zero_le _⟩)
  rw [if_neg h0]
  obtain he | ⟨t, he, h⟩ := (Models.init : Models T ({} : Table K V) _).reserve nodes.length
  · rw [he]
    exact Or.inl rfl
  obtain ⟨ha, -, hused, hroom⟩ := Models.init.reserve_room h0 he
  have hmax := reserve_le_max (Nat.zero_le _) he
  have hzero : t = { t with usedNodeCount := 0 } :=
    congrArg (fun n ↦ ({ t with usedNodeCount := n } : Table K V)) hused
  have hlen : (0 + nodes.length) * 5 < t.bucketCountMask * 3 + 5 := by omega
  rw [he]
  rw [hzero] at h ha
  obtain hc | ⟨t', hc, h', hcount⟩ := h.constructNodes ha (reserve_init h0 he) hlen
  · exact Or.inr (Or.inl hc)
  · exact Or.inr (Or.inr ⟨t', hc, h', hcount.trans_le hmax⟩)

end Table

end PxcCore.FlatHashTable
