import PxcCore.Utils.FlatHashTable.Run

/-!
# References into a flat hash table

`emplace` and `operator[]` return a node of the table, through which its value is read and written.
-/

namespace PxcCore.FlatHashTable.Table

open Lib LinearProbing Buckets

variable {K V : Type}

/-- A use of the value of a node: it is read and `f` is assigned to it. -/
def modify (t : Table K V) (b : ℕ) (f : V → V) : Except Fault (V × Table K V) :=
  match t.nodes b with
  | none => .error .badIterator
  | some node =>
    .ok (node.2, { t with nodes := Function.update t.nodes b (some (node.1, f node.2)) })

variable {T : Traits K} {t t' : Table K V} {m : K → Option V}

/-! ## The node of a key -/

/-- `emplace` returns the bucket of a node with the key. -/
theorem Allocated.emplaceRec_node (ha : Allocated T t) {key : K}
    (hk : T.isHashTableKeyEmpty key = false) {value : V} {depth b : ℕ} {inserted : Bool}
    (h : emplaceRec T (depth + 1) t key value = .ok ((b, inserted), t')) :
    b < t'.bucketCount ∧ ∃ x, t'.nodes b = some x ∧ T.eq x.1 key = true := by
  induction depth generalizing t with
  | zero =>
    rw [emplaceRec_succ hk ha.mask_ne] at h
    obtain ⟨c, hc, hp, ⟨x, hx, he⟩ | ⟨hn, -, -⟩⟩ := ha.search key
    · simp only [hp, hx, Option.isSome_some, if_true] at h
      cases h
      exact ⟨hc, x, hx, he⟩
    · simp only [hp, hn, Option.isSome_none, Bool.false_eq_true, if_false] at h
      split_ifs at h
      · obtain ⟨t₁, -, h⟩ := bind_eq_ok.1 h
        split_ifs at h <;> cases h
      · cases h
        exact ⟨hc, (key, value), Function.update_self _ _ _, T.refl key⟩
  | succ depth ih =>
    rw [emplaceRec_succ hk ha.mask_ne] at h
    obtain ⟨c, hc, hp, ⟨x, hx, he⟩ | ⟨hn, -, -⟩⟩ := ha.search key
    · simp only [hp, hx, Option.isSome_some, if_true] at h
      cases h
      exact ⟨hc, x, hx, he⟩
    · simp only [hp, hn, Option.isSome_none, Bool.false_eq_true, if_false] at h
      split_ifs at h
      · obtain ⟨t₁, hr, h⟩ := bind_eq_ok.1 h
        split_ifs at h
        · obtain ⟨k, hk3, -, hcount⟩ := ha.count
          have hdouble : 2 * t.bucketCount = 2 ^ (k + 1) := by
            rw [hcount, Nat.pow_succ, Nat.mul_comm]
          have hlt := ha.used_lt
          rw [hdouble] at hr
          obtain he | ⟨t₂, he, ha₂, -⟩ := @resize_spec _ _ _ _ (Or.inr ha) (k + 1) (by omega)
            (by omega)
          · rw [hr] at he
            cases he
          · rw [hr] at he
            cases he
            exact ih ha₂ h
        · rw [throw_bind] at h
          cases h
      · cases h
        exact ⟨hc, (key, value), Function.update_self _ _ _, T.refl key⟩

/-- `emplace`, in every table. -/
theorem Models.emplace_node (h : Models T t m) {key : K} (hk : T.isHashTableKeyEmpty key = false)
    {value : V} {b : ℕ} {inserted : Bool} (hr : t.emplace T key value = .ok ((b, inserted), t')) :
    b < t'.bucketCount ∧ ∃ x, t'.nodes b = some x ∧ T.eq x.1 key = true := by
  rcases h.shape with rfl | ha
  · rw [emplace_start hk] at hr
    obtain ⟨t₁, hs, hr⟩ := bind_eq_ok.1 hr
    have hload : ({} : Table K V).usedNodeCount * 5 < (2 ^ 3 - 1) * 3 + 5 := by simp
    obtain he | ⟨t₂, he, ha₂, -⟩ := @resize_spec _ _ T _ h.shape 3 le_rfl hload
    · rw [hs] at he
      cases he
    · rw [hs] at he
      cases he
      exact ha₂.emplaceRec_node hk hr
  · exact ha.emplaceRec_node hk hr

/-! ## Using it -/

/-- Assigning to a node's value sets its key in the map. -/
theorem Models.modify (h : Models T t m) {b : ℕ} (hb : b < t.bucketCount) {x : K × V}
    (hx : t.nodes b = some x) {key : K} (hk : T.eq x.1 key = true) (f : V → V) :
    ∃ t', t.modify b f = .ok (x.2, t') ∧ Models T t' (T.insert m key (f x.2)) ∧
      t'.size = t.size := by
  have hrest := cons_contents_update_none hb hx
  have hnew := contents_update_some hb (Function.update_self b none t.nodes) (x.1, f x.2)
  rw [Function.update_idem] at hnew
  refine ⟨{ t with nodes := Function.update t.nodes b (some (x.1, f x.2)) }, ?_, ?_, rfl⟩
  · rw [Table.modify, hx]
  have hset : T.Represents (contents t.bucketCount
      (Function.update t.nodes b (some (x.1, f x.2)))) (T.insert m key (f x.2)) := by
    have hr := h.represents
    rw [entries, ← hrest] at hr
    rw [hnew]
    exact hr.set hk (f x.2)
  have ha : Allocated T t := by
    refine h.shape.resolve_left ?_
    rintro rfl
    cases hx
  refine ⟨⟨Or.inr ?_, ?_⟩, hset⟩
  · refine { ha with used := ?_, probing := ?_, keys := ?_ }
    · rw [ha.used, entries, ← hrest, entries, hnew, Multiset.card_cons, Multiset.card_cons]
    · exact ha.probing.insert (ha.probing b hb x hx)
    · intro y hy
      rw [entries, hnew] at hy
      have hkeys := ha.keys
      rw [entries, ← hrest] at hkeys
      obtain rfl | hy := Multiset.mem_cons.1 hy
      · exact hkeys x (Multiset.mem_cons_self _ _)
      · exact hkeys y (Multiset.mem_cons_of_mem hy)
  · obtain hi | h0 | ⟨hlt, hsome⟩ := h.begin_ok
    · exact Or.inl hi
    · exact Or.inr (Or.inl h0)
    · refine Or.inr (Or.inr ⟨hlt, ?_⟩)
      dsimp only
      by_cases he : t.beginBucket = b
      · rw [he, Function.update_self]
        rfl
      · rwa [Function.update_of_ne he]

/-- `operator[]` and a use of what it returns. -/
theorem Models.emplace_modify (h : Models T t m) {key : K}
    (hk : T.isHashTableKeyEmpty key = false) (value : V) (f : V → V) :
    t.emplace T key value = .error .tooLarge ∨ ∃ b t₁ t',
      t.emplace T key value = .ok ((b, (m key).isNone), t₁) ∧
      Models T t₁ (T.emplace m key value) ∧
      t₁.modify b f = .ok ((m key).getD value, t') ∧
      Models T t' (T.insert m key (f ((m key).getD value))) ∧ t'.size = t₁.size := by
  obtain he | ⟨b, t₁, he, h₁, hv⟩ := h.emplace hk value
  · exact Or.inl he
  obtain ⟨hb, x, hx, hxk⟩ := h.emplace_node hk he
  obtain ⟨t', hm, h', hsize⟩ := h₁.modify hb hx hxk f
  have hval : x.2 = (m key).getD value := by
    rw [hx, Option.map_some] at hv
    cases hmk : m key with
    | none =>
      rw [T.emplace_of_none hmk, KeyEq.insert_self] at hv
      exact Option.some_inj.1 hv
    | some w =>
      rw [T.emplace_of_some hmk, hmk] at hv
      exact Option.some_inj.1 hv
  rw [hval] at hm h'
  rw [T.insert_emplace] at h'
  exact Or.inr ⟨b, t₁, t', he, h₁, hm, h', hsize⟩

/-! ## The nodes that are there -/

/-- No key of a table is the empty one. -/
theorem Models.keys (h : Models T t m) {x : K × V} (hx : x ∈ t.entries) :
    T.isHashTableKeyEmpty x.1 = false := by
  rcases h.shape with rfl | ha
  · rw [entries, contents_none] at hx
    cases hx
  · exact ha.keys x hx

theorem Models.card_entries (h : Models T t m) : t.entries.card = t.size :=
  h.represents.ncard_live.symm.trans h.size.symm

end PxcCore.FlatHashTable.Table
