import PxcCore.Utils.FlatHashMapChunks.Run

/-!
# When the operations return

The probe loop of `find` stops at a chunk that no walk has passed over.  Nothing in the table keeps
such a chunk: once every chunk has been passed over, the search for an absent key goes on for ever.
The other way to fail is a `skipped_cnt` that is at its limit of `0xFFFF` when one more walk has to
pass over its chunk, be it that of a new node or that of an old one during a `resize`.  `AllMeet`
says that a run avoids both, and `run_returns_iff` that it then returns, and only then.
-/

namespace PxcCore.FlatHashMapChunks

open Lib TriangularProbing Buckets

variable {K V : Type} {T : HashTraits K}

namespace Table

variable {t : Table K V} {m : K → Option V}

/-! ## Full chunks -/

theorem load_placed (h : Allocated T t) {c : ℕ} (hc : c < t.chunksSize) :
    load (t.placed T) c =
      (List.range chunkSize).countP fun i ↦ (t.nodes (c * chunkSize + i)).isSome := by
  rw [← countP_block (by decide) hc fun b ↦ (t.nodes b).isSome]
  unfold load placed contents
  rw [h.nodesSize, Multiset.coe_countP, List.countP_filterMap]
  apply List.countP_congr
  intro b _
  cases hb : t.nodes b <;> simp [walks, hb]

/-- A chunk is full when as many walks have ended there as it has slots. -/
theorem le_load_iff (h : Allocated T t) {c : ℕ} (hc : c < t.chunksSize) :
    chunkSize ≤ load (t.placed T) c ↔ t.Full c := by
  rw [load_placed h hc]
  constructor
  · intro hle p hp hn
    have hlen : (List.range chunkSize).countP (fun i ↦ (t.nodes (c * chunkSize + i)).isSome) =
        (List.range chunkSize).length :=
      le_antisymm List.countP_le_length (by rwa [List.length_range])
    have := List.countP_eq_length.1 hlen p (List.mem_range.2 hp)
    simp [hn] at this
  · intro hf
    have hlen : (List.range chunkSize).countP (fun i ↦ (t.nodes (c * chunkSize + i)).isSome) =
        (List.range chunkSize).length := by
      rw [List.countP_eq_length]
      intro p hp
      rw [Option.isSome_iff_ne_none]
      exact hf p (List.mem_range.1 hp)
    rw [hlen, List.length_range]

/-! ## Rehashing -/

/-- The nodes `l` can be dealt out to `n` chunks that hold `placed` already: one after another, each
to the first chunk on its walk with room, no chunk being passed over by more than `0xFFFF` of
them. -/
def Fits (T : HashTraits K) (n : ℕ) (l : List (K × V)) (placed : Multiset (ℕ × ℕ)) : Prop :=
  ∃ placed', deal n chunkSize (l.map fun x ↦ homeChunk T n x.1) placed = some placed' ∧
    ∀ c < n, passed n placed' c ≤ 0xFFFF

/-- Putting nodes in returns exactly when they fit. -/
theorem emplaceNodes_returns_iff (h : Allocated T t) (l : List (K × V))
    (hk : ∀ x ∈ l, T.isHashTableKeyEmpty x.1 = false) :
    (∃ t', emplaceNodes T t l = .ok t') ↔ Fits T t.chunksSize l (t.placed T) := by
  induction l generalizing t with
  | nil =>
    constructor
    · intro _
      refine ⟨_, rfl, fun c hc ↦ ?_⟩
      rw [← h.skipped c hc]
      exact h.skipped_le c hc
    · intro _
      exact ⟨t, rfl⟩
  | cons node l ih =>
    rw [List.forall_mem_cons] at hk
    rw [emplaceNodes_cons]
    have hload {i : ℕ} (hfull : t.Full (t.walk T node.1 i)) :
        chunkSize ≤ load (t.placed T) (t.walk T node.1 i) :=
      (le_load_iff h (h.walk_lt _ i)).2 hfull
    rcases h.emplaceNode node with ⟨j, p, t', hr, hp⟩ | ⟨hr, j, hj, hfull, hlim⟩ | ⟨hr, hfull⟩
    · have hroom : load (t.placed T) (t.walk T node.1 j) < chunkSize := by
        by_contra hge
        exact (le_load_iff h (h.walk_lt _ j)).1 (not_lt.1 hge) p hp.slot hp.empty
      have hfirst : firstRoom t.chunksSize chunkSize (t.placed T)
          (homeChunk T t.chunksSize node.1) = some (t.walk T node.1 j) :=
        firstRoom_eq_some hp.lt hroom fun i hi ↦ hload (hp.full i hi (Nat.zero_le i))
      have ih' := ih (hp.allocated h hk.1) hk.2
      rw [hp.placed h, hp.chunksSize] at ih'
      rw [hr, ok_bind, ih']
      simp only [Fits, List.map_cons, deal, hfirst]
    · rw [hr, error_bind]
      constructor
      · rintro ⟨t', ht⟩
        simp at ht
      rintro ⟨placed', hd, hle⟩
      exfalso
      rw [List.map_cons, deal] at hd
      split at hd
      · simp at hd
      rename_i d hfirst
      obtain ⟨i, hi, rfl, hroom⟩ := of_firstRoom_eq_some hfirst
      have hij : j < i := by
        by_contra hge
        have := hload (hfull i (not_lt.1 hge))
        exact absurd hroom (not_lt.2 this)
      have hpass : Passes t.chunksSize (homeChunk T t.chunksSize node.1) (t.walk T node.1 i)
          (t.walk T node.1 j) := (h.passes_walk node.1 hi).2 ⟨j, hij, rfl⟩
      have hdeal := passed_le_deal hd (t.walk T node.1 j)
      have hsk := h.skipped _ (h.walk_lt node.1 j)
      have hle' := hle _ (h.walk_lt node.1 j)
      change passed t.chunksSize ((homeChunk T t.chunksSize node.1, t.walk T node.1 i) ::ₘ
        t.placed T) _ ≤ _ at hdeal
      rw [passed_cons, if_pos hpass] at hdeal
      omega
    · rw [hr, error_bind]
      constructor
      · rintro ⟨t', ht⟩
        simp at ht
      rintro ⟨placed', hd, -⟩
      exfalso
      rw [List.map_cons, deal] at hd
      split at hd
      · simp at hd
      rename_i d hfirst
      obtain ⟨i, hi, rfl, hroom⟩ := of_firstRoom_eq_some hfirst
      exact absurd hroom (not_lt.2 (hload (hfull i hi)))

/-- The nodes `l` fit into the array that `resize` allocates for a size. -/
def Rehashes (T : HashTraits K) (size : ℕ) (l : List (K × V)) : Prop :=
  Fits T (normalize size / chunkSize) l 0

theorem Models.resize_returns_iff (h : Models T t m) (size : ℕ) :
    (∃ t', t.resize T (normalize size) = .ok t') ↔ Rehashes T size t.nodeList := by
  obtain ⟨k, hk, he, -⟩ := normalize_eq size
  rw [Rehashes, he, resize_eq, emplaceNodes_returns_iff (newArray_allocated hk) t.nodeList
    fun x hx ↦ h.keys x hx, placed_newArray]
  rfl

/-! ## Conditions for the operations -/

/-- A node with an equal key is in the table. -/
def Stored (T : HashTraits K) (t : Table K V) (key : K) : Prop :=
  ∃ x ∈ t.entries, T.eq x.1 key = true

theorem Models.stored_iff (h : Models T t m) (key : K) : Stored T t key ↔ (m key).isSome := by
  rw [Option.isSome_iff_ne_none, ne_eq, h.represents.eq_none_iff, Stored]
  push Not
  simp only [ne_eq, Bool.not_eq_false]

/-- The size that `grow` asks for. -/
def growSize (t : Table K V) : ℕ := 2 * t.nodesSize - if t.nodesSize = 0 then 0 else 1

/-- The condition under which a new node is put in: it fits, with all the others when the array
grows for it. -/
def RoomFor (T : HashTraits K) (t : Table K V) (node : K × V) : Prop :=
  if shouldGrow (t.usedNodes + 1) t.nodesSize then
    Rehashes T t.growSize (t.nodeList ++ [node])
  else Fits T t.chunksSize [node] (t.placed T)

/-- The condition under which the node with an equal key is taken out: the others fit when the array
shrinks. -/
def Shrinks (T : HashTraits K) (t : Table K V) (key : K) : Prop :=
  shouldShrink (t.usedNodes - 1) t.nodesSize →
    Rehashes T ((t.usedNodes - 1 + 1) * 5 / 3 + 1) (t.nodeList.filter fun x ↦ !T.eq x.1 key)

end Table

/-- The condition on a table under which an operation returns. -/
def Op.Meets (t : Table K V) : Op T V → Prop
  | .emplace key value => t.Stored T key.1 ∨ t.Stops ∧ t.RoomFor T (key.1, value)
  | .find key => t.Stored T key.1 ∨ t.Stops
  | .erase key => t.Stored T key.1 ∧ t.Shrinks T key.1 ∨ ¬t.Stored T key.1 ∧ t.Stops
  | .eraseIterator it => it < t.nodesSize ∧ (t.nodes it).isSome
  | .clear => True
  | .reserve size => normalize (size * 14 / 12 + 1) > t.nodesSize →
    Table.Rehashes T (size * 14 / 12 + 1) t.nodeList
  | .resize size => Table.Rehashes T size t.nodeList

namespace Table

variable {t : Table K V} {m : K → Option V}

theorem Models.find_returns_iff (h : Models T t m) {key : K}
    (hk : T.isHashTableKeyEmpty key = false) :
    (∃ r, t.find T key = .ok r) ↔ t.Stored T key ∨ t.Stops := by
  rw [h.stored_iff]
  rcases h.find hk with ⟨b, x, hr, -, -, -, -, hm⟩ | ⟨hm, ⟨hr, hs⟩ | ⟨hr, hs, -⟩⟩
  · simp [hr, hm]
  · simp [hr, hs]
  · simp [hr, hm, hs]

theorem emplaceNodes_append (t : Table K V) (l : List (K × V)) (node : K × V) :
    emplaceNodes T t (l ++ [node]) =
      emplaceNodes T t l >>= fun t ↦ t.emplaceNode T node >>= fun r ↦ .ok r.2 := by
  induction l generalizing t with
  | nil =>
    rw [List.nil_append, emplaceNodes_cons]
    rfl
  | cons x l ih =>
    rw [List.cons_append, emplaceNodes_cons, emplaceNodes_cons, bind_assoc]
    simp only [ih]

/-- The second half of `emplace` returns when there is room for the node. -/
theorem Models.insert_returns_iff (h : Models T t m) {key : K}
    (hk : T.isHashTableKeyEmpty key = false) (value : V) :
    (∃ r, (t.tryGrow T >>= fun t ↦ t.emplaceNode T (key, value)) = .ok r) ↔
      t.RoomFor T (key, value) := by
  unfold Table.tryGrow RoomFor
  by_cases hg : shouldGrow (t.usedNodes + 1) t.nodesSize = true
  · obtain ⟨k, hk1, he, -⟩ := normalize_eq t.growSize
    have hgrow : t.grow T = t.resize T (normalize t.growSize) := rfl
    rw [if_pos hg, if_pos hg, hgrow, he, resize_eq, Rehashes, he]
    have hfits := emplaceNodes_returns_iff (newArray_allocated hk1) (t.nodeList ++ [(key, value)])
      (by
        intro x hx
        rcases List.mem_append.1 hx with hx | hx
        · exact h.keys x hx
        · rw [List.mem_singleton.1 hx]
          exact hk)
    rw [placed_newArray] at hfits
    refine Iff.trans ?_ hfits
    rw [emplaceNodes_append]
    simp only [bind_eq_ok]
    constructor
    · rintro ⟨r, t', ht, hr⟩
      exact ⟨r.2, t', ht, r, hr, rfl⟩
    · rintro ⟨t'', t', ht, r, hr, -⟩
      exact ⟨r, t', ht, hr⟩
  · have ha : Allocated T t := by
      rcases h.shape with rfl | ha
      · simp [shouldGrow] at hg
      · exact ha
    rw [if_neg hg, if_neg hg, ← emplaceNodes_returns_iff ha [(key, value)] (by simpa using hk),
      emplaceNodes_cons, ok_bind]
    simp only [bind_eq_ok]
    constructor
    · rintro ⟨r, hr⟩
      exact ⟨r.2, r, hr, rfl⟩
    · rintro ⟨t', r, hr, -⟩
      exact ⟨r, hr⟩

theorem Models.emplace_returns_iff (h : Models T t m) {key : K}
    (hk : T.isHashTableKeyEmpty key = false) (value : V) :
    (∃ r, t.emplace T key value = .ok r) ↔
      t.Stored T key ∨ t.Stops ∧ t.RoomFor T (key, value) := by
  rw [h.stored_iff, ← h.insert_returns_iff hk]
  rcases h.find hk with ⟨b, x, hr, -, -, -, -, hm⟩ | ⟨hm, ⟨hr, hs⟩ | ⟨hr, hs, -⟩⟩
  · simp [Table.emplace, hk, hr, hm]
  · rw [emplace_new hk hr]
    simp only [hm, hs, Option.isSome_none, Bool.false_eq_true, false_or, true_and, bind_eq_ok]
    constructor
    · rintro ⟨r, t', ht, r', hr', -⟩
      exact ⟨r', t', ht, hr'⟩
    · rintro ⟨r', t', ht, hr'⟩
      exact ⟨_, t', ht, r', hr', rfl⟩
  · simp [Table.emplace, hk, hr, hm, hs]

/-- Without the node at `it`, the others keep their order. -/
theorem Models.nodeList_erase (h : Models T t m) {t' : Table K V} {it : ℕ} (hit : it < t.nodesSize)
    {x : K × V} (hx : t.nodes it = some x) (hent : x ::ₘ t'.entries = t.entries)
    (hs : t'.nodesSize = t.nodesSize) (hn : t'.nodes = Function.update t.nodes it none) {key : K}
    (hk : T.eq x.1 key = true) :
    t'.nodeList = t.nodeList.filter fun y ↦ !T.eq y.1 key := by
  have hnodup := h.represents.nodup
  rw [← hent, Multiset.map_cons, Multiset.nodup_cons, Multiset.mem_map] at hnodup
  rw [nodeList, nodeList, hs, hn, List.filter_filterMap]
  apply List.filterMap_congr
  intro b hb
  by_cases hbi : b = it
  · subst hbi
    rw [Function.update_self, hx, Option.filter_some, hk]
    rfl
  · rw [Function.update_of_ne hbi]
    cases hy : t.nodes b with
    | none => rfl
    | some y =>
      have hne : T.eq y.1 key = false := by
        by_contra he
        rw [Bool.not_eq_false] at he
        refine hnodup.1 ⟨y, ?_, T.classOf_eq_iff.2 (T.trans he (T.symm hk))⟩
        rw [entries, hs, hn, mem_contents]
        exact ⟨b, List.mem_range.1 hb, by rw [Function.update_of_ne hbi, hy]⟩
      rw [Option.filter_some, hne]
      rfl

theorem Models.erase_returns_iff (h : Models T t m) {key : K}
    (hk : T.isHashTableKeyEmpty key = false) :
    (∃ r, t.erase T key = .ok r) ↔
      t.Stored T key ∧ t.Shrinks T key ∨ ¬t.Stored T key ∧ t.Stops := by
  rw [h.stored_iff]
  rcases h.find hk with ⟨b, x, hr, -, hb, hx, hxk, hm⟩ | ⟨hm, ⟨hr, hs⟩ | ⟨hr, hs, -⟩⟩
  · obtain ⟨-, hbad⟩ | ⟨y, t₁, -, hy, -, he, hm₁, hent, hs, hn⟩ := h.eraseIterator b
    · simp [hb, hx] at hbad
    rw [hx, Option.some.injEq] at hy
    subst hy
    have hlist := h.nodeList_erase hb hx hent hs hn hxk
    have hused : t₁.usedNodes = t.usedNodes - 1 := by
      have hc := congrArg Multiset.card hent
      rw [Multiset.card_cons, hm₁.card_entries, h.card_entries] at hc
      omega
    have hiff : (∃ r, t.erase T key = .ok r) ↔ ∃ t', t₁.tryShrink T = .ok t' := by
      simp only [Table.erase, hr, he, ok_bind, bind_eq_ok]
      constructor
      · rintro ⟨r, t', ht, -⟩
        exact ⟨t', ht⟩
      · rintro ⟨t', ht⟩
        exact ⟨_, t', ht, rfl⟩
    rw [hiff, Table.tryShrink, Shrinks, ← hlist, ← hused, ← hs]
    by_cases hsh : shouldShrink t₁.usedNodes t₁.nodesSize = true
    · simp only [hsh, if_true, shrink, hm, Option.isSome_some, true_and, not_true_eq_false,
        false_and, or_false, true_imp_iff]
      exact hm₁.resize_returns_iff _
    · simp [hsh, hm]
  · simp [Table.erase, hr, hm, hs]
  · simp [Table.erase, hr, hm, hs]

end Table

/-! ## Runs -/

/-- Every step of a run meets its condition in the table it is made on. -/
def AllMeet (T : HashTraits K) : List (Op T V) → Table K V → Prop
  | [], _ => True
  | op :: ops, t => op.Meets t ∧ ∀ r t', step T t op = .ok (r, t') → AllMeet T ops t'

theorem step_returns_iff {t : Table K V} {m : K → Option V} (h : Table.Models T t m) (op : Op T V) :
    (∃ r, step T t op = .ok r) ↔ op.Meets t := by
  cases op with
  | emplace key value =>
    rw [Op.Meets, ← h.emplace_returns_iff key.2]
    simp only [step, bind_eq_ok, pure_eq_ok]
    constructor
    · rintro ⟨r, r', hr, -⟩
      exact ⟨r', hr⟩
    · rintro ⟨r', hr⟩
      exact ⟨_, r', hr, rfl⟩
  | find key =>
    rw [Op.Meets, ← h.find_returns_iff key.2]
    simp only [step, bind_eq_ok, pure_eq_ok]
    constructor
    · rintro ⟨r, r', hr, -⟩
      exact ⟨r', hr⟩
    · rintro ⟨r', hr⟩
      exact ⟨_, r', hr, rfl⟩
  | erase key =>
    rw [Op.Meets, ← h.erase_returns_iff key.2]
    simp only [step, bind_eq_ok, pure_eq_ok]
    constructor
    · rintro ⟨r, r', hr, -⟩
      exact ⟨r', hr⟩
    · rintro ⟨r', hr⟩
      exact ⟨_, r', hr, rfl⟩
  | eraseIterator it =>
    rw [Op.Meets]
    rcases h.eraseIterator it with ⟨hr, hbad⟩ | ⟨x, t', hit, hx, -, hr, -⟩
    · simp [step, hr, hbad]
    · simp [step, hr, hit, hx]
  | clear => simp [step, Op.Meets]
  | reserve size =>
    rw [Op.Meets, ← h.resize_returns_iff]
    by_cases hs : normalize (size * 14 / 12 + 1) > t.nodesSize
    · simp only [step, Table.reserve, hs, if_true, bind_eq_ok, pure_eq_ok, true_imp_iff]
      constructor
      · rintro ⟨r, t', hr, -⟩
        exact ⟨t', hr⟩
      · rintro ⟨t', hr⟩
        exact ⟨_, t', hr, rfl⟩
    · simp [step, Table.reserve, hs]
  | resize size =>
    rw [Op.Meets, ← h.resize_returns_iff]
    simp only [step, bind_eq_ok, pure_eq_ok]
    constructor
    · rintro ⟨r, t', hr, -⟩
      exact ⟨t', hr⟩
    · rintro ⟨t', hr⟩
      exact ⟨_, t', hr, rfl⟩

theorem run_returns_iff_of_models {t : Table K V} {m : K → Option V} (h : Table.Models T t m)
    (ops : List (Op T V)) : (∃ r, run T ops t = .ok r) ↔ AllMeet T ops t := by
  induction ops generalizing t m with
  | nil => simp [run, AllMeet]
  | cons op ops ih =>
    rw [AllMeet, ← step_returns_iff h]
    simp only [run, bind_eq_ok, pure_eq_ok]
    constructor
    · rintro ⟨r, ⟨r₁, t₁⟩, hs, r₂, hr, -⟩
      refine ⟨⟨_, hs⟩, fun r' t' hs' ↦ ?_⟩
      rw [hs, Except.ok.injEq, Prod.mk.injEq] at hs'
      obtain ⟨-, rfl⟩ := hs'
      exact (ih (step_spec h hs).2).1 ⟨r₂, hr⟩
    · rintro ⟨⟨⟨r₁, t₁⟩, hs⟩, hall⟩
      obtain ⟨r₂, hr⟩ := (ih (step_spec h hs).2).2 (hall r₁ t₁ hs)
      exact ⟨_, _, hs, r₂, hr, rfl⟩

/-- Two chunks: 15 keys of the first one, of which 5 are then erased, and 14 keys of the second
one. -/
def overflowBothChunks : List (Op .identity Unit) :=
  let keys (first number : ℕ) := ((List.range' first number).map UInt32.ofNat).filterMap
    HashTraits.identity.toKey
  (keys 1 15).map (Op.emplace · ()) ++ (keys 1 5).map Op.erase ++
    (keys 257 14).map (Op.emplace · ())

end PxcCore.FlatHashMapChunks
