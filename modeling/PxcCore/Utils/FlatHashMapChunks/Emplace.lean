import PxcCore.Utils.FlatHashMapChunks.Invariant

/-!
# Putting nodes into chunks

The loop of `emplace` and `emplace_node` passes over full chunks, counting itself in each of them,
and takes the first empty slot it comes to.  It fails only at a counter that is at its limit, or
when every chunk is full.
-/

namespace PxcCore.FlatHashMapChunks

open Lib TriangularProbing Buckets

variable {K V : Type} {T : HashTraits K}

namespace Table

variable {t t' : Table K V} {m : K → Option V} {node : K × V} {s i j p : ℕ}

/-- `t'` is `t` with a node whose walk went from step `i` to step `j`, and whose slot is `p`. -/
structure PlacedAt (T : HashTraits K) (t : Table K V) (node : K × V) (s i j p : ℕ)
    (t' : Table K V) : Prop where
  le : i ≤ j
  lt : j < t.chunksSize
  slot : p < chunkSize
  full : ∀ l < j, i ≤ l → t.Full (place t.chunksSize s l)
  below : ∀ l < j, i ≤ l → (t.chunks (place t.chunksSize s l)).skippedCnt ≠ 0xFFFF
  empty : t.nodes (place t.chunksSize s j * chunkSize + p) = none
  nodes : t'.nodes = Function.update t.nodes (place t.chunksSize s j * chunkSize + p) (some node)
  nodesSize : t'.nodesSize = t.nodesSize
  chunksSize : t'.chunksSize = t.chunksSize
  used : t'.usedNodes = t.usedNodes + 1
  ctrl : ∀ c, (t'.chunks c).ctrl = if c = place t.chunksSize s j then
    Function.update (t.chunks c).ctrl p (smallHash T node.1) else (t.chunks c).ctrl
  skipped : ∀ c, (t'.chunks c).skippedCnt = (t.chunks c).skippedCnt +
    if ∃ l < j, i ≤ l ∧ place t.chunksSize s l = c then 1 else 0

/-- A slot whose control byte is zero is empty. -/
theorem equalMask_zero_some {c p : ℕ}
    (hc : ∀ p < chunkSize, (t.chunks c).ctrl p = ctrlByte T (t.nodes (c * chunkSize + p)))
    (hp : (equalMask (t.chunks c).ctrl 0).head? = some p) :
    p < chunkSize ∧ t.nodes (c * chunkSize + p) = none := by
  have hmem := List.mem_of_head? hp
  simp only [equalMask, List.mem_filter, List.mem_range, decide_eq_true_eq] at hmem
  exact ⟨hmem.1, ctrlByte_eq_zero.1 ((hc p hmem.1).symm.trans hmem.2)⟩

/-- A chunk without a control byte that is zero is full. -/
theorem equalMask_zero_none {c : ℕ}
    (hc : ∀ p < chunkSize, (t.chunks c).ctrl p = ctrlByte T (t.nodes (c * chunkSize + p)))
    (hnone : (equalMask (t.chunks c).ctrl 0).head? = none) : t.Full c := by
  intro p hp hn
  rw [List.head?_eq_none_iff] at hnone
  have hmem : p ∈ equalMask (t.chunks c).ctrl 0 := by
    simp [equalMask, hp, hc p hp, hn, ctrlByte]
  simp [hnone] at hmem

/-- The table after a full chunk has been passed over. -/
def passOver (t : Table K V) (c : ℕ) : Table K V :=
  { t with
    chunks := Function.update t.chunks c
      { t.chunks c with skippedCnt := (t.chunks c).skippedCnt + 1 } }

theorem passOver_ctrl (t : Table K V) (c d : ℕ) :
    ((t.passOver c).chunks d).ctrl = (t.chunks d).ctrl := by
  by_cases h : d = c
  · subst h
    simp [passOver]
  · simp [passOver, h]

theorem passOver_skipped (t : Table K V) (c d : ℕ) : ((t.passOver c).chunks d).skippedCnt =
    (t.chunks d).skippedCnt + if d = c then 1 else 0 := by
  by_cases h : d = c
  · subst h
    simp [passOver]
  · simp [passOver, h]

/-- A walk that passes over a chunk first. -/
theorem PlacedAt.cons
    (hinj : ∀ i < t.chunksSize, ∀ j < t.chunksSize,
      place t.chunksSize s i = place t.chunksSize s j → i = j)
    (hfull : t.Full (place t.chunksSize s i))
    (hbelow : (t.chunks (place t.chunksSize s i)).skippedCnt ≠ 0xFFFF)
    (h : PlacedAt T (t.passOver (place t.chunksSize s i)) node s (i + 1) j p t') :
    PlacedAt T t node s i j p t' where
  le := (Nat.le_succ i).trans h.le
  lt := h.lt
  slot := h.slot
  full l hl hil := by
    rcases Nat.eq_or_lt_of_le hil with rfl | hil
    · exact hfull
    · exact h.full l hl hil
  below l hl hil := by
    rcases Nat.eq_or_lt_of_le hil with rfl | hil
    · exact hbelow
    · have hb := h.below l hl hil
      have hlt := h.lt
      change l + 1 ≤ j at hl
      change j < t.chunksSize at hlt
      rw [passOver_skipped, if_neg] at hb
      · exact hb
      · intro he
        have := hinj l (by omega) i (by omega) he
        omega
  empty := h.empty
  nodes := h.nodes
  nodesSize := h.nodesSize
  chunksSize := h.chunksSize
  used := h.used
  ctrl c := by
    rw [h.ctrl c, passOver_ctrl]
    rfl
  skipped c := by
    have hj := h.le
    have hlt := h.lt
    change j < t.chunksSize at hlt
    rw [h.skipped c, passOver_skipped]
    change _ + (if ∃ l < j, i + 1 ≤ l ∧ place t.chunksSize s l = c then 1 else 0) = _
    by_cases hc : c = place t.chunksSize s i
    · have h1 : ¬∃ l < j, i + 1 ≤ l ∧ place t.chunksSize s l = c := by
        rintro ⟨l, hl, hil, he⟩
        have := hinj l (by omega) i (by omega) (he.trans hc)
        omega
      have h2 : ∃ l < j, i ≤ l ∧ place t.chunksSize s l = c := ⟨i, by omega, le_rfl, hc.symm⟩
      rw [if_pos hc, if_neg h1, if_pos h2]
    · have hiff : (∃ l < j, i + 1 ≤ l ∧ place t.chunksSize s l = c) ↔
          ∃ l < j, i ≤ l ∧ place t.chunksSize s l = c := by
        constructor
        · rintro ⟨l, hl, hil, he⟩
          exact ⟨l, hl, by omega, he⟩
        · rintro ⟨l, hl, hil, he⟩
          refine ⟨l, hl, ?_, he⟩
          rcases Nat.eq_or_lt_of_le hil with rfl | hil
          · exact absurd he.symm hc
          · exact hil
      rw [if_neg hc]
      simp only [hiff, Nat.add_zero]

/-- The loop ends with the node in its slot, at a counter that is at its limit, or, every chunk
being full, not at all. -/
theorem emplaceLoop_spec {k : ℕ} (hn : t.chunksSize = 2 ^ k) (hs : s < t.chunksSize)
    (hc : ∀ c < t.chunksSize, ∀ p < chunkSize,
      (t.chunks c).ctrl p = ctrlByte T (t.nodes (c * chunkSize + p)))
    (node : K × V) {fuel i : ℕ} (hi : i + fuel = t.chunksSize) :
    (∃ j p t', emplaceLoop node (smallHash T node.1) fuel (chunkItAt t.chunksSize s i) t =
        .ok (place t.chunksSize s j * chunkSize + p, t') ∧ PlacedAt T t node s i j p t') ∨
      (emplaceLoop node (smallHash T node.1) fuel (chunkItAt t.chunksSize s i) t = .error .check ∧
        ∃ j < t.chunksSize, i ≤ j ∧ (∀ l ≤ j, i ≤ l → t.Full (place t.chunksSize s l)) ∧
          (t.chunks (place t.chunksSize s j)).skippedCnt = 0xFFFF) ∨
      emplaceLoop node (smallHash T node.1) fuel (chunkItAt t.chunksSize s i) t = .error .fuel ∧
        ∀ l < t.chunksSize, i ≤ l → t.Full (place t.chunksSize s l) := by
  induction fuel generalizing t i with
  | zero => exact Or.inr (Or.inr ⟨rfl, fun l hl hil ↦ by omega⟩)
  | succ fuel ih =>
    have hinj : ∀ i < t.chunksSize, ∀ j < t.chunksSize,
        place t.chunksSize s i = place t.chunksSize s j → i = j := by
      intro i hi j hj he
      rw [hn] at hs hi hj he
      exact place_injective hs hi hj he
    have hlt := place_lt hs i
    rw [emplaceLoop, chunkItAt_next hn]
    simp only [show (chunkItAt t.chunksSize s i).chunkI = place t.chunksSize s i from rfl]
    split
    · rename_i p hp
      obtain ⟨hpl, hempty⟩ := equalMask_zero_some (hc _ hlt) hp
      left
      refine ⟨i, p, _, by rw [Nat.add_comm (place _ s i * chunkSize) p], ?_⟩
      exact
        { le := le_rfl
          lt := by omega
          slot := hpl
          full := fun l hl hil ↦ by omega
          below := fun l hl hil ↦ by omega
          empty := hempty
          nodes := by rw [Nat.add_comm]
          nodesSize := rfl
          chunksSize := rfl
          used := rfl
          ctrl := by
            intro c
            by_cases hci : c = place t.chunksSize s i
            · subst hci
              simp
            · simp [hci]
          skipped := by
            intro c
            have h1 : ¬∃ l < i, i ≤ l ∧ place t.chunksSize s l = c := by
              rintro ⟨l, hl, hil, -⟩
              omega
            rw [if_neg h1]
            by_cases hci : c = place t.chunksSize s i
            · subst hci
              simp
            · simp [hci] }
    · rename_i hp
      have hmask := equalMask_zero_none (hc _ hlt) hp
      by_cases hlim : (t.chunks (place t.chunksSize s i)).skippedCnt = 0xFFFF
      · right; left
        refine ⟨by simp [hlim], i, by omega, le_rfl, ?_, hlim⟩
        intro l hl hil
        rwa [le_antisymm hl hil]
      · simp only [hlim, if_false]
        have hc' : ∀ c < (t.passOver (place t.chunksSize s i)).chunksSize, ∀ p < chunkSize,
            ((t.passOver (place t.chunksSize s i)).chunks c).ctrl p =
              ctrlByte T (t.nodes (c * chunkSize + p)) := by
          intro c hcl p hpl
          rw [passOver_ctrl]
          exact hc c hcl p hpl
        have hfull {P : ℕ → Prop} (h : ∀ l, P l → i + 1 ≤ l →
            t.Full (place t.chunksSize s l)) : ∀ l, P l → i ≤ l →
              t.Full (place t.chunksSize s l) := by
          intro l hl hil
          rcases Nat.eq_or_lt_of_le hil with rfl | hil
          · exact hmask
          · exact h l hl hil
        rcases ih (t := t.passOver (place t.chunksSize s i)) (i := i + 1) hn hs hc'
          (by change _ = t.chunksSize; omega) with
          ⟨j, p, t', hr, hpl⟩ | ⟨hr, j, hj, hij, hall, hl⟩ | ⟨hr, hall⟩
        · left
          exact ⟨j, p, t', hr, hpl.cons hinj hmask hlim⟩
        · right; left
          refine ⟨hr, j, hj, by omega, hfull hall, ?_⟩
          change j < t.chunksSize at hj
          rw [passOver_skipped, if_neg] at hl
          · exact hl
          · intro he
            have := hinj j hj i (by omega) he
            omega
        · right; right
          exact ⟨hr, hfull hall⟩

/-! ## One node -/

theorem PlacedAt.slot_lt (h : Allocated T t) (hp : PlacedAt T t node s i j p t')
    (hs : s < t.chunksSize) : place t.chunksSize s j * chunkSize + p < t.nodesSize := by
  rw [h.nodesSize]
  exact FlatHashMapChunks.slot_lt (place_lt hs j) hp.slot

theorem PlacedAt.entries (h : Allocated T t) (hs : s < t.chunksSize)
    (hp : PlacedAt T t node s i j p t') : t'.entries = node ::ₘ t.entries := by
  rw [Table.entries, hp.nodes, hp.nodesSize]
  exact contents_update_some (hp.slot_lt h hs) hp.empty node

theorem PlacedAt.placed (h : Allocated T t)
    (hp : PlacedAt T t node (homeChunk T t.chunksSize node.1) i j p t') :
    t'.placed T = (homeChunk T t.chunksSize node.1, t.walk T node.1 j) ::ₘ t.placed T := by
  have hempty := hp.empty
  rw [Table.placed, hp.nodes, hp.nodesSize, hp.chunksSize, walks_update_some,
    contents_update_some (hp.slot_lt h (h.home_lt _)) (by simp [walks, hempty]), slot_div hp.slot]
  rfl

/-- A placed node keeps the invariant: the counters went up along its walk. -/
theorem PlacedAt.allocated (h : Allocated T t) (hk : T.isHashTableKeyEmpty node.1 = false)
    (hp : PlacedAt T t node (homeChunk T t.chunksSize node.1) 0 j p t') : Allocated T t' := by
  have hskip (c : ℕ) :
      (∃ l < j, 0 ≤ l ∧ place t.chunksSize (homeChunk T t.chunksSize node.1) l = c) ↔
      Passes t.chunksSize (homeChunk T t.chunksSize node.1) (t.walk T node.1 j) c := by
    rw [h.passes_walk node.1 hp.lt]
    simp [walk]
  constructor
  · rw [hp.chunksSize]
    exact h.chunks_pow
  · rw [hp.nodesSize, hp.chunksSize]
    exact h.nodesSize
  · rw [hp.used, hp.entries h (h.home_lt _), Multiset.card_cons, h.used]
  · rw [hp.chunksSize]
    intro c hc q hq
    rw [hp.ctrl c, hp.nodes]
    by_cases hcj : c = place t.chunksSize (homeChunk T t.chunksSize node.1) j
    · rw [if_pos hcj, hcj]
      by_cases hqp : q = p
      · subst hqp
        simp [ctrlByte]
      · have hne : place t.chunksSize (homeChunk T t.chunksSize node.1) j * chunkSize + q ≠
            place t.chunksSize (homeChunk T t.chunksSize node.1) j * chunkSize + p := by omega
        rw [Function.update_of_ne hqp, Function.update_of_ne hne, ← hcj, h.ctrl c hc q hq]
    · have hne : c * chunkSize + q ≠
          place t.chunksSize (homeChunk T t.chunksSize node.1) j * chunkSize + p :=
        fun he ↦ hcj (slot_inj hq hp.slot he).1
      rw [if_neg hcj, Function.update_of_ne hne, h.ctrl c hc q hq]
  · rw [hp.chunksSize]
    intro c hc
    rw [hp.skipped c, hp.placed h, passed_cons, h.skipped c hc]
    simp only [hskip c]
  · rw [hp.chunksSize]
    intro c hc
    rw [hp.skipped c]
    have hle := h.skipped_le c hc
    split_ifs with hl
    · obtain ⟨l, hlj, h0, rfl⟩ := hl
      have := hp.below l hlj h0
      omega
    · exact hle
  · rw [hp.entries h (h.home_lt _)]
    intro x hx
    rcases Multiset.mem_cons.1 hx with rfl | hx
    · exact hk
    · exact h.keys x hx

/-- The chunks are all full only when there are as many nodes as slots. -/
theorem Allocated.le_card_of_full (h : Allocated T t) (key : K)
    (hall : ∀ l < t.chunksSize, t.Full (t.walk T key l)) : t.nodesSize ≤ t.entries.card := by
  by_contra hlt
  obtain ⟨b, hb, hn⟩ := exists_empty (not_le.1 hlt)
  rw [h.nodesSize] at hb
  obtain ⟨c, hc, p, hp, rfl⟩ := exists_slot hb
  obtain ⟨l, hl, rfl⟩ := h.exists_walk key hc
  exact hall l hl p hp hn

/-- `emplace_node`: it puts its node into the table, fails at a counter that is at its limit, or
finds no empty slot in a table that has none. -/
theorem Allocated.emplaceNode (h : Allocated T t) (node : K × V) :
    (∃ j p t', t.emplaceNode T node = .ok (t.walk T node.1 j * chunkSize + p, t') ∧
        PlacedAt T t node (homeChunk T t.chunksSize node.1) 0 j p t') ∨
      (t.emplaceNode T node = .error .check ∧
        ∃ j < t.chunksSize, (∀ l ≤ j, t.Full (t.walk T node.1 l)) ∧
          (t.chunks (t.walk T node.1 j)).skippedCnt = 0xFFFF) ∨
      t.emplaceNode T node = .error .fuel ∧ ∀ l < t.chunksSize, t.Full (t.walk T node.1 l) := by
  obtain ⟨k, -, hn⟩ := h.chunks_pow
  rcases emplaceLoop_spec hn (h.home_lt node.1) h.ctrl node (i := 0) (Nat.zero_add _) with
    hok | ⟨hr, j, hj, -, hall, hl⟩ | ⟨hr, hall⟩
  · exact Or.inl hok
  · exact Or.inr (Or.inl ⟨hr, j, hj, fun l hlj ↦ hall l hlj (Nat.zero_le l), hl⟩)
  · exact Or.inr (Or.inr ⟨hr, fun l hl ↦ hall l hl (Nat.zero_le l)⟩)

/-- An insertion below the load limit always finds a free slot. -/
theorem Allocated.emplaceNode_ne_fuel (h : Allocated T t) (hlt : t.usedNodes < t.nodesSize)
    (node : K × V) : t.emplaceNode T node ≠ .error .fuel := by
  intro hr
  rcases h.emplaceNode node with ⟨j, p, t', hr', -⟩ | ⟨hr', -⟩ | ⟨-, hall⟩
  · simp [hr'] at hr
  · simp [hr'] at hr
  · have := h.le_card_of_full node.1 hall
    have := h.used
    omega

/-! ## `resize` -/

theorem normalize_eq (size : ℕ) : ∃ k, 1 ≤ k ∧ normalize size = 2 ^ k * chunkSize ∧
    size < normalize size := by
  have hx : size / chunkSize ≤ (size / chunkSize) ||| 1 := Nat.left_le_or
  have hlog := Nat.lt_pow_succ_log_self (b := 2) (by omega) ((size / chunkSize) ||| 1)
  rw [← Nat.log2_eq_log_two] at hlog
  refine ⟨Nat.log2 ((size / chunkSize) ||| 1) + 1, by omega, ?_, ?_⟩
  · rw [normalize, Nat.one_shiftLeft]
  · rw [normalize, Nat.one_shiftLeft]
    unfold chunkSize at *
    omega

theorem placed_newArray (n : ℕ) : (newArray n : Table K V).placed T = 0 :=
  contents_none

theorem newArray_allocated {k : ℕ} (hk : 1 ≤ k) :
    Allocated T (newArray (2 ^ k * chunkSize) : Table K V) where
  chunks_pow := ⟨k, hk, Nat.mul_div_cancel _ (by decide)⟩
  nodesSize := by
    rw [newArray, Nat.mul_div_cancel _ (by decide)]
  used := by simp [newArray, entries]
  ctrl := by simp [newArray, ctrlByte]
  skipped c hc := by
    rw [placed_newArray]
    rfl
  skipped_le := by simp [newArray]
  keys := by simp [newArray, entries]

/-- The loop of `resize`. -/
def emplaceNodes (T : HashTraits K) (t : Table K V) (l : List (K × V)) : Except Fault (Table K V) :=
  l.foldlM (fun t node ↦ do let (_, t) ← t.emplaceNode T node; return t) t

theorem emplaceNodes_cons (t : Table K V) (node : K × V) (l : List (K × V)) :
    emplaceNodes T t (node :: l) = t.emplaceNode T node >>= fun r ↦ emplaceNodes T r.2 l := by
  rw [emplaceNodes, List.foldlM_cons, bind_assoc]
  rfl

/-- The nodes that are put in are in the table afterwards.  With room for them, only a counter at
its limit can stop this. -/
theorem Allocated.emplaceNodes (h : Allocated T t) (l : List (K × V))
    (hk : ∀ x ∈ l, T.isHashTableKeyEmpty x.1 = false) :
    (∃ f, emplaceNodes T t l = .error f ∧
        (f = .check ∨ t.nodesSize < t.entries.card + l.length)) ∨
      ∃ t', emplaceNodes T t l = .ok t' ∧ Allocated T t' ∧
        t'.entries = (l : Multiset (K × V)) + t.entries ∧ t'.nodesSize = t.nodesSize := by
  induction l generalizing t with
  | nil => exact Or.inr ⟨t, rfl, h, by simp, rfl⟩
  | cons node l ih =>
    rw [List.forall_mem_cons] at hk
    rw [emplaceNodes_cons]
    rcases h.emplaceNode node with ⟨j, p, t', hr, hp⟩ | ⟨hr, -⟩ | ⟨hr, hall⟩
    · have hent := hp.entries h (h.home_lt _)
      rw [hr, ok_bind]
      rcases ih (hp.allocated h hk.1) hk.2 with ⟨f, hf, hc⟩ | ⟨t'', hr', ha, he, hs⟩
      · left
        refine ⟨f, hf, hc.imp_right fun hlt ↦ ?_⟩
        rw [hent, Multiset.card_cons, hp.nodesSize] at hlt
        rw [List.length_cons]
        omega
      · right
        refine ⟨t'', hr', ha, ?_, hs.trans hp.nodesSize⟩
        rw [he, hent, ← Multiset.cons_coe, Multiset.cons_add, Multiset.add_cons]
    · left
      exact ⟨.check, by rw [hr, error_bind], Or.inl rfl⟩
    · left
      refine ⟨.fuel, by rw [hr, error_bind], Or.inr ?_⟩
      have := h.le_card_of_full node.1 hall
      rw [List.length_cons]
      omega

/-- The nodes of a table in the order of their slots. -/
def nodeList (t : Table K V) : List (K × V) := (List.range t.nodesSize).filterMap t.nodes

theorem coe_nodeList (t : Table K V) : (t.nodeList : Multiset (K × V)) = t.entries := rfl

theorem resize_eq (t : Table K V) {k : ℕ} :
    t.resize T (2 ^ k * chunkSize) = emplaceNodes T (newArray (2 ^ k * chunkSize)) t.nodeList := by
  have hpos := Nat.two_pow_pos k
  have hlt : ¬2 ^ k * chunkSize < chunkSize := by
    unfold chunkSize
    omega
  rw [resize, if_neg hlt]
  rfl

theorem Models.keys (h : Models T t m) : ∀ x ∈ t.entries, T.isHashTableKeyEmpty x.1 = false := by
  rcases h.shape with rfl | ha
  · simp [entries, contents]
  · exact ha.keys

theorem Models.card_entries (h : Models T t m) : t.entries.card = t.usedNodes := by
  rcases h.shape with rfl | ha
  · simp [entries, contents]
  · exact ha.used.symm

/-- `resize` to a size that `normalize` gives.  When the nodes fit in, only a counter at its limit
can stop it. -/
theorem Models.resize (h : Models T t m) (size : ℕ) :
    (∃ f, t.resize T (normalize size) = .error f ∧ (f = .check ∨ normalize size < t.usedNodes)) ∨
      ∃ t', t.resize T (normalize size) = .ok t' ∧ Allocated T t' ∧ Models T t' m ∧
        t'.usedNodes = t.usedNodes ∧ t'.nodesSize = normalize size := by
  obtain ⟨k, hk, he, -⟩ := normalize_eq size
  rw [he, resize_eq]
  have hcard : t.nodeList.length = t.usedNodes := h.card_entries
  rcases (newArray_allocated hk).emplaceNodes t.nodeList (fun x hx ↦ h.keys x hx) with
    ⟨f, hf, hc⟩ | ⟨t', hr, ha, hent, hs⟩
  · left
    refine ⟨f, hf, hc.imp_right fun hlt ↦ ?_⟩
    simp only [newArray, entries, contents_none, Multiset.card_zero, hcard] at hlt
    omega
  · right
    have hent' : t'.entries = t.entries := by
      rw [hent, coe_nodeList, entries, entries, newArray, contents_none, add_zero]
    refine ⟨t', hr, ha, ⟨Or.inr ha, hent' ▸ h.represents⟩, ?_, hs⟩
    rw [ha.used, hent', h.card_entries]

end Table

end PxcCore.FlatHashMapChunks
