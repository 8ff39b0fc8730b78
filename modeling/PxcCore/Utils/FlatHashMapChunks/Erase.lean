import PxcCore.Utils.FlatHashMapChunks.Emplace

/-!
# Taking nodes out of chunks

`erase_node` repeats the walk that put its node there and takes back what that walk counted.
-/

namespace PxcCore.FlatHashMapChunks

open Lib TriangularProbing Buckets

variable {K V : Type} {T : HashTraits K}

namespace Table

variable {t t' : Table K V} {m : K → Option V}

/-- The chunks after a walk that went from step `i` to step `j` has been taken back. -/
structure TakenBack (n s i j p : ℕ) (chunks chunks' : ℕ → Chunk) : Prop where
  ctrl : ∀ c, (chunks' c).ctrl =
    if c = place n s j then Function.update (chunks c).ctrl p 0 else (chunks c).ctrl
  skipped : ∀ c, (chunks' c).skippedCnt =
    if ∃ l < j, i ≤ l ∧ place n s l = c then ((chunks c).skippedCnt + 0xFFFF) % 0x10000
    else (chunks c).skippedCnt

/-- The loop of `erase_node` ends at the chunk that holds the node. -/
theorem eraseLoop_spec {n k s j p : ℕ} (hn : n = 2 ^ k) (hs : s < n) (hj : j < n)
    (hp : p < chunkSize) {fuel i : ℕ} (hij : i ≤ j) (hf : j < i + fuel) (chunks : ℕ → Chunk) :
    ∃ chunks', eraseLoop (place n s j * chunkSize + p) fuel (chunkItAt n s i) chunks =
        .ok chunks' ∧ TakenBack n s i j p chunks chunks' := by
  have hinj {a b : ℕ} (ha : a < n) (hb : b < n) (he : place n s a = place n s b) : a = b := by
    subst hn
    exact place_injective hs ha hb he
  induction fuel generalizing i chunks with
  | zero => omega
  | succ fuel ih =>
    rw [eraseLoop, chunkItAt_next hn]
    simp only [show (chunkItAt n s i).chunkI = place n s i from rfl, slot_div hp,
      Nat.add_sub_cancel_left]
    by_cases he : place n s i = place n s j
    · have hij' := hinj (by omega) hj he
      subst hij'
      refine ⟨_, if_pos rfl, ?_, ?_⟩
      · intro c
        by_cases hc : c = place n s i
        · subst hc
          simp
        · simp [hc]
      · intro c
        have hno : ¬∃ l < i, i ≤ l ∧ place n s l = c := by
          rintro ⟨l, hl, hil, -⟩
          omega
        rw [if_neg hno]
        by_cases hc : c = place n s i
        · subst hc
          simp
        · simp [hc]
    · have hne : i ≠ j := fun h ↦ he (h ▸ rfl)
      rw [if_neg he]
      obtain ⟨chunks', hr, ht⟩ := ih (i := i + 1) (by omega) (by omega)
        (Function.update chunks (place n s i)
          { chunks (place n s i) with
            skippedCnt := ((chunks (place n s i)).skippedCnt + 0xFFFF) % 0x10000 })
      refine ⟨chunks', hr, ?_, ?_⟩
      · intro c
        rw [ht.ctrl c]
        by_cases hc : c = place n s i
        · subst hc
          simp
        · simp [hc]
      · intro c
        rw [ht.skipped c]
        by_cases hc : c = place n s i
        · have h1 : ¬∃ l < j, i + 1 ≤ l ∧ place n s l = c := by
            rintro ⟨l, hl, hil, hlc⟩
            have := hinj (by omega) (by omega) (hlc.trans hc)
            omega
          have h2 : ∃ l < j, i ≤ l ∧ place n s l = c := ⟨i, by omega, le_rfl, hc.symm⟩
          rw [if_neg h1, if_pos h2]
          subst hc
          simp
        · have hiff : (∃ l < j, i + 1 ≤ l ∧ place n s l = c) ↔
              ∃ l < j, i ≤ l ∧ place n s l = c := by
            constructor
            · rintro ⟨l, hl, hil, hlc⟩
              exact ⟨l, hl, by omega, hlc⟩
            · rintro ⟨l, hl, hil, hlc⟩
              refine ⟨l, hl, ?_, hlc⟩
              rcases Nat.eq_or_lt_of_le hil with rfl | hil
              · exact absurd hlc.symm hc
              · exact hil
          simp only [hiff, Function.update_of_ne hc]

/-- `erase_node` takes out its node and what its walk counted. -/
theorem Allocated.eraseNode (h : Allocated T t) {b : ℕ} (hb : b < t.nodesSize) {x : K × V}
    (hx : t.nodes b = some x) : ∃ t', t.eraseNode T b x.1 = .ok t' ∧ Allocated T t' ∧
      x ::ₘ t'.entries = t.entries ∧ t'.nodesSize = t.nodesSize ∧
      t'.nodes = Function.update t.nodes b none := by
  obtain ⟨k, -, hn⟩ := h.chunks_pow
  have hb' := hb
  rw [h.nodesSize] at hb'
  obtain ⟨c, hc, p, hp, rfl⟩ := exists_slot hb'
  obtain ⟨j, hj, rfl⟩ := h.exists_walk x.1 hc
  have hfuel : j < 0 + t.chunksSize := by omega
  obtain ⟨chunks', hr, ht⟩ :=
    eraseLoop_spec hn (h.home_lt x.1) hj hp (Nat.zero_le j) hfuel t.chunks
  have hent := cons_contents_update_none hb hx
  have hwalks := cons_contents_update_none (c := walks T t.chunksSize t.nodes) hb
    (a := (homeChunk T t.chunksSize x.1, t.walk T x.1 j)) (by simp [walks, hx, slot_div hp])
  rw [← walks_update_none] at hwalks
  have hskip (c : ℕ) : (∃ l < j, 0 ≤ l ∧ place t.chunksSize (homeChunk T t.chunksSize x.1) l = c) ↔
      Passes t.chunksSize (homeChunk T t.chunksSize x.1) (t.walk T x.1 j) c := by
    rw [h.passes_walk x.1 hj]
    simp [walk]
  -- the counters before, split into the node's own share and the rest
  have hcount (c : ℕ) (hc : c < t.chunksSize) : (t.chunks c).skippedCnt =
      passed t.chunksSize (contents t.nodesSize (walks T t.chunksSize
        (Function.update t.nodes (t.walk T x.1 j * chunkSize + p) none))) c +
        if Passes t.chunksSize (homeChunk T t.chunksSize x.1) (t.walk T x.1 j) c then 1 else 0 := by
    rw [h.skipped c hc, placed, ← hwalks, passed_cons]
  have hdec (c : ℕ) (hc : c < t.chunksSize) : (chunks' c).skippedCnt =
      passed t.chunksSize (contents t.nodesSize (walks T t.chunksSize
        (Function.update t.nodes (t.walk T x.1 j * chunkSize + p) none))) c := by
    have h1 := hcount c hc
    have h2 := h.skipped_le c hc
    rw [ht.skipped c]
    simp only [hskip c]
    split_ifs at h1 ⊢ <;> omega
  refine ⟨{ t with
    nodes := Function.update t.nodes (t.walk T x.1 j * chunkSize + p) none, chunks := chunks'
    usedNodes := t.usedNodes - 1 }, ?_, ?_, hent, rfl, rfl⟩
  · rw [Table.eraseNode]
    change eraseLoop (t.walk T x.1 j * chunkSize + p) t.chunksSize
      (t.getChunkIt (homeChunk T t.chunksSize x.1)) t.chunks = _ at hr
    rw [show (t.calcHash T x.1).chunkI = homeChunk T t.chunksSize x.1 from rfl, hr]
    rfl
  · constructor
    · exact h.chunks_pow
    · exact h.nodesSize
    · have hcard := congrArg Multiset.card hent
      rw [Multiset.card_cons] at hcard
      have := h.used
      change t.usedNodes - 1 = (contents t.nodesSize
        (Function.update t.nodes (t.walk T x.1 j * chunkSize + p) none)).card
      rw [entries] at this
      omega
    · intro d hd q hq
      rw [ht.ctrl d]
      by_cases hdc : d = place t.chunksSize (homeChunk T t.chunksSize x.1) j
      · rw [if_pos hdc, hdc]
        by_cases hqp : q = p
        · subst hqp
          simp [walk, ctrlByte]
        · have hne : place t.chunksSize (homeChunk T t.chunksSize x.1) j * chunkSize + q ≠
              t.walk T x.1 j * chunkSize + p := by
            change _ ≠ place t.chunksSize (homeChunk T t.chunksSize x.1) j * chunkSize + p
            omega
          simp only [Function.update_of_ne hqp, Function.update_of_ne hne]
          rw [← hdc, h.ctrl d hd q hq]
      · have hne : d * chunkSize + q ≠ t.walk T x.1 j * chunkSize + p :=
          fun he ↦ hdc (slot_inj hq hp he).1
        rw [if_neg hdc]
        simp only [Function.update_of_ne hne]
        exact h.ctrl d hd q hq
    · exact hdec
    · intro d hd
      have h1 := hcount d hd
      have h2 := h.skipped_le d hd
      have h3 := hdec d hd
      change (chunks' d).skippedCnt ≤ _
      omega
    · intro y hy
      apply h.keys y
      rw [entries, ← hent]
      exact Multiset.mem_cons_of_mem hy

end Table

end PxcCore.FlatHashMapChunks
