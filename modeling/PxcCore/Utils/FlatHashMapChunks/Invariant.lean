import PxcCore.Lib.Buckets
import PxcCore.Lib.TriangularProbing
import PxcCore.Utils.FlatHashMapChunks.Table

/-!
# The invariant of `FlatHashTableChunks`

A table has no array, or a power of two of chunks in which the control bytes mirror the slots and
`skipped_cnt` of a chunk counts the nodes whose walk passes over it (`Allocated`).
-/

namespace PxcCore.FlatHashMapChunks

open Lib TriangularProbing Buckets

variable {K V : Type} (T : HashTraits K)

/-- The control byte of a slot. -/
def ctrlByte : Option (K × V) → UInt8
  | none => 0
  | some node => smallHash T node.1

/-- For the slots of an array, where the walk of the node in it starts and where it ended. -/
def walks (n : ℕ) (nodes : ℕ → Option (K × V)) : ℕ → Option (ℕ × ℕ) :=
  fun b ↦ (nodes b).map fun node ↦ (homeChunk T n node.1, b / chunkSize)

namespace Table

/-- The nodes of the table. -/
def entries (t : Table K V) : Multiset (K × V) := contents t.nodesSize t.nodes

/-- The walks of the nodes of the table. -/
def placed (t : Table K V) : Multiset (ℕ × ℕ) := contents t.nodesSize (walks T t.chunksSize t.nodes)

/-- The chunk that the walk of a key comes to in `i` steps. -/
def walk (t : Table K V) (key : K) (i : ℕ) : ℕ :=
  place t.chunksSize (homeChunk T t.chunksSize key) i

/-- No slot of the chunk is empty. -/
def Full (t : Table K V) (c : ℕ) : Prop := ∀ p < chunkSize, t.nodes (c * chunkSize + p) ≠ none

/-- What holds of a table with chunks. -/
structure Allocated (t : Table K V) : Prop where
  chunks_pow : ∃ k, 1 ≤ k ∧ t.chunksSize = 2 ^ k
  nodesSize : t.nodesSize = t.chunksSize * chunkSize
  used : t.usedNodes = t.entries.card
  ctrl : ∀ c < t.chunksSize, ∀ p < chunkSize,
    (t.chunks c).ctrl p = ctrlByte T (t.nodes (c * chunkSize + p))
  skipped : ∀ c < t.chunksSize, (t.chunks c).skippedCnt = passed t.chunksSize (t.placed T) c
  skipped_le : ∀ c < t.chunksSize, (t.chunks c).skippedCnt ≤ 0xFFFF
  keys : ∀ x ∈ t.entries, T.isHashTableKeyEmpty x.1 = false

/-- The invariant of the tables that the operations make, and the map that the table holds. -/
structure Models (t : Table K V) (m : K → Option V) : Prop where
  shape : t = {} ∨ Allocated T t
  represents : T.Represents t.entries m

end Table

variable {T}

/-! ## Slots -/

theorem slot_div {c p : ℕ} (hp : p < chunkSize) : (c * chunkSize + p) / chunkSize = c := by
  unfold chunkSize at *
  omega

theorem slot_lt {n c p : ℕ} (hc : c < n) (hp : p < chunkSize) :
    c * chunkSize + p < n * chunkSize := by
  unfold chunkSize at *
  omega

theorem exists_slot {n b : ℕ} (hb : b < n * chunkSize) :
    ∃ c < n, ∃ p < chunkSize, b = c * chunkSize + p := by
  unfold chunkSize at *
  exact ⟨b / 14, by omega, b % 14, by omega, by omega⟩

theorem slot_inj {c d p q : ℕ} (hp : p < chunkSize) (hq : q < chunkSize)
    (h : c * chunkSize + p = d * chunkSize + q) : c = d ∧ p = q := by
  unfold chunkSize at *
  omega

/-- The top bit of a small hash is set. -/
theorem smallHash_ne_zero (key : K) : smallHash T key ≠ 0 := by
  intro h
  have ht := congrArg (fun x : UInt8 ↦ x.toNat.testBit 7) h
  simp only [smallHash, UInt32.toNat_toUInt8, UInt32.toNat_or] at ht
  have hm : ((0x80 ||| T.hash key).toNat % 2 ^ 8).testBit 7 = true := by
    have h7 : (UInt32.toNat 0x80).testBit 7 = true := by decide
    rw [Nat.testBit_mod_two_pow, UInt32.toNat_or, Nat.testBit_or, h7]
    simp
  rw [UInt32.toNat_or] at hm
  rw [hm] at ht
  exact absurd ht (by decide)

theorem ctrlByte_eq_zero {x : Option (K × V)} : ctrlByte T x = 0 ↔ x = none := by
  cases x with
  | none => simp [ctrlByte]
  | some node => simp [ctrlByte, smallHash_ne_zero]

theorem smallHash_congr {a b : K} (h : T.eq a b = true) : smallHash T a = smallHash T b := by
  rw [smallHash, smallHash, T.hash_eq h]

theorem homeChunk_congr {a b : K} (h : T.eq a b = true) (n : ℕ) :
    homeChunk T n a = homeChunk T n b := by
  rw [homeChunk, homeChunk, T.hash_eq h]

theorem walks_update_some (n : ℕ) (nodes : ℕ → Option (K × V)) (b : ℕ) (node : K × V) :
    walks T n (Function.update nodes b (some node)) =
      Function.update (walks T n nodes) b (some (homeChunk T n node.1, b / chunkSize)) := by
  funext i
  by_cases h : i = b
  · subst h
    simp [walks]
  · simp [walks, h]

theorem walks_update_none (n : ℕ) (nodes : ℕ → Option (K × V)) (b : ℕ) :
    walks T n (Function.update nodes b none) = Function.update (walks T n nodes) b none := by
  funext i
  by_cases h : i = b
  · subst h
    simp [walks]
  · simp [walks, h]

/-! ## The walk of `ChunkIt` -/

/-- `ChunkIt` after `i` steps from chunk `s`. -/
def chunkItAt (n s i : ℕ) : ChunkIt := ⟨place n s i, n - 1, i⟩

theorem chunkItAt_next {n k : ℕ} (hn : n = 2 ^ k) (s i : ℕ) :
    (chunkItAt n s i).next = chunkItAt n s (i + 1) := by
  subst hn
  simp [ChunkIt.next, chunkItAt, place, Nat.and_two_pow_sub_one_eq_mod]

namespace Table

variable {t : Table K V} {m : K → Option V}

theorem Allocated.pos (h : Allocated T t) : 0 < t.chunksSize := by
  obtain ⟨k, -, he⟩ := h.chunks_pow
  rw [he]
  exact Nat.two_pow_pos k

theorem Allocated.home_lt (h : Allocated T t) (key : K) :
    homeChunk T t.chunksSize key < t.chunksSize := Nat.mod_lt _ h.pos

theorem Allocated.walk_lt (h : Allocated T t) (key : K) (i : ℕ) : t.walk T key i < t.chunksSize :=
  place_lt (h.home_lt key) i

/-- The walk of a key comes to every chunk. -/
theorem Allocated.exists_walk (h : Allocated T t) (key : K) {c : ℕ} (hc : c < t.chunksSize) :
    ∃ i < t.chunksSize, t.walk T key i = c := by
  obtain ⟨k, -, hn⟩ := h.chunks_pow
  have hs := h.home_lt key
  unfold walk
  rw [hn] at hs hc ⊢
  exact exists_place hs hc

theorem Allocated.passes_walk (h : Allocated T t) (key : K) {i : ℕ} (hi : i < t.chunksSize)
    {c : ℕ} : Passes t.chunksSize (homeChunk T t.chunksSize key) (t.walk T key i) c ↔
      ∃ j < i, t.walk T key j = c := by
  obtain ⟨k, -, hn⟩ := h.chunks_pow
  have hs := h.home_lt key
  unfold walk
  rw [hn] at hs hi ⊢
  exact passes_iff hs hi

/-- A node in a chunk that is passed over is counted there. -/
theorem Allocated.skipped_pos (h : Allocated T t) {c p : ℕ} (hc : c < t.chunksSize)
    (hp : p < chunkSize) {x : K × V} (hx : t.nodes (c * chunkSize + p) = some x) {d : ℕ}
    (hd : d < t.chunksSize) (hpass : Passes t.chunksSize (homeChunk T t.chunksSize x.1) c d) :
    0 < (t.chunks d).skippedCnt := by
  rw [h.skipped d hd, passed, Multiset.countP_pos]
  refine ⟨(homeChunk T t.chunksSize x.1, c), ?_, hpass⟩
  rw [placed, mem_contents, h.nodesSize]
  exact ⟨c * chunkSize + p, slot_lt hc hp, by simp [walks, hx, slot_div hp]⟩

/-! ## `find` -/

/-- The chunk `c` holds a node with an equal key. -/
def HasKey (T : HashTraits K) (t : Table K V) (key : K) (c : ℕ) : Prop :=
  ∃ p < chunkSize, ∃ x, t.nodes (c * chunkSize + p) = some x ∧ T.eq x.1 key = true

/-- A node found inside a chunk is there and has an equal key. -/
theorem find_in_chunk_some {ctrl : ℕ → UInt8} {small : UInt8} {nodes : ℕ → Option (K × V)} {key : K}
    {c p : ℕ} (hp : ((equalMask ctrl small).find? fun pos ↦
      (nodes (c * chunkSize + pos)).any fun node ↦ T.eq node.1 key) = some p) :
    p < chunkSize ∧ ∃ x, nodes (c * chunkSize + p) = some x ∧ T.eq x.1 key = true := by
  have hmem := List.mem_of_find?_eq_some hp
  have hany := List.find?_some hp
  simp only [equalMask, List.mem_filter, List.mem_range] at hmem
  rw [Option.any_eq_true] at hany
  exact ⟨hmem.1, hany⟩

/-- The control bytes lose no node: the search inside a chunk finds the key if it is there. -/
theorem Allocated.find_in_chunk_none (h : Allocated T t) {key : K} {c : ℕ} (hc : c < t.chunksSize)
    (hnone : ((equalMask (t.chunks c).ctrl (smallHash T key)).find? fun pos ↦
      (t.nodes (c * chunkSize + pos)).any fun node ↦ T.eq node.1 key) = none) :
    ¬HasKey T t key c := by
  rintro ⟨p, hp, x, hx, hk⟩
  rw [List.find?_eq_none] at hnone
  have hctrl : (t.chunks c).ctrl p = smallHash T key := by
    rw [h.ctrl c hc p hp, hx, ctrlByte, smallHash_congr hk]
  refine hnone p ?_ (by simp [hx, hk])
  simp [equalMask, hp, hctrl]

/-- Where the loop of `find` ends that has come `i` steps without finding the key: at the key, at a
chunk that no walk has passed over, or, with no such chunk left to come to, not in these steps. -/
theorem Allocated.findLoop_spec (h : Allocated T t) (key : K) {fuel i : ℕ}
    (hi : i + fuel = t.chunksSize) :
    (∃ j, i ≤ j ∧ j < t.chunksSize ∧ (∀ l, i ≤ l → l ≤ j → ¬HasKey T t key (t.walk T key l)) ∧
        (t.chunks (t.walk T key j)).skippedCnt = 0 ∧
        t.findLoop T key (smallHash T key) fuel
          (chunkItAt t.chunksSize (homeChunk T t.chunksSize key) i) = .ok none) ∨
      (∃ b < t.nodesSize, ∃ x, t.nodes b = some x ∧ T.eq x.1 key = true ∧
        t.findLoop T key (smallHash T key) fuel
          (chunkItAt t.chunksSize (homeChunk T t.chunksSize key) i) = .ok (some b)) ∨
      ((∀ l, i ≤ l → l < t.chunksSize → ¬HasKey T t key (t.walk T key l) ∧
          0 < (t.chunks (t.walk T key l)).skippedCnt) ∧
        t.findLoop T key (smallHash T key) fuel
          (chunkItAt t.chunksSize (homeChunk T t.chunksSize key) i) = .error .fuel) := by
  induction fuel generalizing i with
  | zero =>
    right; right
    exact ⟨fun l hl hl' ↦ by omega, rfl⟩
  | succ fuel ih =>
    obtain ⟨k, -, hn⟩ := h.chunks_pow
    have hlt := h.walk_lt key i
    rw [findLoop, chunkItAt_next hn]
    simp only [show (chunkItAt t.chunksSize (homeChunk T t.chunksSize key) i).chunkI =
      t.walk T key i from rfl]
    split
    · rename_i p hp
      obtain ⟨hpl, x, hx, hk⟩ := find_in_chunk_some hp
      right; left
      exact ⟨_, h.nodesSize ▸ slot_lt hlt hpl, x, hx, hk, rfl⟩
    · rename_i hp
      have hchunk := h.find_in_chunk_none hlt hp
      by_cases hs : (t.chunks (t.walk T key i)).skippedCnt = 0
      · left
        refine ⟨i, le_rfl, by omega, ?_, hs, ?_⟩
        · intro l hl hl'
          rwa [le_antisymm hl' hl]
        · simp [hs]
      · simp only [hs, if_false]
        have hcons {P : ℕ → Prop} {j : ℕ} (h0 : P i) (h1 : ∀ l, i + 1 ≤ l → l < j → P l) :
            ∀ l, i ≤ l → l < j → P l := by
          intro l hl hl'
          rcases Nat.eq_or_lt_of_le hl with rfl | hl
          · exact h0
          · exact h1 l hl hl'
        rcases ih (i := i + 1) (by omega) with ⟨j, hj, hjn, hno, hs', hr⟩ | hfound | ⟨hall, hr⟩
        · left
          refine ⟨j, by omega, hjn, ?_, hs', hr⟩
          intro l hl hl'
          exact hcons (j := j + 1) hchunk (fun l h1 h2 ↦ hno l h1 (by omega)) l hl (by omega)
        · exact Or.inr (Or.inl hfound)
        · right; right
          exact ⟨hcons ⟨hchunk, Nat.pos_of_ne_zero hs⟩ hall, hr⟩

/-- The loop of `find` goes on for ever when the key is nowhere and every chunk has been passed
over. -/
theorem Allocated.findLoop_diverges (h : Allocated T t) {key : K}
    (hc : ∀ c < t.chunksSize, ¬HasKey T t key c ∧ 0 < (t.chunks c).skippedCnt) (fuel i : ℕ) :
    t.findLoop T key (smallHash T key) fuel
      (chunkItAt t.chunksSize (homeChunk T t.chunksSize key) i) = .error .fuel := by
  induction fuel generalizing i with
  | zero => rfl
  | succ fuel ih =>
    obtain ⟨k, -, hn⟩ := h.chunks_pow
    have hlt := h.walk_lt key i
    obtain ⟨hno, hpos⟩ := hc _ hlt
    rw [findLoop, chunkItAt_next hn]
    simp only [show (chunkItAt t.chunksSize (homeChunk T t.chunksSize key) i).chunkI =
      t.walk T key i from rfl]
    split
    · rename_i p hp
      exact absurd ⟨p, find_in_chunk_some hp⟩ hno
    · simp only [hpos.ne', if_false]
      exact ih (i + 1)

/-- The chunks in which the search for an absent key comes to an end. -/
def Stops (t : Table K V) : Prop :=
  t.usedNodes = 0 ∨ ∃ c < t.chunksSize, (t.chunks c).skippedCnt = 0

theorem Allocated.exists_walk_slot (h : Allocated T t) {x : K × V} (hx : x ∈ t.entries) (key : K) :
    ∃ i < t.chunksSize, ∃ p < chunkSize,
      t.nodes (t.walk T key i * chunkSize + p) = some x := by
  obtain ⟨b, hb, hbx⟩ := mem_contents.1 hx
  rw [h.nodesSize] at hb
  obtain ⟨c, hc, p, hp, rfl⟩ := exists_slot hb
  obtain ⟨i, hi, rfl⟩ := h.exists_walk key hc
  exact ⟨i, hi, p, hp, hbx⟩

/-- `find` finds a key of the map.  For another key it returns `end()` if some chunk has never been
passed over, and otherwise does not return. -/
theorem Models.find (h : Models T t m) {key : K} (hk : T.isHashTableKeyEmpty key = false) :
    (∃ b x, t.find T key = .ok (some b) ∧ Allocated T t ∧ b < t.nodesSize ∧ t.nodes b = some x ∧
        T.eq x.1 key = true ∧ m key = some x.2) ∨
      m key = none ∧ (t.find T key = .ok none ∧ t.Stops ∨ t.find T key = .error .fuel ∧
        ¬t.Stops ∧ ∀ fuel, t.findLoop T key (smallHash T key) fuel
          (t.getChunkIt (homeChunk T t.chunksSize key)) = .error .fuel) := by
  by_cases h0 : t.usedNodes = 0
  · right
    refine ⟨?_, Or.inl ⟨by simp [Table.find, h0], Or.inl h0⟩⟩
    rw [h.represents.eq_none_iff]
    intro x hx
    rcases h.shape with rfl | ha
    · simp [entries, contents] at hx
    · rw [ha.used, Multiset.card_eq_zero] at h0
      simp [h0] at hx
  have ha : Allocated T t := by
    rcases h.shape with rfl | ha
    · simp at h0
    · exact ha
  have hrun : t.find T key = t.findLoop T key (smallHash T key) t.chunksSize
      (chunkItAt t.chunksSize (homeChunk T t.chunksSize key) 0) := by
    simp [Table.find, h0, hk, calcHash, getChunkIt, chunkItAt, place]
  rw [hrun]
  have hnone (hno : ∀ x ∈ t.entries, T.eq x.1 key = true → False) : m key = none := by
    rw [h.represents.eq_none_iff]
    intro x hx
    by_contra hne
    exact hno x hx (by simpa using hne)
  rcases ha.findLoop_spec key (i := 0) (Nat.zero_add _) with
    ⟨j, -, hj, hno, hs, hr⟩ | ⟨b, hb, x, hx, hxk, hr⟩ | ⟨hall, hr⟩
  · right
    refine ⟨hnone fun x hx hxk ↦ ?_, Or.inl ⟨hr, Or.inr ⟨_, ha.walk_lt key j, hs⟩⟩⟩
    obtain ⟨i, hi, p, hp, hxp⟩ := ha.exists_walk_slot hx key
    rcases le_or_gt i j with hij | hij
    · exact hno i (Nat.zero_le i) hij ⟨p, hp, x, hxp, hxk⟩
    · have hpass := (ha.passes_walk key hi).2 ⟨j, hij, rfl⟩
      rw [← homeChunk_congr hxk] at hpass
      have := ha.skipped_pos (ha.walk_lt key i) hp hxp (ha.walk_lt key j) hpass
      omega
  · left
    exact ⟨b, x, hr, ha, hb, hx, hxk, h.represents.of_mem (mem_contents.2 ⟨b, hb, hx⟩) hxk⟩
  · right
    have hc : ∀ c < t.chunksSize, ¬HasKey T t key c ∧ 0 < (t.chunks c).skippedCnt := by
      intro c hc
      obtain ⟨i, hi, rfl⟩ := ha.exists_walk key hc
      exact hall i (Nat.zero_le i) hi
    refine ⟨hnone fun x hx hxk ↦ ?_, Or.inr ⟨hr, ?_, fun fuel ↦ ha.findLoop_diverges hc fuel 0⟩⟩
    · obtain ⟨i, hi, p, hp, hxp⟩ := ha.exists_walk_slot hx key
      exact (hall i (Nat.zero_le i) hi).1 ⟨p, hp, x, hxp, hxk⟩
    · rintro (hu | ⟨c, hcn, hs⟩)
      · exact h0 hu
      · have := (hc c hcn).2
        omega

end Table

end PxcCore.FlatHashMapChunks
