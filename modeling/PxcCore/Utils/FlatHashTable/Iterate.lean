import PxcCore.Utils.FlatHashTable.Size

/-!
# Iterating over a flat hash table

`Iterator` of `FlatHashTable.h`.  It goes around the array once, from the bucket that `begin` gave
it, so whatever the random bucket is, every node is visited once.
-/

namespace PxcCore.FlatHashTable

open Lib LinearProbing Buckets

variable {K V : Type} {T : Traits K}

namespace Table

/-- The increment of `it_`, which is `begin_` again at `end_`. -/
def increment (t : Table K V) (it : ℕ) : ℕ := if it + 1 = t.bucketCount then 0 else it + 1

/-- `operator++` of an iterator that began at `start`; `none` is the null pointer. -/
def advance (t : Table K V) (start it : ℕ) : Except Fault (Option ℕ) :=
  match probe t.increment (fun b ↦ b == start || (t.nodes b).isSome) t.bucketCount
      (t.increment it) with
  | none => .error .fuel
  | some b => .ok (if b = start then none else some b)

/-- The loop from a node on, up to the null pointer. -/
def collect (t : Table K V) (start : ℕ) : ℕ → ℕ → Except Fault (List (K × V))
  | 0, _ => .error .fuel
  | fuel + 1, it =>
    match t.nodes it with
    | none => .error .badIterator
    | some node => do
      match ← t.advance start it with
      | none => return [node]
      | some it => return node :: (← t.collect start fuel it)

/-- `for (auto &val : s)`: the nodes in the order in which they are visited. -/
def elements (t : Table K V) (random : UInt32) : Except Fault (List (K × V)) := do
  match (← t.beginImpl random).1 with
  | none => return []
  | some b => t.collect b t.bucketCount b

/-- The same loop, with the table that `begin` leaves. -/
def iterate (t : Table K V) (random : UInt32) : Except Fault (List (K × V) × Table K V) := do
  match ← t.beginImpl random with
  | (none, t) => return ([], t)
  | (some b, t) =>
    let nodes ← t.collect b t.bucketCount b
    return (nodes, t)

variable {t t' : Table K V} {m : K → Option V} {start it : ℕ}

/-- The next node is the first one behind `it`, up to the start. -/
theorem advance_spec (hs : start < t.bucketCount) (hi : it < t.bucketCount) :
    (t.advance start it = .ok none ∧ ∀ x < t.bucketCount,
      ringDist t.bucketCount start it < ringDist t.bucketCount start x → t.nodes x = none) ∨
    ∃ b < t.bucketCount, t.advance start it = .ok (some b) ∧ (t.nodes b).isSome ∧
      ringDist t.bucketCount start it < ringDist t.bucketCount start b ∧
      ∀ x < t.bucketCount, ringDist t.bucketCount start it < ringDist t.bucketCount start x →
        ringDist t.bucketCount start x < ringDist t.bucketCount start b → t.nodes x = none := by
  have hn : 0 < t.bucketCount := by omega
  have hinc (b : ℕ) (hb : b < t.bucketCount) : t.increment b = next t.bucketCount b := by
    rw [increment, next_eq hb]
    split_ifs <;> omega
  have hex : ∃ b < t.bucketCount, (b == start || (t.nodes b).isSome) = true :=
    ⟨start, hs, by simp⟩
  obtain ⟨b, hb, hp, hstop, hv⟩ := probe_next (next_lt hn it) hex
  have hadv : t.advance start it = .ok (if b = start then none else some b) := by
    rw [advance, hinc it hi, probe_congr hinc (fun b _ ↦ next_lt hn b) _ _ (next_lt hn it), hp]
  have hnone (x : ℕ) (hx : x < t.bucketCount) (hlt : ringDist t.bucketCount
      (next t.bucketCount it) x < ringDist t.bucketCount (next t.bucketCount it) b) :
      t.nodes x = none := by
    simpa using (Bool.or_eq_false_iff.1 (hv x hx hlt)).2
  by_cases hbs : b = start
  · left
    rw [if_pos hbs] at hadv
    refine ⟨hadv, fun x hx hlt ↦ hnone x hx ?_⟩
    have h₁ := ringDist_next_left hs hi hx hlt
    have h₂ := ringDist_next_start hs hi
    have h₃ := ringDist_lt hs hx
    rw [hbs]
    omega
  · right
    rw [if_neg hbs] at hadv
    have hsome : (t.nodes b).isSome := by simpa [hbs] using hstop
    have hlt : ringDist t.bucketCount start it < ringDist t.bucketCount start b := by
      apply lt_ringDist_of_next hs hi hb
      by_contra hle
      rcases lt_or_eq_of_le (not_lt.1 hle) with hlt | he
      · simpa using hv start hs hlt
      · exact hbs (eq_of_ringDist_eq (next_lt hn it) hs hb he).symm
    refine ⟨b, hb, hadv, hsome, hlt, fun x hx hxi hxb ↦ hnone x hx ?_⟩
    have h₁ := ringDist_next_left hs hi hx hxi
    have h₂ := ringDist_next_left hs hi hb hlt
    omega

/-- The nodes in the buckets from `it` on, once around from `start`. -/
def ahead (t : Table K V) (start it b : ℕ) : Option (K × V) :=
  if ringDist t.bucketCount start it ≤ ringDist t.bucketCount start b then t.nodes b else none

/-- A node and the nodes ahead of the next one are the nodes ahead. -/
theorem contents_ahead (hi : it < t.bucketCount) {node : K × V}
    (hnode : t.nodes it = some node) (c : ℕ → Option (K × V)) (hc : c it = none)
    (hahead : ∀ x < t.bucketCount, x ≠ it → t.ahead start it x = c x) :
    contents t.bucketCount (t.ahead start it) = node ::ₘ contents t.bucketCount c := by
  rw [← contents_update_some hi hc node, contents, contents]
  congr 1
  apply List.filterMap_congr
  intro x hx
  by_cases hxi : x = it
  · rw [hxi, Function.update_self, ahead, if_pos le_rfl, hnode]
  · rw [Function.update_of_ne hxi, hahead x (List.mem_range.1 hx) hxi]

theorem collect_spec (hs : start < t.bucketCount) (hi : it < t.bucketCount)
    (hsome : (t.nodes it).isSome) (fuel : ℕ)
    (hf : t.bucketCount ≤ ringDist t.bucketCount start it + fuel) :
    ∃ l, t.collect start fuel it = .ok l ∧
      (l : Multiset (K × V)) = contents t.bucketCount (t.ahead start it) := by
  induction fuel generalizing it with
  | zero =>
    have := ringDist_lt hs hi
    omega
  | succ fuel ih =>
    obtain ⟨node, hnode⟩ := Option.isSome_iff_exists.1 hsome
    have hne (x : ℕ) (hx : x < t.bucketCount) (hxi : x ≠ it)
        (hle : ringDist t.bucketCount start it ≤ ringDist t.bucketCount start x) :
        ringDist t.bucketCount start it < ringDist t.bucketCount start x :=
      lt_of_le_of_ne hle fun he ↦ hxi (eq_of_ringDist_eq hs hx hi he.symm)
    rw [collect]
    simp only [hnode]
    obtain ⟨hadv, hnone⟩ | ⟨b, hb, hadv, hbs, hlt, hnone⟩ := advance_spec hs hi
    · refine ⟨[node], by rw [hadv]; rfl, ?_⟩
      rw [contents_ahead hi hnode (fun _ ↦ none) rfl, contents_none]
      · rfl
      intro x hx hxi
      rw [ahead]
      split_ifs with hle
      · exact hnone x hx (hne x hx hxi hle)
      · rfl
    · obtain ⟨l, hl, hlc⟩ := ih hb hbs (by omega)
      refine ⟨node :: l, by rw [hadv, ok_bind]; simp only [hl]; rfl, ?_⟩
      rw [contents_ahead hi hnode (t.ahead start b) (if_neg (not_le.2 hlt)), ← hlc]
      · rfl
      intro x hx hxi
      rw [ahead, ahead]
      split_ifs with hle hle' hle'
      · rfl
      · exact hnone x hx (hne x hx hxi hle) (not_le.1 hle')
      · omega
      · rfl

/-- From any node on, every node is visited once. -/
theorem collect_entries (hi : it < t.bucketCount) (hsome : (t.nodes it).isSome) :
    ∃ l, t.collect it t.bucketCount it = .ok l ∧ (l : Multiset (K × V)) = t.entries := by
  obtain ⟨l, hl, hlc⟩ := collect_spec hi hi hsome t.bucketCount (by omega)
  have hall : t.ahead it it = t.nodes := by
    funext x
    rw [ahead, ringDist_self, if_pos (Nat.zero_le _)]
  exact ⟨l, hl, by rw [hlc, hall, entries]⟩

theorem Models.entries_eq_zero (h : Models T t m) (h0 : t.usedNodeCount = 0) : t.entries = 0 := by
  rcases h.shape with rfl | ha
  · exact contents_none
  · exact Multiset.card_eq_zero.1 (ha.used.symm.trans h0)

/-- Every node is visited once. -/
theorem Models.elements (h : Models T t m) (random : UInt32) :
    ∃ l, t.elements random = .ok l ∧ (l : Multiset (K × V)) = t.entries := by
  obtain ⟨b, t', hb, -, hsome, hnode⟩ := h.beginImpl random
  rw [Table.elements, hb, ok_bind]
  cases b with
  | none => exact ⟨[], rfl, (h.entries_eq_zero (by simpa using hsome)).symm⟩
  | some b =>
    obtain ⟨hlt, hbs⟩ := hnode b rfl
    exact collect_entries hlt hbs

/-! ## Iterating again -/

/-- `begin` writes its bucket down, so it returns the same bucket again. -/
theorem Models.beginImpl_again (h : Models T t m) {random : UInt32} {b : Option ℕ}
    (hb : t.beginImpl random = .ok (b, t')) (again : UInt32) :
    t'.beginImpl again = .ok (b, t') := by
  obtain ⟨b', t₁, hb', -, -, hnode⟩ := h.beginImpl random
  rw [hb] at hb'
  cases hb'
  rw [Table.beginImpl] at hb
  split_ifs at hb with h0 hinvalid
  · cases hb
    exact if_pos h0
  · split at hb
    · cases hb
    · next start _ =>
      cases hb
      obtain ⟨hlt, -⟩ := hnode start rfl
      have ha : Allocated T t := by
        refine h.shape.resolve_left ?_
        rintro rfl
        exact h0 rfl
      obtain ⟨k, -, hk, hcount⟩ := ha.count
      have hpow : 2 ^ k ≤ 2 ^ 29 := Nat.pow_le_pow_right (by omega) hk
      have hne : start ≠ invalidBucket := by
        rw [invalidBucket]
        omega
      rw [Table.beginImpl, if_neg h0]
      exact if_neg hne
  · cases hb
    rw [Table.beginImpl, if_neg h0, if_neg hinvalid]

/-- Iterating visits every node once, and doing it again visits them in the same order. -/
theorem Models.iterate (h : Models T t m) (random : UInt32) :
    ∃ l t', t.iterate random = .ok (l, t') ∧ (l : Multiset (K × V)) = t.entries ∧
      ∀ again, t'.iterate again = .ok (l, t') := by
  obtain ⟨b, t', hb, h', hsome, hnode⟩ := h.beginImpl random
  have hagain := h.beginImpl_again hb
  cases b with
  | none =>
    refine ⟨[], t', by rw [Table.iterate, hb]; rfl, ?_, fun again ↦ ?_⟩
    · exact (h.entries_eq_zero (by simpa using hsome)).symm
    · rw [Table.iterate, hagain]
      rfl
  | some b =>
    obtain ⟨bucket, rfl⟩ := beginImpl_eq hb
    obtain ⟨hlt, hbs⟩ := hnode b rfl
    obtain ⟨l, hl, hlc⟩ := @collect_entries _ _ { t with beginBucket := bucket } b hlt hbs
    have hrun {t₁ : Table K V} {random : UInt32}
        (hb : t₁.beginImpl random = .ok (some b, { t with beginBucket := bucket })) :
        t₁.iterate random = .ok (l, { t with beginBucket := bucket }) := by
      rw [Table.iterate, hb, ok_bind]
      dsimp only
      rw [hl]
      rfl
    exact ⟨l, _, hrun hb, hlc, fun again ↦ hrun (hagain again)⟩

end Table

end PxcCore.FlatHashTable
