import PxcCore.Utils.FlatHashTable.Size

/-!
# `remove_if`

The array is scanned from an empty bucket to its end and from its start up to that bucket.  No run
of nodes passes an empty bucket, so what `erase_node` shifts back stays ahead of the scan, also when
it comes from the start of the array over its end: the buckets split into those that the scan has
seen, which keep what was left in them, and the others, which hold the nodes that are still to be
tested.
-/

namespace PxcCore.FlatHashTable

open Lib LinearProbing Buckets

/-! ## The function -/

/-- The calls of the predicate with its answers, the last one first. -/
abbrev Calls (K V : Type) : Type := List ((K × V) × Bool)

section

variable {K V : Type} (T : Traits K)

namespace Table

/-- One of the two loops of `remove_if` over the buckets from `it` up to `stop`.  The predicate may
depend on the calls before. -/
def removeScan (f : Calls K V → K × V → Bool) (stop : ℕ) :
    ℕ → ℕ → Calls K V × Table K V → Except Fault (Calls K V × Table K V)
  | 0, _, _ => .error .fuel
  | fuel + 1, it, (calls, t) =>
    if it = stop then .ok (calls, t)
    else
      match t.nodes it with
      | none => removeScan f stop fuel (it + 1) (calls, t)
      | some node =>
        if f calls node then do
          let t ← t.eraseNode T it
          removeScan f stop fuel it ((node, true) :: calls, t)
        else removeScan f stop fuel (it + 1) ((node, false) :: calls, t)

/-- `first_empty` of `remove_if`: the first empty bucket from `it` on or, at the end of the array,
the last one before the end. -/
def firstEmpty (t : Table K V) (it : ℕ) : Except Fault ℕ :=
  match probe (· + 1) (fun b ↦ b == t.bucketCount || (t.nodes b).isNone) (t.bucketCount + 1) it with
  | none => .error .fuel
  | some it =>
    if it = t.bucketCount then
      match probe (· - 1) (fun b ↦ (t.nodes b).isNone) t.bucketCount (it - 1) with
      | none => .error .fuel
      | some it => .ok it
    else .ok it

/-- `remove_if`, with the calls of the predicate. -/
def removeIf (t : Table K V) (f : Calls K V → K × V → Bool) (random : UInt32) :
    Except Fault (Calls K V × Table K V) := do
  if t.usedNodeCount = 0 then return ([], t)
  match ← t.beginImpl random with
  | (none, _) => throw .badIterator
  | (some it, t) =>
    let firstEmpty ← t.firstEmpty it
    let (calls, t) ← removeScan T f t.bucketCount (2 * t.bucketCount) firstEmpty ([], t)
    let (calls, t) ← removeScan T f firstEmpty (2 * t.bucketCount) 0 (calls, t)
    let t ← t.tryShrink T
    return (calls, t)

end Table

end

variable {K V : Type} {T : Traits K} {f : Calls K V → K × V → Bool}

/-- Every answer is the one that the predicate gave, after the calls before. -/
def Answers (f : Calls K V → K × V → Bool) : Calls K V → Prop
  | [] => True
  | (node, answer) :: calls => answer = f calls node ∧ Answers f calls

/-- The nodes of all calls. -/
def called (calls : Calls K V) : Multiset (K × V) := (calls.map Prod.fst : List (K × V))

/-- The nodes for which the predicate was false. -/
def spared (calls : Calls K V) : Multiset (K × V) :=
  ((calls.filter fun call ↦ !call.2).map Prod.fst : List (K × V))

theorem called_cons (node : K × V) (answer : Bool) (calls : Calls K V) :
    called ((node, answer) :: calls) = node ::ₘ called calls := rfl

theorem spared_cons_true (node : K × V) (calls : Calls K V) :
    spared ((node, true) :: calls) = spared calls := rfl

theorem spared_cons_false (node : K × V) (calls : Calls K V) :
    spared ((node, false) :: calls) = node ::ₘ spared calls := rfl

theorem spared_le_called (calls : Calls K V) : spared calls ≤ called calls := by
  apply Multiset.coe_le.2
  exact (List.filter_sublist.map Prod.fst).subperm

/-- A predicate that does not look at the calls spares what it is false for. -/
theorem spared_of_pure {p : K × V → Bool} {calls : Calls K V} (h : Answers (fun _ ↦ p) calls) :
    spared calls = (called calls).filter fun node ↦ p node = false := by
  induction calls with
  | nil => rfl
  | cons call calls ih =>
    obtain ⟨node, answer⟩ := call
    obtain ⟨ha, h⟩ := h
    rw [called_cons]
    cases answer with
    | true => rw [Multiset.filter_cons_of_neg _ (by simp [← ha]), ← ih h, spared_cons_true]
    | false =>
      have hp : p node = false := ha.symm
      rw [@Multiset.filter_cons_of_pos _ (p · = false) _ _ _ hp, ← ih h, spared_cons_false]

namespace Table

variable {t t' : Table K V}

/-! ## What the scan has seen -/

/-- The nodes in the buckets that a scan from `e` has not come to after `d` steps. -/
def unseen (t : Table K V) (e d b : ℕ) : Option (K × V) :=
  if ringDist t.bucketCount e b < d then none else t.nodes b

/-- The nodes in the buckets that it has come to. -/
def seen (t : Table K V) (e d b : ℕ) : Option (K × V) :=
  if ringDist t.bucketCount e b < d then t.nodes b else none

variable {e d it : ℕ}

theorem unseen_zero (t : Table K V) (e : ℕ) : t.unseen e 0 = t.nodes := by
  funext b
  exact if_neg (Nat.not_lt_zero _)

/-- After a round nothing is left. -/
theorem contents_unseen_bucketCount (he : e < t.bucketCount) :
    contents t.bucketCount (t.unseen e t.bucketCount) = 0 := by
  rw [← @contents_none (K × V) t.bucketCount]
  apply contents_congr
  intro b hb
  exact if_pos (ringDist_lt he hb)

theorem unseen_add_seen (t : Table K V) (e d : ℕ) :
    contents t.bucketCount (t.unseen e d) + contents t.bucketCount (t.seen e d) = t.entries :=
  contents_add_contents t.bucketCount t.nodes fun b ↦ ringDist t.bucketCount e b < d

/-- The buckets that one more step leaves. -/
theorem unseen_succ (he : e < t.bucketCount) (hit : it < t.bucketCount)
    (hd : ringDist t.bucketCount e it = d) {b : ℕ} (hb : b < t.bucketCount) :
    t.unseen e (d + 1) b = if b = it then none else t.unseen e d b := by
  have hiff : ringDist t.bucketCount e b = d ↔ b = it := by
    constructor
    · intro h
      exact eq_of_ringDist_eq he hb hit (h.trans hd.symm)
    · rintro rfl
      exact hd
  rw [unseen, unseen]
  split_ifs <;> first | rfl | omega

/-- A step from an empty bucket. -/
theorem contents_unseen_of_none (he : e < t.bucketCount) (hit : it < t.bucketCount)
    (hd : ringDist t.bucketCount e it = d) (hn : t.nodes it = none) :
    contents t.bucketCount (t.unseen e (d + 1)) = contents t.bucketCount (t.unseen e d) := by
  apply contents_congr
  intro b hb
  rw [unseen_succ he hit hd hb]
  split_ifs with h
  · rw [h, unseen, hn, ite_self]
  · rfl

/-- A step from a node. -/
theorem contents_unseen_of_some (he : e < t.bucketCount) (hit : it < t.bucketCount)
    (hd : ringDist t.bucketCount e it = d) {node : K × V} (hn : t.nodes it = some node) :
    contents t.bucketCount (t.unseen e d) =
      node ::ₘ contents t.bucketCount (t.unseen e (d + 1)) := by
  have hnone : t.unseen e (d + 1) it = none := if_pos (hd ▸ Nat.lt_succ_self _)
  rw [← contents_update_some hit hnone node]
  apply contents_congr
  intro b hb
  by_cases h : b = it
  · rw [h, Function.update_self, unseen, if_neg (hd ▸ lt_irrefl _), hn]
  · rw [Function.update_of_ne h, unseen_succ he hit hd hb, if_neg h]

/-- Taking an unseen node out, when the seen buckets stay as they are. -/
theorem contents_unseen_of_erased {node : K × V} (hc : t'.bucketCount = t.bucketCount)
    (hent : node ::ₘ t'.entries = t.entries)
    (hseen : ∀ b, ringDist t.bucketCount e b < d → t'.nodes b = t.nodes b) :
    contents t.bucketCount (t.unseen e d) = node ::ₘ contents t'.bucketCount (t'.unseen e d) := by
  have hsame : contents t'.bucketCount (t'.seen e d) = contents t.bucketCount (t.seen e d) := by
    rw [hc]
    apply contents_congr
    intro b _
    rw [seen, seen, hc]
    split_ifs with h
    · exact hseen b h
    · rfl
  rw [← unseen_add_seen t e d, ← unseen_add_seen t' e d, hsame, ← Multiset.cons_add] at hent
  exact (add_right_cancel hent).symm

/-! ## The scan -/

/-- Where `remove_if` stands after `d` steps from the empty bucket `e` of a table with `n` buckets
and the nodes `s`. -/
structure Removing (T : Traits K) (f : Calls K V → K × V → Bool) (n e : ℕ) (s : Multiset (K × V))
    (d : ℕ) (calls : Calls K V) (t : Table K V) : Prop where
  allocated : Allocated T t
  count : t.bucketCount = n
  start_lt : e < n
  start : t.nodes e = none
  called : called calls + contents t.bucketCount (t.unseen e d) = s
  spared : spared calls + contents t.bucketCount (t.unseen e d) = t.entries
  answers : Answers f calls

variable {n : ℕ} {s : Multiset (K × V)} {calls : Calls K V}

/-- An empty bucket is passed. -/
theorem Removing.skip (h : Removing T f n e s d calls t) (hit : it < n)
    (hd : ringDist n e it = d) (hn : t.nodes it = none) : Removing T f n e s (d + 1) calls t := by
  obtain rfl := h.count
  have hnext := contents_unseen_of_none h.start_lt hit hd hn
  refine { h with called := ?_, spared := ?_ }
  · rw [hnext, h.called]
  · rw [hnext, h.spared]

/-- A node for which the predicate is false stays. -/
theorem Removing.keep (h : Removing T f n e s d calls t) (hit : it < n)
    (hd : ringDist n e it = d) {node : K × V} (hn : t.nodes it = some node)
    (hf : f calls node = false) : Removing T f n e s (d + 1) ((node, false) :: calls) t := by
  obtain rfl := h.count
  have hnext := contents_unseen_of_some h.start_lt hit hd hn
  refine { h with called := ?_, spared := ?_, answers := ⟨hf.symm, h.answers⟩ }
  · rw [← h.called, hnext, called_cons, Multiset.cons_add, Multiset.add_cons]
  · rw [← h.spared, hnext, spared_cons_false, Multiset.cons_add, Multiset.add_cons]

/-- A node for which the predicate is true is erased, and what was behind it is still unseen. -/
theorem Removing.erase (h : Removing T f n e s d calls t) (hit : it < n)
    (hd : ringDist n e it = d) {node : K × V} (hn : t.nodes it = some node)
    (hf : f calls node = true) :
    ∃ t', t.eraseNode T it = .ok t' ∧ t'.usedNodeCount + 1 = t.usedNodeCount ∧
      Removing T f n e s d ((node, true) :: calls) t' := by
  obtain rfl := h.count
  obtain ⟨t', herase, ha, hent, hcount, hbefore⟩ :=
    h.allocated.eraseNode_before hit hn h.start_lt h.start
  rw [hd] at hbefore
  have hunseen := contents_unseen_of_erased hcount hent hbefore
  have hne : e ≠ it := by
    rintro rfl
    rw [h.start] at hn
    cases hn
  refine ⟨t', herase, ?_, ?_⟩
  · rw [ha.used, h.allocated.used, ← hent, Multiset.card_cons]
  refine ⟨ha, hcount, h.start_lt, ?_, ?_, ?_, hf.symm, h.answers⟩
  · rw [hbefore e, h.start]
    rw [ringDist_self, ← hd]
    exact ringDist_pos h.start_lt hne.symm
  · rw [← h.called, hunseen, called_cons, Multiset.cons_add, Multiset.add_cons]
  · have hspared := h.spared
    rw [hunseen, ← hent, Multiset.add_cons, Multiset.cons_inj_right] at hspared
    rw [spared_cons_true, hspared]

/-- One of the two loops. -/
theorem Removing.scan (h : Removing T f n e s d calls t) {stop fuel : ℕ} (hstop : stop ≤ n)
    (hle : it ≤ stop) (hd : ∀ b, it ≤ b → b < stop → ringDist n e b = d + (b - it))
    (hfuel : stop - it + t.usedNodeCount < fuel) :
    ∃ calls' t', removeScan T f stop fuel it (calls, t) = .ok (calls', t') ∧
      Removing T f n e s (d + (stop - it)) calls' t' := by
  induction fuel generalizing it d calls t with
  | zero => omega
  | succ fuel ih =>
    rw [removeScan]
    by_cases hend : it = stop
    · rw [if_pos hend, hend, Nat.sub_self]
      exact ⟨calls, t, rfl, h⟩
    have hlt : it < stop := lt_of_le_of_ne hle hend
    have hit : it < n := hlt.trans_le hstop
    have hdist : ringDist n e it = d := by simpa using hd it le_rfl hlt
    have hd' : ∀ b, it + 1 ≤ b → b < stop → ringDist n e b = d + 1 + (b - (it + 1)) := by
      intro b hb hbs
      rw [hd b (Nat.le_of_succ_le hb) hbs]
      omega
    have hsteps : d + 1 + (stop - (it + 1)) = d + (stop - it) := by omega
    rw [if_neg hend]
    cases hn : t.nodes it with
    | none =>
      rw [← hsteps]
      exact ih (h.skip hit hdist hn) hlt hd' (by omega)
    | some node =>
      dsimp only
      cases hf : f calls node with
      | true =>
        obtain ⟨t', herase, hused, h'⟩ := h.erase hit hdist hn hf
        rw [if_pos rfl, herase, ok_bind]
        exact ih h' hle hd (by omega)
      | false =>
        rw [if_neg Bool.false_ne_true, ← hsteps]
        exact ih (h.keep hit hdist hn hf) hlt hd' (by omega)

/-- The loop from the empty bucket to the end of the array. -/
theorem Removing.scan_toEnd (h : Removing T f n e s 0 calls t) :
    ∃ calls' t', removeScan T f n (2 * n) e (calls, t) = .ok (calls', t') ∧
      Removing T f n e s (n - e) calls' t' := by
  have hused := h.allocated.used_lt
  rw [h.count] at hused
  rw [← Nat.zero_add (n - e)]
  refine h.scan le_rfl h.start_lt.le ?_ (by omega)
  intro b hb _
  rw [ringDist, if_pos hb, Nat.zero_add]

/-- The loop from the start of the array to the empty bucket. -/
theorem Removing.scan_fromStart (h : Removing T f n e s (n - e) calls t) :
    ∃ calls' t', removeScan T f e (2 * n) 0 (calls, t) = .ok (calls', t') ∧
      Removing T f n e s n calls' t' := by
  have hused := h.allocated.used_lt
  have he := h.start_lt
  rw [h.count] at hused
  have hround : n - e + (e - 0) = n := Nat.sub_add_cancel he.le
  have hdist : ∀ b, 0 ≤ b → b < e → ringDist n e b = n - e + (b - 0) := by
    intro b _ hb
    rw [ringDist, if_neg (not_le.2 hb)]
    omega
  have hfuel : e - 0 + t.usedNodeCount < 2 * n := by omega
  obtain ⟨calls', t', hscan, h'⟩ := h.scan he.le (Nat.zero_le e) hdist hfuel
  rw [hround] at h'
  exact ⟨calls', t', hscan, h'⟩

/-- After both loops every node has been tested. -/
theorem Removing.finish (h : Removing T f n e s n calls t) :
    FlatHashTable.called calls = s ∧ FlatHashTable.spared calls = t.entries := by
  obtain rfl := h.count
  have hcalled := h.called
  have hspared := h.spared
  rw [contents_unseen_bucketCount h.start_lt, add_zero] at hcalled hspared
  exact ⟨hcalled, hspared⟩

/-! ## The empty bucket -/

theorem iterate_succ_eq (k b : ℕ) : (· + 1)^[k] b = b + k := by
  induction k generalizing b with
  | zero => rfl
  | succ k ih =>
    rw [Function.iterate_succ_apply, ih]
    omega

theorem iterate_pred_eq (k b : ℕ) : (· - 1)^[k] b = b - k := by
  induction k generalizing b with
  | zero => rfl
  | succ k ih =>
    rw [Function.iterate_succ_apply, ih]
    omega

/-- An empty bucket is found, wherever the search begins. -/
theorem firstEmpty_spec (hempty : ∃ b < t.bucketCount, t.nodes b = none)
    (hit : it < t.bucketCount) :
    ∃ e < t.bucketCount, t.firstEmpty it = .ok e ∧ t.nodes e = none := by
  obtain ⟨k, hk, hprobe, hstop⟩ := @probe_iterate (· + 1)
    (fun b ↦ b == t.bucketCount || (t.nodes b).isNone) (t.bucketCount - it) (t.bucketCount + 1) it
    (by omega) (by simp [iterate_succ_eq, Nat.add_sub_of_le hit.le])
  rw [iterate_succ_eq] at hprobe hstop
  rw [firstEmpty, hprobe]
  dsimp only
  by_cases hend : it + k = t.bucketCount
  · obtain ⟨b, hb, hn⟩ := hempty
    obtain ⟨k', hk', hprobe', hstop'⟩ := @probe_iterate (· - 1) (fun b ↦ (t.nodes b).isNone)
      (t.bucketCount - 1 - b) t.bucketCount (t.bucketCount - 1) (by omega)
      (by rw [iterate_pred_eq, Nat.sub_sub_self (by omega), hn]; rfl)
    rw [iterate_pred_eq] at hprobe' hstop'
    refine ⟨t.bucketCount - 1 - k', by omega, ?_, by simpa using hstop'⟩
    rw [if_pos hend, hend, hprobe']
  · refine ⟨it + k, by omega, if_neg hend, ?_⟩
    simpa [hend] using hstop

/-! ## All of it -/

/-- `remove_if` tests every node once and leaves those for which the predicate was false. -/
theorem Models.removeIf {m : K → Option V} (h : Models T t m)
    (hmax : t.bucketCount ≤ maxBucketCount T) (f : Calls K V → K × V → Bool) (random : UInt32) :
    ∃ calls t', t.removeIf T f random = .ok (calls, t') ∧ Answers f calls ∧
      FlatHashTable.called calls = t.entries ∧ t'.entries = FlatHashTable.spared calls ∧
      (∃ m', Models T t' m') ∧ t'.bucketCount ≤ maxBucketCount T := by
  rw [Table.removeIf]
  by_cases h0 : t.usedNodeCount = 0
  · have hent : t.entries = 0 := by
      rcases h.shape with rfl | ha
      · exact contents_none
      · exact Multiset.card_eq_zero.1 (ha.used.symm.trans h0)
    rw [if_pos h0]
    exact ⟨[], t, rfl, trivial, hent.symm, hent, ⟨m, h⟩, hmax⟩
  obtain ⟨b, t₁, hbegin, h₁, hsome, hnode⟩ := h.beginImpl random
  obtain ⟨bucket, rfl⟩ := beginImpl_eq hbegin
  rw [if_neg h0, hbegin]
  cases b with
  | none => simp [h0] at hsome
  | some it =>
    obtain ⟨hit, -⟩ := hnode it rfl
    have ha : Allocated T { t with beginBucket := bucket } := by
      refine h₁.shape.resolve_left fun hinit ↦ h0 ?_
      exact congrArg usedNodeCount hinit
    have hempty : ∃ b < t.bucketCount, t.nodes b = none := ha.exists_empty
    obtain ⟨e, he, hfirst, hnone⟩ :=
      @firstEmpty_spec K V { t with beginBucket := bucket } it hempty hit
    have hstart : Removing T f t.bucketCount e t.entries 0 [] { t with beginBucket := bucket } :=
      { allocated := ha
        count := rfl
        start_lt := he
        start := hnone
        called := by
          rw [unseen_zero]
          exact zero_add _
        spared := by
          rw [unseen_zero]
          exact zero_add _
        answers := trivial }
    obtain ⟨calls₁, t₁, hscan₁, hr₁⟩ := hstart.scan_toEnd
    obtain ⟨calls₂, t₂, hscan₂, hr₂⟩ := hr₁.scan_fromStart
    obtain ⟨hcalled, hspared⟩ := hr₂.finish
    rw [← hr₁.count] at hscan₂
    obtain ⟨m', hm'⟩ := h.represents.of_le (hcalled ▸ spared_le_called calls₂)
    obtain ⟨t', hshrink, h', hent, hmax'⟩ :=
      hr₂.allocated.tryShrink_ok (hspared ▸ hm') (hr₂.count.trans_le hmax)
    refine ⟨calls₂, t', ?_, hr₂.answers, hcalled, hent.trans hspared.symm, ⟨m', h'⟩, hmax'⟩
    simp only [hfirst, hscan₁, hscan₂, hshrink, ok_bind, pure_eq_ok]

end Table

end PxcCore.FlatHashTable
