import Mathlib

/-!
# Neighbours in a list

The elements before and after the one with a given key, in a list whose elements have different
keys, and properties that only the elements at the front of a list have.
-/

namespace PxcCore.Lib

variable {α β : Type*}

/-! ## Neighbours -/

section Neighbours

variable [DecidableEq β] (key : α → β)

/-- The element before the one with this key, where the list goes on from `prev`. -/
def beforeFrom (k : β) : Option α → List α → Option α
  | _, [] => none
  | prev, a :: l => if key a = k then prev else beforeFrom k (some a) l

/-- The element before the one with this key. -/
def before (k : β) (l : List α) : Option α := beforeFrom key k none l

/-- The element after the one with this key. -/
def after (k : β) : List α → Option α
  | [] => none
  | a :: l => if key a = k then l.head? else after k l

variable {key} {l xs ys : List α} {a b : α} {k : β}

theorem exists_append_of_mem_map (hk : k ∈ l.map key) :
    ∃ xs a ys, l = xs ++ a :: ys ∧ key a = k ∧ k ∉ xs.map key := by
  induction l with
  | nil => simp at hk
  | cons b l ih =>
    by_cases hb : key b = k
    · exact ⟨[], b, l, rfl, hb, by simp⟩
    · obtain ⟨xs, a, ys, rfl, ha, hxs⟩ := ih (by simpa [Ne.symm hb] using hk)
      exact ⟨b :: xs, a, ys, rfl, ha, by simpa [Ne.symm hb] using hxs⟩

theorem beforeFrom_append {prev : Option α} (ha : key a = k) (h : k ∉ xs.map key) :
    beforeFrom key k prev (xs ++ a :: ys) = xs.getLast?.or prev := by
  induction xs generalizing prev with
  | nil => simp [beforeFrom, ha]
  | cons x xs ih =>
    rw [List.map_cons, List.mem_cons, not_or] at h
    rw [List.cons_append, beforeFrom, if_neg (Ne.symm h.1), ih h.2]
    cases xs with
    | nil => rfl
    | cons y xs =>
      rw [List.getLast?_cons_cons, List.getLast?_eq_some_getLast (List.cons_ne_nil y xs)]
      rfl

theorem before_append (ha : key a = k) (h : k ∉ xs.map key) :
    before key k (xs ++ a :: ys) = xs.getLast? := by
  rw [before, beforeFrom_append ha h, Option.or_none]

theorem after_append (ha : key a = k) (h : k ∉ xs.map key) :
    after key k (xs ++ a :: ys) = ys.head? := by
  induction xs with
  | nil => simp [after, ha]
  | cons x xs ih =>
    rw [List.map_cons, List.mem_cons, not_or] at h
    rw [List.cons_append, after, if_neg (Ne.symm h.1), ih h.2]

/-- The element after the one before it is the element itself. -/
theorem after_of_before (hn : (l.map key).Nodup) (hk : k ∈ l.map key)
    (hb : before key k l = some b) : ∃ a, after key (key b) l = some a ∧ key a = k := by
  obtain ⟨xs, a, ys, rfl, ha, hxs⟩ := exists_append_of_mem_map hk
  rw [before_append ha hxs] at hb
  obtain ⟨xs, rfl⟩ : ∃ zs, xs = zs ++ [b] := by
    rw [List.getLast?_eq_some_iff] at hb
    exact hb
  refine ⟨a, ?_, ha⟩
  rw [List.append_assoc, List.singleton_append, after_append rfl]
  · rfl
  · rw [List.append_assoc, List.map_append] at hn
    intro hm
    exact (List.nodup_append.1 hn).2.2 _ hm _ (by simp) rfl

theorem mem_of_before (hk : k ∈ l.map key) (hb : before key k l = some b) : b ∈ l := by
  obtain ⟨xs, a, ys, rfl, ha, hxs⟩ := exists_append_of_mem_map hk
  rw [before_append ha hxs] at hb
  exact List.mem_append_left _ (List.mem_of_getLast? hb)

theorem mem_of_after (ha : after key k l = some a) : a ∈ l := by
  induction l with
  | nil => simp [after] at ha
  | cons b l ih =>
    rw [after] at ha
    split_ifs at ha
    · exact List.mem_cons_of_mem _ (List.mem_of_head? ha)
    · exact List.mem_cons_of_mem _ (ih ha)

/-- More elements at the end change nothing. -/
theorem before_append_of_mem (hk : k ∈ xs.map key) (ys : List α) :
    before key k (xs ++ ys) = before key k xs := by
  obtain ⟨zs, a, zs', rfl, ha, hzs⟩ := exists_append_of_mem_map hk
  rw [List.append_assoc, List.cons_append, before_append ha hzs, before_append ha hzs]

/-- The element after one has another key. -/
theorem key_ne_of_after (hn : (l.map key).Nodup) (ha : after key k l = some a) : key a ≠ k := by
  induction l with
  | nil => cases ha
  | cons b l ih =>
    rw [List.map_cons, List.nodup_cons] at hn
    rw [after] at ha
    split_ifs at ha with hb
    · intro hk
      exact hn.1 (hb.trans hk.symm ▸ List.mem_map_of_mem (List.mem_of_head? ha))
    · exact ih hn.2 ha

/-- Taking out another element than the one before changes nothing. -/
theorem before_filter {k' : β} (hk : k ∈ l.map key) (hne : k ≠ k') (hb : before key k l = some b)
    (hb' : key b ≠ k') : before key k (l.filter fun a ↦ key a ≠ k') = some b := by
  obtain ⟨xs, a, ys, rfl, ha, hxs⟩ := exists_append_of_mem_map hk
  rw [before_append ha hxs, List.getLast?_eq_some_iff] at hb
  obtain ⟨zs, rfl⟩ := hb
  rw [List.filter_append, List.filter_append, List.filter_cons_of_pos (by simpa using hb'),
    List.filter_cons_of_pos (by simpa [ha] using hne), List.filter_nil, before_append ha,
    List.getLast?_concat]
  rw [List.map_append, List.mem_append, not_or] at hxs ⊢
  refine ⟨fun hm ↦ hxs.1 ?_, hxs.2⟩
  obtain ⟨z, hz, hk⟩ := List.mem_map.1 hm
  exact List.mem_map.2 ⟨z, (List.mem_filter.1 hz).1, hk⟩

variable {f : α → α} (hf : ∀ a, key (f a) = key a)

include hf in
theorem before_map (k : β) (l : List α) : before key k (l.map f) = (before key k l).map f := by
  have h (prev : Option α) :
      beforeFrom key k (prev.map f) (l.map f) = (beforeFrom key k prev l).map f := by
    induction l generalizing prev with
    | nil => rfl
    | cons a l ih =>
      rw [List.map_cons, beforeFrom, beforeFrom, hf]
      split_ifs
      · rfl
      · exact ih (some a)
  exact h none

end Neighbours

/-! ## Properties of the front -/

/-- An element has the property only if all before it have it. -/
def Leading (P : α → Prop) (l : List α) : Prop := l.Pairwise fun a b ↦ P b → P a

variable {P : α → Prop} {l xs ys : List α} {a b : α}

/-- The elements that have it are a prefix. -/
theorem Leading.filter_prefix [DecidablePred P] (h : Leading P l) : l.filter P <+: l := by
  induction l with
  | nil => exact List.prefix_rfl
  | cons a l ih =>
    obtain ⟨ha, hl⟩ := List.pairwise_cons.1 h
    by_cases hp : P a
    · rw [List.filter_cons_of_pos (by simpa using hp), List.prefix_cons_inj]
      exact ih hl
    · rw [List.filter_eq_nil_iff.2]
      · exact List.nil_prefix
      · intro b hb
        rw [decide_eq_true_eq]
        rcases List.mem_cons.1 hb with rfl | hb
        · exact hp
        · exact fun hpb ↦ hp (ha b hb hpb)

theorem leading_of_not (h : ∀ a ∈ l, ¬P a) : Leading P l :=
  List.pairwise_iff_forall_sublist.2 fun {_ b} hs hp ↦ absurd hp (h b (hs.subset (by simp)))

theorem Leading.append_of_not (h : Leading P xs) (hys : ∀ y ∈ ys, ¬P y) : Leading P (xs ++ ys) :=
  List.pairwise_append.2 ⟨h, leading_of_not hys, fun _ _ y hy hp ↦ absurd hp (hys y hy)⟩

/-- All before an element have it, if the one just before has it. -/
theorem Leading.of_getLast? (h : Leading P (xs ++ ys)) (hl : ∀ p, xs.getLast? = some p → P p) :
    ∀ x ∈ xs, P x := by
  have hxs := (List.pairwise_append.1 h).1
  cases xs using List.reverseRecOn with
  | nil => simp
  | append_singleton xs z =>
    have hz : P z := hl z (by simp)
    intro x hx
    rcases List.mem_append.1 hx with hx | hx
    · exact (List.pairwise_append.1 hxs).2.2 x hx z (by simp) hz
    · rwa [List.mem_singleton.1 hx]

/-- The front can be told by one element. -/
theorem leading_of_split (hxs : ∀ x ∈ xs, P x) (ha : P a) (hys : ∀ y ∈ ys, ¬P y) :
    Leading P (xs ++ a :: ys) := by
  refine List.pairwise_append.2 ⟨?_, List.pairwise_cons.2 ⟨fun _ _ _ ↦ ha, leading_of_not hys⟩, ?_⟩
  · exact List.pairwise_iff_forall_sublist.2 fun {x _} hs _ ↦ hxs x (hs.subset (by simp))
  · exact fun x hx _ _ _ ↦ hxs x hx

theorem Leading.not_of_not (h : Leading P (xs ++ a :: ys)) (ha : ¬P a) : ∀ y ∈ ys, ¬P y :=
  fun y hy hp ↦ ha ((List.pairwise_cons.1 (List.pairwise_append.1 h).2.1).1 y hy hp)

variable [DecidableEq β] {key : α → β}

/-- There is one element at most that does not have it and comes first or after one that has it. -/
theorem Leading.frontier_unique (h : Leading P l) (hn : (l.map key).Nodup) (ha : a ∈ l) (hb : b ∈ l)
    (hpa : ¬P a) (hpb : ¬P b) (hfa : ∀ p, before key (key a) l = some p → P p)
    (hfb : ∀ p, before key (key b) l = some p → P p) : a = b := by
  have hinj := List.inj_on_of_nodup_map hn
  have split {c : α} (hc : c ∈ l) (hfc : ∀ p, before key (key c) l = some p → P p) :
      ∃ xs ys, l = xs ++ c :: ys ∧ ∀ x ∈ xs, P x := by
    obtain ⟨xs, c', ys, rfl, hk, hxs⟩ :=
      exists_append_of_mem_map (List.mem_map_of_mem (f := key) hc)
    obtain rfl := hinj (by simp) hc hk
    rw [before_append rfl hxs] at hfc
    exact ⟨xs, ys, rfl, h.of_getLast? hfc⟩
  obtain ⟨xs, ys, hl, hxs⟩ := split ha hfa
  obtain ⟨xs', ys', hl', hxs'⟩ := split hb hfb
  rcases List.append_eq_append_iff.1 (hl.symm.trans hl') with ⟨zs, rfl, hz⟩ | ⟨zs, rfl, hz⟩
  · cases zs with
    | nil => exact (List.cons.inj hz).1
    | cons z zs =>
      obtain ⟨rfl, -⟩ := List.cons.inj hz
      exact absurd (hxs' a (by simp)) hpa
  · cases zs with
    | nil => exact (List.cons.inj hz).1.symm
    | cons z zs =>
      obtain ⟨rfl, -⟩ := List.cons.inj hz
      exact absurd (hxs b (by simp)) hpb

/-! ## Counting -/

/-- One more element has the property when the one with this key gets it. -/
theorem countP_eq_add_one {p q : α → Bool} {k : β} (hn : (l.map key).Nodup) (hk : k ∈ l.map key)
    (hne : ∀ a ∈ l, key a ≠ k → q a = p a) (heq : ∀ a ∈ l, key a = k → q a = true ∧ p a = false) :
    l.countP q = l.countP p + 1 := by
  obtain ⟨xs, a, ys, rfl, rfl, hxs⟩ := exists_append_of_mem_map hk
  have hys : key a ∉ ys.map key := by
    rw [List.map_append, List.map_cons] at hn
    exact (List.nodup_cons.1 (List.nodup_append.1 hn).2.1).1
  have hcongr {zs : List α} (hz : ∀ z ∈ zs, z ∈ xs ++ a :: ys) (hzs : key a ∉ zs.map key) :
      zs.countP q = zs.countP p := by
    refine List.countP_congr fun z hz' ↦ ?_
    rw [hne z (hz z hz') fun he ↦ hzs (he ▸ List.mem_map_of_mem hz')]
  obtain ⟨hq, hp⟩ := heq a (by simp) rfl
  rw [List.countP_append, List.countP_append, List.countP_cons, List.countP_cons, hq, hp,
    hcongr (fun z hz ↦ by simp [hz]) hxs, hcongr (fun z hz ↦ by simp [hz]) hys]
  simp [Nat.add_assoc]

end PxcCore.Lib
