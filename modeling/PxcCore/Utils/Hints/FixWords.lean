import PxcCore.Utils.Hints.Search

/-!
# The words of a name

`Hints::fix_words`, which leaves out the words that other words begin with.  It compares neighbours
in the sorted list only, and moves the words that it keeps to the front of this list.
-/

namespace PxcCore.Hints

/-! ## Definitions -/

section InPlace

/-! The string that a word is left as when it has been moved from. -/

variable (movedFrom : ℕ → List UInt8)

/-- The loop of `fix_words`, which counts `i` up to `words.size()`. -/
def fixWordsFrom (words : List (List UInt8)) (i newWordsSize : ℕ) : List (List UInt8) × ℕ :=
  if h : i < words.length then
    if i = words.length - 1 ∨ ¬beginsWith (words.getD (i + 1) []) words[i] then
      let words :=
        if i ≠ newWordsSize then (words.set newWordsSize words[i]).set i (movedFrom i) else words
      fixWordsFrom words (i + 1) (newWordsSize + 1)
    else fixWordsFrom words (i + 1) newWordsSize
  else (words, newWordsSize)
termination_by words.length - i
decreasing_by
  · split
    · rw [List.length_set, List.length_set]
      omega
    · omega
  · omega

/-- `Hints::fix_words`, with the words in one vector. -/
def fixWordsInPlace (words : List (List UInt8)) : List (List UInt8) :=
  let (words, newWordsSize) := fixWordsFrom movedFrom (words.insertionSort (· ≤ ·)) 0 0
  let newWordsSize := if newWordsSize = 1 ∧ words.head? = some [] then 0 else newWordsSize
  words.take newWordsSize

end InPlace

variable {words : List (List UInt8)} {word : List UInt8}

/-! ## Neighbours in the sorted list -/

theorem keepWords_sublist (words : List (List UInt8)) : (keepWords words).Sublist words := by
  fun_induction keepWords words with
  | case1 | case2 => exact List.Sublist.refl _
  | case3 word next words _ ih => exact ih.cons word
  | case4 word next words _ ih => exact ih.cons_cons word

theorem keepWords_ascending (hwords : words.Pairwise (· ≤ ·)) :
    (keepWords words).Pairwise (· < ·) := by
  refine ((hwords.sublist (keepWords_sublist words)).and (keepWords_nodup hwords)).imp ?_
  intro word other h
  exact (List.le_iff_lt_or_eq.1 h.1).resolve_right h.2

/-- A word is no prefix of the words before it, other than itself. -/
theorem eq_of_prefix_of_le {word other : List UInt8} (hword : word <+: other)
    (hle : other ≤ word) : other = word :=
  List.le_antisymm hle hword.le

/-- The word is no proper prefix of another one. -/
def Remains (words : List (List UInt8)) (word : List UInt8) : Prop :=
  word ∈ words ∧ ∀ other ∈ words, word <+: other → other = word

/-- Of sorted words those are kept that no other word begins with. -/
theorem mem_keepWords (hwords : words.Pairwise (· ≤ ·)) :
    word ∈ keepWords words ↔ Remains words word := by
  fun_induction keepWords words with
  | case1 => simp [Remains]
  | case2 first => simp +contextual [Remains]
  | case3 first next words hnext ih =>
    obtain ⟨hle, htail⟩ := List.pairwise_cons.1 hwords
    rw [ih htail]
    constructor
    · rintro ⟨hmem, hproper⟩
      refine ⟨List.mem_cons_of_mem _ hmem, fun other hother hword ↦ ?_⟩
      rcases List.mem_cons.1 hother with rfl | hother
      · exact eq_of_prefix_of_le hword (hle word hmem)
      · exact hproper other hother hword
    · rintro ⟨hmem, hproper⟩
      refine ⟨?_, fun other hother ↦ hproper other (List.mem_cons_of_mem _ hother)⟩
      rcases List.mem_cons.1 hmem with rfl | hmem
      · have heq := hproper next (by simp) (beginsWith_iff.1 hnext)
        exact heq ▸ List.mem_cons_self
      · exact hmem
  | case4 first next words hnext ih =>
    obtain ⟨hle, htail⟩ := List.pairwise_cons.1 hwords
    rw [List.mem_cons, ih htail]
    constructor
    · rintro (rfl | ⟨hmem, hproper⟩)
      · refine ⟨List.mem_cons_self, fun other hother hword ↦ ?_⟩
        rcases List.mem_cons.1 hother with rfl | hother
        · rfl
        · -- The next word is between this one and the other one.
          have hbetween : next ≤ other := by
            rcases List.mem_cons.1 hother with rfl | hother
            · exact List.le_refl _
            · exact (List.pairwise_cons.1 htail).1 other hother
          exact absurd (beginsWith_iff.2 (prefix_of_between (hle next (by simp)) hbetween hword))
            hnext
      · refine ⟨List.mem_cons_of_mem _ hmem, fun other hother hword ↦ ?_⟩
        rcases List.mem_cons.1 hother with rfl | hother
        · exact eq_of_prefix_of_le hword (hle word hmem)
        · exact hproper other hother hword
    · rintro ⟨hmem, hproper⟩
      refine (List.mem_cons.1 hmem).imp_right fun hmem ↦ ⟨hmem, fun other hother ↦ ?_⟩
      exact hproper other (List.mem_cons_of_mem _ hother)

/-! ## The words in one vector -/

/-- A word is kept if it is the last one or the next one does not begin with it. -/
theorem keepWords_drop {i : ℕ} (hi : i < words.length) : keepWords (words.drop i) =
    if i = words.length - 1 ∨ ¬beginsWith (words.getD (i + 1) []) words[i] then
      words[i] :: keepWords (words.drop (i + 1))
    else keepWords (words.drop (i + 1)) := by
  rw [List.drop_eq_getElem_cons hi]
  by_cases hlast : i = words.length - 1
  · rw [if_pos (.inl hlast), List.drop_eq_nil_of_le (by omega)]
    rfl
  · have hnext : i + 1 < words.length := by omega
    have hget : words.getD (i + 1) [] = words[i + 1] :=
      (List.getElem_eq_getD []).symm
    rw [List.drop_eq_getElem_cons hnext, keepWords, hget]
    by_cases hbegins : beginsWith words[i + 1] words[i]
    · rw [if_pos hbegins, if_neg (by simp [hlast, hbegins])]
    · rw [if_neg hbegins, if_pos (.inr hbegins)]

/-- The words before `newWordsSize` are kept, and those from `i` on are as they were. -/
theorem take_fixWordsFrom (movedFrom : ℕ → List UInt8) (words : List (List UInt8))
    (i newWordsSize : ℕ) (h : newWordsSize ≤ i) :
    (fixWordsFrom movedFrom words i newWordsSize).1.take
        (fixWordsFrom movedFrom words i newWordsSize).2 =
      words.take newWordsSize ++ keepWords (words.drop i) := by
  fun_induction fixWordsFrom movedFrom words i newWordsSize with
  | case1 words i newWordsSize hi hkeep words' ih =>
    have hdrop : words'.drop (i + 1) = words.drop (i + 1) := by
      dsimp only [words']
      split_ifs with hne
      · rw [List.drop_set_of_lt (by omega), List.drop_set_of_lt (by omega)]
      · rfl
    have htake : words'.take (newWordsSize + 1) = words.take newWordsSize ++ [words[i]] := by
      dsimp only [words']
      split_ifs with hne
      · rw [List.take_set_of_le (by omega), List.take_succ_eq_append_getElem (by simp; omega),
          List.take_set_of_le le_rfl, List.getElem_set_self]
      · obtain rfl : i = newWordsSize := not_not.1 hne
        exact List.take_succ_eq_append_getElem hi
    rw [ih (by omega), htake, hdrop, keepWords_drop hi, if_pos hkeep, List.append_assoc]
    rfl
  | case2 words i newWordsSize hi hdrop ih =>
    rw [ih (by omega), keepWords_drop hi, if_neg hdrop]
  | case3 words i newWordsSize hi =>
    rw [List.drop_eq_nil_of_le (by omega), keepWords, List.append_nil]

theorem fixWordsFrom_le (movedFrom : ℕ → List UInt8) (words : List (List UInt8))
    (i newWordsSize : ℕ) (h : newWordsSize ≤ i)
    (hi : i ≤ words.length) : (fixWordsFrom movedFrom words i newWordsSize).2 ≤
      (fixWordsFrom movedFrom words i newWordsSize).1.length := by
  fun_induction fixWordsFrom movedFrom words i newWordsSize with
  | case1 words i newWordsSize hlt _ words' ih =>
    have hlength : words'.length = words.length := by
      dsimp only [words']
      split_ifs <;> simp
    exact ih (by omega) (by omega)
  | case2 words i newWordsSize hlt _ ih => exact ih (by omega) hlt
  | case3 words i newWordsSize => exact h.trans hi

/-- The words that are kept are not read again where they were. -/
theorem fixWordsInPlace_eq (movedFrom : ℕ → List UInt8) (words : List (List UInt8)) :
    fixWordsInPlace movedFrom words = fixWords words := by
  have htake := take_fixWordsFrom movedFrom (words.insertionSort (· ≤ ·)) 0 0 le_rfl
  have hle := fixWordsFrom_le movedFrom (words.insertionSort (· ≤ ·)) 0 0 le_rfl
    (Nat.zero_le _)
  rw [List.take_zero, List.drop_zero, List.nil_append] at htake
  rw [fixWordsInPlace, fixWords, ← htake]
  generalize fixWordsFrom movedFrom (words.insertionSort (· ≤ ·)) 0 0 = result at hle
  obtain ⟨kept, newWordsSize⟩ := result
  have hiff : (newWordsSize = 1 ∧ kept.head? = some []) ↔ kept.take newWordsSize = [[]] := by
    have hlength : (kept.take newWordsSize).length = newWordsSize := List.length_take_of_le hle
    constructor
    · rintro ⟨rfl, hhead⟩
      rw [List.take_one, hhead]
      rfl
    · intro heq
      rw [heq] at hlength
      obtain rfl : newWordsSize = 1 := hlength.symm
      rw [List.take_one] at heq
      cases hhead : kept.head? with
      | none => simp [hhead] at heq
      | some word => simpa [hhead] using heq
  simp only [hiff]
  split_ifs
  · exact List.take_zero
  · rfl

/-- `fix_words` returns the words that are no proper prefixes of others, in ascending order, and no
words if this is the empty word only. -/
theorem fixWordsInPlace_spec (movedFrom : ℕ → List UInt8) (words : List (List UInt8)) :
    (fixWordsInPlace movedFrom words).Pairwise (· < ·) ∧
      ((∀ word, Remains words word ↔ word = []) → fixWordsInPlace movedFrom words = []) ∧
      ((¬∀ word, Remains words word ↔ word = []) →
        ∀ word, word ∈ fixWordsInPlace movedFrom words ↔ Remains words word) := by
  have hsorted : (words.insertionSort (· ≤ ·)).Pairwise (· ≤ ·) := List.pairwise_insertionSort _ _
  have hascending := keepWords_ascending hsorted
  have hmem (word : List UInt8) :
      word ∈ keepWords (words.insertionSort (· ≤ ·)) ↔ Remains words word := by
    rw [mem_keepWords hsorted]
    simp only [Remains, List.mem_insertionSort]
  have hempty : keepWords (words.insertionSort (· ≤ ·)) = [[]] ↔
      ∀ word, Remains words word ↔ word = [] := by
    constructor
    · intro h word
      rw [← hmem, h, List.mem_singleton]
    · intro h
      refine List.perm_singleton.1 ((List.perm_ext_iff_of_nodup (keepWords_nodup hsorted)
        (List.nodup_singleton [])).2 fun word ↦ ?_)
      rw [hmem, h, List.mem_singleton]
  rw [fixWordsInPlace_eq, fixWords]
  refine ⟨?_, fun h ↦ if_pos (hempty.2 h), fun h word ↦ ?_⟩
  · split_ifs
    · exact List.Pairwise.nil
    · exact hascending
  · rw [if_neg fun hkept ↦ h (hempty.1 hkept)]
    exact hmem word

end PxcCore.Hints
