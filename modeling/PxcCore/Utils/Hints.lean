import PxcCore.Lib.KeyLists
import PxcCore.Lib.ListUpdate
import PxcCore.Lib.Result

/-!
# Hints

`Hints.cpp`: names, with an index of their words and one of the transliterations of the words.
-/

namespace PxcCore

open Lib

namespace Hints

/-! ## Definitions -/

abbrev KeyT := Int64

abbrev RatingT := Int64

/-- `std::map<string, vector<KeyT>>` -/
abbrev Index := AList fun _ : List UInt8 ↦ List KeyT

/-- `begins_with` -/
def beginsWith (str pref : List UInt8) : Bool := pref.isPrefixOf str

/-- The loop of `fix_words`, which keeps a word unless the next one begins with it. -/
def keepWords : List (List UInt8) → List (List UInt8)
  | [] => []
  | [word] => [word]
  | word :: next :: words =>
    if beginsWith next word then keepWords (next :: words)
    else word :: keepWords (next :: words)

/-- `Hints::fix_words` -/
def fixWords (words : List (List UInt8)) : List (List UInt8) :=
  let words := keepWords (words.insertionSort (· ≤ ·))
  if words = [[]] then [] else words

/-- `Hints::add_word` -/
def addWord (word : List UInt8) (key : KeyT) (wordToKeys : Index) : Except String Index :=
  let keys := keysOf wordToKeys word
  if key ∈ keys then .error "CHECK(!pxc::contains(keys, key))"
  else .ok (wordToKeys.insert word (keys ++ [key]))

/-- `Hints::delete_word` -/
def deleteWord (word : List UInt8) (key : KeyT) (wordToKeys : Index) : Except String Index :=
  let keys := keysOf wordToKeys word
  if key ∉ keys then .error "CHECK(key_it != keys.end())"
  else if keys.length = 1 then .ok (wordToKeys.erase word)
  else if ¬ keys.length > 1 then .error "CHECK(keys.size() > 1)"
  else .ok (wordToKeys.insert word
    (keys.set (keys.idxOf key) (keys.getLastD key)).dropLast)

end Hints

/-- The two indices, and the names and ratings of the keys. -/
structure Hints where
  wordToKeys : Hints.Index := ∅
  translitWordToKeys : Hints.Index := ∅
  keyToName : AList fun _ : Hints.KeyT ↦ List UInt8 := ∅
  keyToRating : AList fun _ : Hints.KeyT ↦ Hints.RatingT := ∅

namespace Hints

/-- What changes hints. -/
inductive Op where
  | add (key : KeyT) (name : List UInt8)
  | remove (key : KeyT)
  | setRating (key : KeyT) (rating : RatingT)

section Words

/-! The two functions that split a name into words and give the transliterations of a word. -/

variable (utf8GetSearchWords : List UInt8 → List (List UInt8))
  (getWordTransliterations : List UInt8 → Bool → List (List UInt8))

/-- `Hints::get_words` -/
def getWords (name : List UInt8) : List (List UInt8) := fixWords (utf8GetSearchWords name)

/-- The loops of `add` over the words of a name: each word is added or deleted, and its
transliterations other than itself are collected. -/
def forWords (change : List UInt8 → Index → Except String Index) :
    List (List UInt8) → Index → Except String (Index × List (List UInt8))
  | [], wordToKeys => .ok (wordToKeys, [])
  | word :: words, wordToKeys => do
    let wordToKeys ← change word wordToKeys
    let (wordToKeys, transliterations) ← forWords change words wordToKeys
    return (wordToKeys, (getWordTransliterations word false).filter (· ≠ word) ++ transliterations)

/-- The part of `add` that deletes the words of the old name. -/
def deleteOldName (key : KeyT) (oldName : List UInt8) (hints : Hints) : Except String Hints := do
  let (wordToKeys, oldTransliterations) ← forWords getWordTransliterations
    (deleteWord · key) (getWords utf8GetSearchWords oldName) hints.wordToKeys
  let translitWordToKeys ← (fixWords oldTransliterations).foldlM
    (fun index word ↦ deleteWord word key index) hints.translitWordToKeys
  return { hints with wordToKeys, translitWordToKeys }

/-- The part of `add` for a key that may have a name. -/
def deleteName (key : KeyT) (hints : Hints) : Except String Hints :=
  match hints.keyToName.lookup key with
  | some oldName => deleteOldName utf8GetSearchWords getWordTransliterations key oldName hints
  | none => return hints

/-- The part of `add` that adds the words of the new name. -/
def addName (key : KeyT) (name : List UInt8) (hints : Hints) : Except String Hints := do
  let (wordToKeys, transliterations) ← forWords getWordTransliterations
    (addWord · key) (getWords utf8GetSearchWords name) hints.wordToKeys
  let translitWordToKeys ← (fixWords transliterations).foldlM
    (fun index word ↦ addWord word key index) hints.translitWordToKeys
  return { hints with
    wordToKeys, translitWordToKeys, keyToName := hints.keyToName.insert key name }

/-- `Hints::add` -/
def add (key : KeyT) (name : List UInt8) (hints : Hints) : Except String Hints := do
  if hints.keyToName.lookup key = some name then return hints
  let hints ← deleteName utf8GetSearchWords getWordTransliterations key hints
  if name = [] then
    return { hints with
      keyToName := hints.keyToName.erase key, keyToRating := hints.keyToRating.erase key }
  addName utf8GetSearchWords getWordTransliterations key name hints

/-- `Hints::remove` -/
def remove (key : KeyT) (hints : Hints) : Except String Hints :=
  add utf8GetSearchWords getWordTransliterations key [] hints

/-- `Hints::set_rating` -/
def setRating (key : KeyT) (rating : RatingT) (hints : Hints) : Hints :=
  { hints with keyToRating := hints.keyToRating.insert key rating }

def step (hints : Hints) : Op → Except String Hints
  | .add key name => add utf8GetSearchWords getWordTransliterations key name hints
  | .remove key => remove utf8GetSearchWords getWordTransliterations key hints
  | .setRating key rating => .ok (setRating key rating hints)

end Words

/-! ## Words -/

variable {words : List (List UInt8)} {word : List UInt8} {key : KeyT} {index : Index}
  {r : List UInt8 → KeyT → Prop} {name : List UInt8}

theorem keepWords_subset (words : List (List UInt8)) : keepWords words ⊆ words := by
  fun_induction keepWords words with
  | case1 | case2 => exact List.Subset.refl _
  | case3 word next words _ ih => exact List.subset_cons_of_subset _ ih
  | case4 word next words _ ih => exact List.cons_subset_cons _ ih

/-- Of sorted words no two that are kept are equal: a word that is kept is not at the beginning of
the next one. -/
theorem keepWords_nodup (hwords : words.Pairwise (· ≤ ·)) : (keepWords words).Nodup := by
  fun_induction keepWords words with
  | case1 => exact List.nodup_nil
  | case2 word => exact List.nodup_singleton word
  | case3 word next words _ ih => exact ih hwords.tail
  | case4 word next words hnext ih =>
    refine List.nodup_cons.2 ⟨fun hmem ↦ ?_, ih hwords.tail⟩
    obtain ⟨hle, hwords⟩ := List.pairwise_cons.1 hwords
    rcases List.mem_cons.1 (keepWords_subset _ hmem) with rfl | hmem
    · simp [beginsWith] at hnext
    · have heq : word = next :=
        List.le_antisymm (hle next (by simp)) ((List.pairwise_cons.1 hwords).1 word hmem)
      simp [beginsWith, heq] at hnext

theorem fixWords_nodup (words : List (List UInt8)) : (fixWords words).Nodup := by
  rw [fixWords]
  split_ifs
  · exact List.nodup_nil
  · exact keepWords_nodup (List.pairwise_insertionSort _ _)

/-! ## One word -/

/-- A key is listed under a word that it is not listed under yet. -/
theorem addWord_spec (h : ListsKeys index r) (hnew : ¬r word key) :
    ∃ index', addWord word key index = .ok index' ∧
      ListsKeys index' fun w k ↦ r w k ∨ w = word ∧ k = key := by
  have hmem : key ∉ keysOf index word := fun hmem ↦ hnew ((h.mem word key).1 hmem)
  refine ⟨_, if_neg hmem, h.insert (by simp) ?_ ?_ ?_⟩
  · exact List.nodup_append.2 ⟨h.nodup word, List.nodup_singleton key, by
      rintro a ha _ hb rfl
      exact hmem (List.mem_singleton.1 hb ▸ ha)⟩
  · intro k
    rw [List.mem_append, List.mem_singleton, h.mem]
    simp
  · intro w hw k
    simp [hw]

/-- A key is not listed any more under a word that it was listed under. -/
theorem deleteWord_spec (h : ListsKeys index r) (hold : r word key) :
    ∃ index', deleteWord word key index = .ok index' ∧
      ListsKeys index' fun w k ↦ r w k ∧ ¬(w = word ∧ k = key) := by
  have hmem : key ∈ keysOf index word := (h.mem word key).2 hold
  have hother : ∀ w ≠ word, ∀ k, r w k ↔ r w k ∧ ¬(w = word ∧ k = key) := by
    intro w hw k
    simp [hw]
  rw [deleteWord, if_neg (not_not.2 hmem)]
  by_cases hone : (keysOf index word).length = 1
  · rw [if_pos hone]
    refine ⟨_, rfl, h.erase (fun k hk ↦ hk.2 ⟨rfl, ?_⟩) hother⟩
    obtain ⟨a, ha⟩ := List.length_eq_one_iff.1 hone
    have hk := (h.mem word k).2 hk.1
    rw [ha, List.mem_singleton] at hmem hk
    exact hk.trans hmem.symm
  · have hlength : (keysOf index word).length > 1 := by
      have := List.length_pos_of_mem hmem
      omega
    rw [if_neg hone, if_neg (not_not.2 hlength)]
    have hperm : (keysOf index word).Perm (key :: ((keysOf index word).set
        ((keysOf index word).idxOf key) ((keysOf index word).getLastD key)).dropLast) := by
      refine perm_cons_set_dropLast ?_ ?_
      · rw [List.getElem?_eq_getElem (List.idxOf_lt_length_iff.2 hmem), List.getElem_idxOf]
      · rw [List.getLastD_eq_getLast?]
        cases hlast : (keysOf index word).getLast? with
        | none => simp [List.getLast?_eq_none_iff.1 hlast] at hmem
        | some last => rfl
    have hnodup := List.nodup_cons.1 (hperm.nodup_iff.1 (h.nodup word))
    refine ⟨_, rfl, h.insert ?_ hnodup.2 (fun k ↦ ?_) hother⟩
    · apply List.ne_nil_of_length_pos
      have := hperm.length_eq
      rw [List.length_cons] at this
      omega
    · have hk := hperm.mem_iff (a := k)
      rw [List.mem_cons, h.mem] at hk
      rw [hk]
      constructor
      · intro hin
        refine ⟨.inr hin, ?_⟩
        rintro ⟨-, heq⟩
        exact hnodup.1 (heq ▸ hin)
      · rintro ⟨heq | hin, hne⟩
        · exact absurd ⟨rfl, heq⟩ hne
        · exact hin

/-! ## The words of a name -/

/-- Adding words that the key is not listed under. -/
theorem addWords_spec (hwords : words.Nodup) (h : ListsKeys index r)
    (hnew : ∀ word ∈ words, ¬r word key) :
    ∃ index', words.foldlM (fun index word ↦ addWord word key index) index = .ok index' ∧
      ListsKeys index' fun w k ↦ r w k ∨ w ∈ words ∧ k = key := by
  induction words generalizing index r with
  | nil => exact ⟨index, rfl, h.congr (by simp)⟩
  | cons word words ih =>
    obtain ⟨hword, hwords⟩ := List.nodup_cons.1 hwords
    obtain ⟨index₁, hadd, h₁⟩ := addWord_spec h (hnew word (by simp))
    obtain ⟨index', hrest, h'⟩ := ih hwords h₁ (by
      rintro w hw (hr | ⟨rfl, -⟩)
      · exact hnew w (List.mem_cons_of_mem _ hw) hr
      · exact hword hw)
    refine ⟨index', by rw [List.foldlM_cons, hadd, ok_bind, hrest], h'.congr fun w k ↦ ?_⟩
    rw [List.mem_cons, or_and_right, or_assoc]

/-- Deleting words that the key is listed under. -/
theorem deleteWords_spec (hwords : words.Nodup) (h : ListsKeys index r)
    (hold : ∀ word ∈ words, r word key) :
    ∃ index', words.foldlM (fun index word ↦ deleteWord word key index) index = .ok index' ∧
      ListsKeys index' fun w k ↦ r w k ∧ ¬(w ∈ words ∧ k = key) := by
  induction words generalizing index r with
  | nil => exact ⟨index, rfl, h.congr (by simp)⟩
  | cons word words ih =>
    obtain ⟨hword, hwords⟩ := List.nodup_cons.1 hwords
    obtain ⟨index₁, hdelete, h₁⟩ := deleteWord_spec h (hold word (by simp))
    obtain ⟨index', hrest, h'⟩ := ih hwords h₁ (by
      refine fun w hw ↦ ⟨hold w (List.mem_cons_of_mem _ hw), ?_⟩
      rintro ⟨rfl, -⟩
      exact hword hw)
    refine ⟨index', by rw [List.foldlM_cons, hdelete, ok_bind, hrest], h'.congr fun w k ↦ ?_⟩
    rw [List.mem_cons, or_and_right, not_or, and_assoc]

/-- The words of the names that keys have. -/
def wordsOf (wordsOfName : List UInt8 → List (List UInt8)) (names : KeyT → Option (List UInt8))
    (word : List UInt8) (key : KeyT) : Prop :=
  ∃ name, names key = some name ∧ word ∈ wordsOfName name

variable {wordsOfName : List UInt8 → List (List UInt8)} {names : KeyT → Option (List UInt8)}

/-- The words of a new name are added. -/
theorem addWords_wordsOf (hwords : (wordsOfName name).Nodup)
    (h : ListsKeys index (wordsOf wordsOfName names)) (hnew : names key = none) :
    ∃ index', (wordsOfName name).foldlM (fun index word ↦ addWord word key index) index =
      .ok index' ∧
      ListsKeys index' (wordsOf wordsOfName (Function.update names key (some name))) := by
  have hnone : ∀ word ∈ wordsOfName name, ¬wordsOf wordsOfName names word key := by
    rintro word - ⟨name', hname', -⟩
    simp [hnew] at hname'
  obtain ⟨index', hadd, h'⟩ := addWords_spec hwords h hnone
  refine ⟨index', hadd, h'.congr fun w k ↦ ?_⟩
  by_cases hk : k = key
  · simp [wordsOf, hk, hnew]
  · simp [wordsOf, hk]

/-- The words of the old name are deleted. -/
theorem deleteWords_wordsOf (hwords : (wordsOfName name).Nodup)
    (h : ListsKeys index (wordsOf wordsOfName names)) (hold : names key = some name) :
    ∃ index', (wordsOfName name).foldlM (fun index word ↦ deleteWord word key index) index =
      .ok index' ∧ ListsKeys index' (wordsOf wordsOfName (Function.update names key none)) := by
  obtain ⟨index', hdelete, h'⟩ := deleteWords_spec hwords h fun word hword ↦ ⟨name, hold, hword⟩
  refine ⟨index', hdelete, h'.congr fun w k ↦ ?_⟩
  by_cases hk : k = key
  · simp [wordsOf, hk, hold]
  · simp [wordsOf, hk]

/-! ## Runs -/

section Runs

variable {utf8GetSearchWords : List UInt8 → List (List UInt8)}
  {getWordTransliterations : List UInt8 → Bool → List (List UInt8)} {hints : Hints}

variable (utf8GetSearchWords getWordTransliterations) in
/-- The transliterations that a name is found under: those of its words that differ from the word
they come from. -/
def translitWords (name : List UInt8) : List (List UInt8) :=
  fixWords ((getWords utf8GetSearchWords name).flatMap fun word ↦
    (getWordTransliterations word false).filter (· ≠ word))

/-- The loop does the changes in their order and collects the transliterations. -/
theorem forWords_eq (change : List UInt8 → Index → Except String Index)
    (words : List (List UInt8)) (index : Index) :
    forWords getWordTransliterations change words index = (do
      let index ← words.foldlM (fun index word ↦ change word index) index
      return (index, words.flatMap fun word ↦
        (getWordTransliterations word false).filter (· ≠ word))) := by
  induction words generalizing index with
  | nil => rfl
  | cons word words ih =>
    rw [forWords, List.foldlM_cons, bind_assoc]
    congr 1
    funext index
    rw [ih]
    simp only [bind_assoc, pure_bind, List.flatMap_cons]

variable (utf8GetSearchWords getWordTransliterations) in
/-- Both indices are those of these names. -/
structure Indexed (hints : Hints) (names : KeyT → Option (List UInt8)) : Prop where
  words : ListsKeys hints.wordToKeys (wordsOf (getWords utf8GetSearchWords) names)
  transliterations : ListsKeys hints.translitWordToKeys
    (wordsOf (translitWords utf8GetSearchWords getWordTransliterations) names)

variable (utf8GetSearchWords getWordTransliterations) in
/-- The names are these, none of them is empty, and both indices are exact. -/
structure Models (hints : Hints) (names : KeyT → Option (List UInt8)) : Prop extends
    Indexed utf8GetSearchWords getWordTransliterations hints names where
  lookup : ∀ key, hints.keyToName.lookup key = names key
  nonempty : ∀ key, names key ≠ some []

theorem Models.init :
    Models utf8GetSearchWords getWordTransliterations {} fun _ ↦ none where
  words := ListsKeys.empty.congr (by simp [wordsOf])
  transliterations := ListsKeys.empty.congr (by simp [wordsOf])
  lookup _ := rfl
  nonempty := by simp

/-- Deleting the words of the old name. -/
theorem deleteOldName_spec (h : Indexed utf8GetSearchWords getWordTransliterations hints names)
    (hold : names key = some name) :
    ∃ hints', deleteOldName utf8GetSearchWords getWordTransliterations key name hints =
      .ok hints' ∧
      Indexed utf8GetSearchWords getWordTransliterations hints' (Function.update names key none) ∧
      hints'.keyToName = hints.keyToName := by
  obtain ⟨index₁, hdelete₁, h₁⟩ := deleteWords_wordsOf
    (show (getWords utf8GetSearchWords name).Nodup from fixWords_nodup _) h.words hold
  obtain ⟨index₂, hdelete₂, h₂⟩ := deleteWords_wordsOf
    (show (translitWords utf8GetSearchWords getWordTransliterations name).Nodup from
      fixWords_nodup _) h.transliterations hold
  rw [translitWords] at hdelete₂
  refine ⟨{ hints with wordToKeys := index₁, translitWordToKeys := index₂ }, ?_, ⟨h₁, h₂⟩, rfl⟩
  simp only [deleteOldName, forWords_eq, hdelete₁, ok_bind, pure_eq_ok, hdelete₂]

/-- Afterwards the key is in neither index, whether it had a name or not. -/
theorem deleteName_spec (h : Models utf8GetSearchWords getWordTransliterations hints names)
    (key : KeyT) :
    ∃ hints', deleteName utf8GetSearchWords getWordTransliterations key hints = .ok hints' ∧
      Indexed utf8GetSearchWords getWordTransliterations hints' (Function.update names key none) ∧
      hints'.keyToName = hints.keyToName := by
  rw [deleteName, h.lookup]
  cases hold : names key with
  | none =>
    have hnone : Function.update names key none = names := by rw [← hold, Function.update_eq_self]
    refine ⟨hints, rfl, ?_, rfl⟩
    rw [hnone]
    exact h.toIndexed
  | some oldName => exact deleteOldName_spec h.toIndexed hold

/-- Adding the words of the new name. -/
theorem addName_spec (h : Indexed utf8GetSearchWords getWordTransliterations hints names)
    (hnew : names key = none) :
    ∃ hints', addName utf8GetSearchWords getWordTransliterations key name hints = .ok hints' ∧
      Indexed utf8GetSearchWords getWordTransliterations hints'
        (Function.update names key (some name)) ∧
      hints'.keyToName = hints.keyToName.insert key name := by
  obtain ⟨index₁, hadd₁, h₁⟩ := addWords_wordsOf
    (show (getWords utf8GetSearchWords name).Nodup from fixWords_nodup _) h.words hnew
  obtain ⟨index₂, hadd₂, h₂⟩ := addWords_wordsOf
    (show (translitWords utf8GetSearchWords getWordTransliterations name).Nodup from
      fixWords_nodup _) h.transliterations hnew
  rw [translitWords] at hadd₂
  refine ⟨{ hints with
    wordToKeys := index₁, translitWordToKeys := index₂,
    keyToName := hints.keyToName.insert key name }, ?_, ⟨h₁, h₂⟩, rfl⟩
  simp only [addName, forWords_eq, hadd₁, ok_bind, pure_eq_ok, hadd₂]

/-- The names after an operation: the empty name is no name. -/
def rename (names : KeyT → Option (List UInt8)) : Op → KeyT → Option (List UInt8)
  | .add key name => Function.update names key (if name = [] then none else some name)
  | .remove key => Function.update names key none
  | .setRating _ _ => names

/-- `add` gives the key its new name, and no check fails. -/
theorem add_spec (h : Models utf8GetSearchWords getWordTransliterations hints names)
    (key : KeyT) (name : List UInt8) :
    ∃ hints', add utf8GetSearchWords getWordTransliterations key name hints = .ok hints' ∧
      Models utf8GetSearchWords getWordTransliterations hints'
        (rename names (.add key name)) := by
  rw [rename, add]
  by_cases hsame : names key = some name
  · have hname : name ≠ [] := fun hname ↦ h.nonempty key (hname ▸ hsame)
    refine ⟨hints, if_pos ((h.lookup key).trans hsame), ?_⟩
    rwa [if_neg hname, ← hsame, Function.update_eq_self]
  · obtain ⟨hints₁, hdelete, hindexed, hnames⟩ := deleteName_spec h key
    rw [if_neg (by rwa [h.lookup]), hdelete, ok_bind]
    by_cases hname : name = []
    · rw [if_pos hname, if_pos hname]
      refine ⟨_, rfl, ⟨hindexed.words, hindexed.transliterations⟩, fun k ↦ ?_, fun k ↦ ?_⟩
      · by_cases hk : k = key
        · subst hk
          simp
        · simp [hk, hnames, h.lookup]
      · by_cases hk : k = key
        · simp [hk]
        · simpa [hk] using h.nonempty k
    · rw [if_neg hname, if_neg hname]
      obtain ⟨hints', hadd, hindexed', hnames'⟩ := addName_spec hindexed
        (Function.update_self _ _ _)
      rw [Function.update_idem] at hindexed'
      refine ⟨hints', hadd, hindexed', fun k ↦ ?_, fun k ↦ ?_⟩
      · by_cases hk : k = key
        · subst hk
          simp [hnames']
        · simp [hk, hnames', hnames, h.lookup]
      · by_cases hk : k = key
        · simpa [hk] using hname
        · simpa [hk] using h.nonempty k

/-- Every operation returns, and keeps both indices exact. -/
theorem step_spec (h : Models utf8GetSearchWords getWordTransliterations hints names) (op : Op) :
    ∃ hints', step utf8GetSearchWords getWordTransliterations hints op = .ok hints' ∧
      Models utf8GetSearchWords getWordTransliterations hints' (rename names op) := by
  cases op with
  | add key name => exact add_spec h key name
  | remove key => exact add_spec h key []
  | setRating key rating =>
    exact ⟨_, rfl, ⟨h.words, h.transliterations⟩, h.lookup, h.nonempty⟩

/-- What one operation keeps is kept by a run. -/
theorem run_spec (ops : List Op)
    (h : Models utf8GetSearchWords getWordTransliterations hints names) :
    ∃ hints', ops.foldlM (step utf8GetSearchWords getWordTransliterations) hints = .ok hints' ∧
      Models utf8GetSearchWords getWordTransliterations hints' (ops.foldl rename names) := by
  induction ops generalizing hints names with
  | nil => exact ⟨hints, rfl, h⟩
  | cons op ops ih =>
    obtain ⟨hints₁, hstep, h₁⟩ := step_spec h op
    obtain ⟨hints', hops, h'⟩ := ih h₁
    exact ⟨hints', by rw [List.foldlM_cons, hstep, ok_bind, hops], h'⟩

/-- Whatever is added, renamed, removed and rated, no check fails and both indices are exact: a key
is listed under the words of the name it was given last and under their transliterations, once,
and no word is left without keys. -/
theorem run_exact (utf8GetSearchWords : List UInt8 → List (List UInt8))
    (getWordTransliterations : List UInt8 → Bool → List (List UInt8)) (ops : List Op) :
    ∃ hints, ops.foldlM (step utf8GetSearchWords getWordTransliterations) {} = .ok hints ∧
      (∀ key, hints.keyToName.lookup key = ops.foldl rename (fun _ ↦ none) key) ∧
      ListsKeys hints.wordToKeys (fun word key ↦ ∃ name,
        hints.keyToName.lookup key = some name ∧ word ∈ getWords utf8GetSearchWords name) ∧
      ListsKeys hints.translitWordToKeys (fun word key ↦ ∃ name,
        hints.keyToName.lookup key = some name ∧
          word ∈ translitWords utf8GetSearchWords getWordTransliterations name) := by
  obtain ⟨hints, hrun, h⟩ := run_spec ops Models.init
  refine ⟨hints, hrun, h.lookup, ?_, ?_⟩
  · simp only [h.lookup]
    exact h.words
  · simp only [h.lookup]
    exact h.transliterations

end Runs

end Hints

end PxcCore
