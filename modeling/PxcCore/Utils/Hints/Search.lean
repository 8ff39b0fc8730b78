import PxcCore.Lib.SortedLists
import PxcCore.Utils.Hints

/-!
# Searching in hints

`Hints::search`: the keys that match every word of a query, in the order of their ratings.
-/

namespace PxcCore.Hints

open Lib SortedLists

/-! ## Definitions -/

/-- The entries of a `std::map` in their order. -/
def inOrder (wordToKeys : Index) : List (Sigma fun _ : List UInt8 ↦ List KeyT) :=
  wordToKeys.entries.insertionSort (·.1 ≤ ·.1)

/-- `Hints::add_search_results` -/
def addSearchResults (results : List KeyT) (word : List UInt8) (wordToKeys : Index) : List KeyT :=
  let it := (inOrder wordToKeys).dropWhile (·.1 < word)
  results ++ (it.takeWhile (beginsWith ·.1 word)).flatMap (·.2)

/-- `pxc::unique`, which keeps an element unless it equals the one kept last. -/
def unique (v : List KeyT) : List KeyT := (v.insertionSort (· ≤ ·)).destutter (· ≠ ·)

/-- The loop of `search` that intersects two lists in the place of the first one. -/
def intersect (results keys : List KeyT) (resultsPos keysPos newResultsSize : ℕ) : List KeyT :=
  if h : resultsPos < results.length ∧ keysPos < keys.length then
    if results[resultsPos] < keys[keysPos] then
      intersect results keys (resultsPos + 1) keysPos newResultsSize
    else if results[resultsPos] > keys[keysPos] then
      intersect results keys resultsPos (keysPos + 1) newResultsSize
    else
      intersect (results.set newResultsSize results[resultsPos]) keys (resultsPos + 1)
        (keysPos + 1) (newResultsSize + 1)
  else results.take newResultsSize
termination_by results.length - resultsPos + (keys.length - keysPos)
decreasing_by
  all_goals
    try rw [List.length_set]
    omega

/-- The loop of `search` over the words, from the `i`-th one on. -/
def searchWords (searchWord : List UInt8 → List KeyT) :
    List (List UInt8) → ℕ → List KeyT → List KeyT
  | [], _, results => results
  | word :: words, i, results =>
    let keys := searchWord word
    searchWords searchWord words (i + 1) (if i = 0 then keys else intersect results keys 0 0 0)

/-- `CompareByRating::get_rating` -/
def getRating (hints : Hints) (key : KeyT) : RatingT := (hints.keyToRating.lookup key).getD 0

/-- `CompareByRating` -/
def compareByRating (hints : Hints) (lhs rhs : KeyT) : Bool :=
  let lhsRating := getRating hints lhs
  let rhsRating := getRating hints rhs
  lhsRating < rhsRating || (lhsRating == rhsRating && lhs < rhs)

/-- `std::sort` by `CompareByRating` -/
def sort (hints : Hints) (results : List KeyT) : List KeyT :=
  results.insertionSort fun lhs rhs ↦ ¬compareByRating hints rhs lhs

/-- `std::partial_sort` by `CompareByRating`.  It leaves the elements behind the sorted part in an
unspecified order, here in the one that they had. -/
def partialSort (hints : Hints) (results : List KeyT) (middle : ℕ) : List KeyT :=
  let first := (sort hints results).take middle
  first ++ results.filter (· ∉ first)

section Words

variable (utf8GetSearchWords : List UInt8 → List (List UInt8))
  (getWordTransliterations : List UInt8 → Bool → List (List UInt8))

/-- `Hints::search_word` -/
def searchWord (hints : Hints) (word : List UInt8) : List KeyT :=
  let results := addSearchResults [] word hints.translitWordToKeys
  let results := (getWordTransliterations word true).foldl
    (fun results w ↦ addSearchResults results w hints.wordToKeys) results
  unique results

/-- `Hints::search` -/
def search (hints : Hints) (query : List UInt8) (limit : Int32) (returnAllForEmptyQuery : Bool) :
    ℕ × List KeyT :=
  if limit < 0 then (hints.keyToName.keys.length, [])
  else
    let words := getWords utf8GetSearchWords query
    let results := if returnAllForEmptyQuery && words.isEmpty then hints.keyToName.keys else []
    let results := searchWords (searchWord getWordTransliterations hints) words 0 results
    let totalSize := results.length
    if totalSize < limit.toNatClampNeg then (totalSize, sort hints results)
    else (totalSize, (partialSort hints results limit.toNatClampNeg).take limit.toNatClampNeg)

/-- A word matches a key when a transliteration of a word of its name begins with it, or a word of
its name with one of the transliterations for a search. -/
def Matches (hints : Hints) (word : List UInt8) (key : KeyT) : Prop :=
  ∃ name, hints.keyToName.lookup key = some name ∧
    ((∃ w ∈ translitWords utf8GetSearchWords getWordTransliterations name, word <+: w) ∨
      ∃ t ∈ getWordTransliterations word true, ∃ w ∈ getWords utf8GetSearchWords name, t <+: w)

end Words

/-! ## Prefixes -/

theorem beginsWith_iff {str pref : List UInt8} : beginsWith str pref ↔ pref <+: str :=
  List.isPrefixOf_iff_prefix

/-- What is between a word and a longer one begins with the word. -/
theorem prefix_of_between {word x y : List UInt8} (hx : word ≤ x) (hxy : x ≤ y)
    (hy : word <+: y) : word <+: x := by
  induction word generalizing x y with
  | nil => exact List.nil_prefix
  | cons a word ih =>
    obtain ⟨rest, rfl⟩ := hy
    cases x with
    | nil => exact absurd (List.nil_lt_cons a word) (List.not_lt.2 hx)
    | cons b x =>
      rw [List.cons_append] at hxy
      rw [List.cons_le_cons_iff] at hx hxy
      have hab : a = b := by
        rcases hx with hab | ⟨hab, -⟩
        · rcases hxy with hba | ⟨hba, -⟩
          · exact absurd (UInt8.lt_trans hab hba) (UInt8.lt_irrefl a)
          · exact hba.symm
        · exact hab
      subst hab
      simp only [UInt8.lt_irrefl, false_or, true_and] at hx hxy
      exact (List.cons_prefix_cons).2 ⟨rfl, ih hx hxy (List.prefix_append _ _)⟩

/-- The entries that a search reads are those whose word begins with the one searched for. -/
theorem entries_eq_filter (word : List UInt8) (wordToKeys : Index) :
    ((inOrder wordToKeys).dropWhile (·.1 < word)).takeWhile (beginsWith ·.1 word) =
      (inOrder wordToKeys).filter (beginsWith ·.1 word) := by
  have htotal : Std.Total fun a b : Sigma fun _ : List UInt8 ↦ List KeyT ↦ a.1 ≤ b.1 :=
    ⟨fun a b ↦ List.le_total a.1 b.1⟩
  have htrans : IsTrans (Sigma fun _ : List UInt8 ↦ List KeyT) (·.1 ≤ ·.1) :=
    ⟨fun a b c hab hbc ↦ List.le_trans hab hbc⟩
  have hsorted : (inOrder wordToKeys).Pairwise (·.1 ≤ ·.1) := List.pairwise_insertionSort _ _
  refine takeWhile_dropWhile_eq_filter hsorted ?_ ?_ ?_
  · intro a b hab hb
    rw [decide_eq_true_eq] at hb ⊢
    exact List.lt_of_le_of_lt hab hb
  · intro a ha
    rw [decide_eq_true_eq, List.not_lt]
    exact (beginsWith_iff.1 ha).le
  · intro a b hab ha hb
    rw [decide_eq_true_eq, List.not_lt] at ha
    exact beginsWith_iff.2 (prefix_of_between ha hab (beginsWith_iff.1 hb))

variable {r : List UInt8 → KeyT → Prop} {index : Index} {word : List UInt8} {key : KeyT}
  {results keys : List KeyT}

/-- The keys listed under a word that begins with the one searched for are added. -/
theorem mem_addSearchResults (h : ListsKeys index r) :
    key ∈ addSearchResults results word index ↔ key ∈ results ∨ ∃ w, word <+: w ∧ r w key := by
  rw [addSearchResults, entries_eq_filter, List.mem_append, List.mem_flatMap]
  refine or_congr_right ⟨?_, ?_⟩
  · rintro ⟨⟨w, keys⟩, hentry, hkey⟩
    rw [List.mem_filter, inOrder, (List.perm_insertionSort _ _).mem_iff] at hentry
    refine ⟨w, beginsWith_iff.1 hentry.2, (h.mem w key).1 ?_⟩
    rw [keysOf, AList.mem_lookup_iff.2 hentry.1]
    exact hkey
  · rintro ⟨w, hword, hr⟩
    have hkey := (h.mem w key).2 hr
    rw [keysOf] at hkey
    cases hlookup : index.lookup w with
    | none => simp [hlookup] at hkey
    | some keys =>
      rw [hlookup] at hkey
      refine ⟨⟨w, keys⟩, List.mem_filter.2 ⟨?_, beginsWith_iff.2 hword⟩, hkey⟩
      rw [inOrder, (List.perm_insertionSort _ _).mem_iff]
      exact AList.mem_lookup_iff.1 hlookup

theorem mem_foldl_addSearchResults (h : ListsKeys index r) (words : List (List UInt8)) :
    key ∈ words.foldl (fun results w ↦ addSearchResults results w index) results ↔
      key ∈ results ∨ ∃ t ∈ words, ∃ w, t <+: w ∧ r w key := by
  induction words generalizing results with
  | nil => simp
  | cons word words ih =>
    rw [List.foldl_cons, ih, mem_addSearchResults h]
    simp only [List.mem_cons, exists_eq_or_imp, or_assoc]

/-! ## Lists of keys -/

/-- Sorted without duplicates. -/
def Ascending (keys : List KeyT) : Prop := keys.Pairwise (· < ·)

theorem toInt_injective : Function.Injective Int64.toInt := fun _ _ h ↦ Int64.toInt_inj.1 h

theorem unique_ascending (v : List KeyT) : Ascending (unique v) :=
  (destutter_insertionSort toInt_injective (fun _ _ ↦ Int64.le_iff_toInt_le) v).1.imp
    Int64.lt_iff_toInt_lt.2

theorem mem_unique {v : List KeyT} : key ∈ unique v ↔ key ∈ v :=
  (destutter_insertionSort toInt_injective (fun _ _ ↦ Int64.le_iff_toInt_le) v).2 key

theorem Ascending.notMem_of_lt {a b : KeyT} (h : Ascending (b :: keys)) (hab : a < b) :
    a ∉ b :: keys := by
  rintro hmem
  rcases List.mem_cons.1 hmem with rfl | hmem
  · exact Int64.lt_irrefl hab
  · exact Int64.lt_irrefl (Int64.lt_trans hab ((List.pairwise_cons.1 h).1 a hmem))

theorem filter_mem_of_lt {a b : KeyT} (hkeys : Ascending (b :: keys)) (hab : a < b) :
    (a :: results).filter (· ∈ b :: keys) = results.filter (· ∈ b :: keys) := by
  rw [List.filter_cons_of_neg]
  rw [decide_eq_true_eq]
  exact hkeys.notMem_of_lt hab

theorem filter_mem_of_gt {a b : KeyT} (hresults : Ascending (a :: results)) (hba : b < a) :
    (a :: results).filter (· ∈ b :: keys) = (a :: results).filter (· ∈ keys) := by
  refine List.filter_congr fun key hkey ↦ decide_eq_decide.2 ?_
  rw [List.mem_cons]
  refine or_iff_right ?_
  rintro rfl
  exact hresults.notMem_of_lt hba hkey

theorem filter_mem_of_eq {a : KeyT} (hresults : Ascending (a :: results)) :
    (a :: results).filter (· ∈ a :: keys) = a :: results.filter (· ∈ keys) := by
  rw [List.filter_cons_of_pos (by rw [decide_eq_true_eq]; exact List.mem_cons_self)]
  refine congrArg (a :: ·) (List.filter_congr fun key hkey ↦ decide_eq_decide.2 ?_)
  rw [List.mem_cons]
  refine or_iff_right ?_
  rintro rfl
  exact Int64.lt_irrefl ((List.pairwise_cons.1 hresults).1 _ hkey)

/-- What is not read yet is where it was: nothing is written from there on. -/
theorem intersect_eq (resultsPos keysPos newResultsSize : ℕ)
    (hsize : newResultsSize ≤ resultsPos) (hresults : Ascending (results.drop resultsPos))
    (hkeys : Ascending (keys.drop keysPos)) :
    intersect results keys resultsPos keysPos newResultsSize =
      results.take newResultsSize ++
        (results.drop resultsPos).filter (· ∈ keys.drop keysPos) := by
  fun_induction intersect results keys resultsPos keysPos newResultsSize with
  | case1 results resultsPos keysPos newResultsSize h hlt ih =>
    rw [List.drop_eq_getElem_cons h.1] at hresults
    rw [ih (by omega) hresults.tail hkeys, List.drop_eq_getElem_cons h.1]
    rw [List.drop_eq_getElem_cons h.2] at hkeys ⊢
    rw [filter_mem_of_lt hkeys hlt]
  | case2 results resultsPos keysPos newResultsSize h _ hgt ih =>
    rw [List.drop_eq_getElem_cons h.2] at hkeys
    rw [ih hsize hresults hkeys.tail, List.drop_eq_getElem_cons h.2]
    rw [List.drop_eq_getElem_cons h.1] at hresults ⊢
    rw [filter_mem_of_gt hresults hgt]
  | case3 results resultsPos keysPos newResultsSize h hlt hgt ih =>
    have heq : results[resultsPos] = keys[keysPos] :=
      Int64.le_antisymm (Int64.not_lt.1 hgt) (Int64.not_lt.1 hlt)
    -- The element is written at or before its own position, so nothing behind it changes.
    have hdrop : (results.set newResultsSize results[resultsPos]).drop (resultsPos + 1) =
        results.drop (resultsPos + 1) := List.drop_set_of_lt (by omega)
    have htake : (results.set newResultsSize results[resultsPos]).take (newResultsSize + 1) =
        results.take newResultsSize ++ [results[resultsPos]] := by
      rw [List.take_add_one, List.take_set_of_le le_rfl, List.getElem?_set_self (by omega)]
      rfl
    rw [List.drop_eq_getElem_cons h.1] at hresults
    rw [List.drop_eq_getElem_cons h.2] at hkeys
    rw [ih (by omega) (by rw [hdrop]; exact hresults.tail) hkeys.tail, hdrop, htake,
      List.drop_eq_getElem_cons h.1, List.drop_eq_getElem_cons h.2, ← heq,
      filter_mem_of_eq hresults, List.append_assoc]
    rfl
  | case4 results resultsPos keysPos newResultsSize h =>
    rcases not_and_or.1 h with h | h
    · rw [List.drop_of_length_le (not_lt.1 h), List.filter_nil, List.append_nil]
    · rw [List.drop_of_length_le (not_lt.1 h)]
      simp

/-- The keys that are in both lists. -/
theorem intersect_spec (hresults : Ascending results) (hkeys : Ascending keys) :
    Ascending (intersect results keys 0 0 0) ∧
      ∀ key, key ∈ intersect results keys 0 0 0 ↔ key ∈ results ∧ key ∈ keys := by
  rw [intersect_eq 0 0 0 le_rfl hresults hkeys, List.take_zero, List.nil_append, List.drop_zero,
    List.drop_zero]
  refine ⟨hresults.sublist List.filter_sublist, fun key ↦ ?_⟩
  rw [List.mem_filter, decide_eq_true_eq]

/-! ## The order by rating -/

variable {hints : Hints}

/-- The rating and then the key. -/
def rank (hints : Hints) (key : KeyT) : ℤ ×ₗ ℤ := toLex ((getRating hints key).toInt, key.toInt)

theorem rank_injective (hints : Hints) : Function.Injective (rank hints) := fun _ _ h ↦
  toInt_injective (congrArg (fun p ↦ (ofLex p).2) h)

theorem compareByRating_iff (hints : Hints) (lhs rhs : KeyT) :
    compareByRating hints lhs rhs ↔ rank hints lhs < rank hints rhs := by
  rw [compareByRating, Bool.or_eq_true, Bool.and_eq_true, decide_eq_true_eq, decide_eq_true_eq,
    beq_iff_eq, Int64.lt_iff_toInt_lt, Int64.lt_iff_toInt_lt, ← Int64.toInt_inj, rank, rank,
    Prod.Lex.toLex_lt_toLex]

theorem sort_pairwise (hnodup : results.Nodup) :
    (sort hints results).Pairwise fun a b ↦ rank hints a < rank hints b := by
  have hle : ∀ a b, ¬compareByRating hints b a ↔ rank hints a ≤ rank hints b := fun a b ↦ by
    rw [compareByRating_iff, not_lt]
  have hperm := List.perm_insertionSort (fun lhs rhs ↦ ¬compareByRating hints rhs lhs) results
  exact pairwise_rank_lt (rank_injective hints) (pairwise_insertionSort_rank hle results)
    (hperm.nodup_iff.2 hnodup)

theorem mem_sort : key ∈ sort hints results ↔ key ∈ results :=
  (List.perm_insertionSort _ _).mem_iff

theorem length_sort : (sort hints results).length = results.length := List.length_insertionSort _ _

/-- A partial sort is enough for what is kept. -/
theorem take_partialSort {middle : ℕ} (hmiddle : middle ≤ results.length) :
    (partialSort hints results middle).take middle = (sort hints results).take middle := by
  have hlength : ((sort hints results).take middle).length = middle := by
    rw [List.length_take, length_sort, min_eq_left hmiddle]
  rw [partialSort, List.take_append_of_le_length hlength.ge, List.take_of_length_le hlength.le]

/-! ## Queries -/

section Queries

variable {utf8GetSearchWords : List UInt8 → List (List UInt8)}
  {getWordTransliterations : List UInt8 → Bool → List (List UInt8)}
  {names : KeyT → Option (List UInt8)} {p : List UInt8 → KeyT → Prop}

/-- The keys that match a word. -/
theorem searchWord_spec (h : Models utf8GetSearchWords getWordTransliterations hints names)
    (word : List UInt8) :
    Ascending (searchWord getWordTransliterations hints word) ∧
      ∀ key, key ∈ searchWord getWordTransliterations hints word ↔
        Matches utf8GetSearchWords getWordTransliterations hints word key := by
  refine ⟨unique_ascending _, fun key ↦ ?_⟩
  rw [searchWord, mem_unique, mem_foldl_addSearchResults h.words,
    mem_addSearchResults h.transliterations]
  simp only [Matches, h.lookup, wordsOf, List.not_mem_nil, false_or]
  constructor
  · rintro (⟨w, hword, name, hname, hw⟩ | ⟨t, ht, w, hword, name, hname, hw⟩)
    · exact ⟨name, hname, .inl ⟨w, hw, hword⟩⟩
    · exact ⟨name, hname, .inr ⟨t, ht, w, hw, hword⟩⟩
  · rintro ⟨name, hname, ⟨w, hw, hword⟩ | ⟨t, ht, w, hw, hword⟩⟩
    · exact .inl ⟨w, hword, name, hname, hw⟩
    · exact .inr ⟨t, ht, w, hword, name, hname, hw⟩

/-- A later word takes away what does not match it. -/
theorem searchWords_succ {search : List UInt8 → List KeyT} (hsearch : ∀ word,
    Ascending (search word) ∧ ∀ key, key ∈ search word ↔ p word key)
    (words : List (List UInt8)) (i : ℕ) (hresults : Ascending results) :
    Ascending (searchWords search words (i + 1) results) ∧
      ∀ key, key ∈ searchWords search words (i + 1) results ↔
        key ∈ results ∧ ∀ word ∈ words, p word key := by
  induction words generalizing results i with
  | nil => simpa [searchWords] using hresults
  | cons word words ih =>
    have hword := intersect_spec hresults (hsearch word).1
    rw [searchWords, if_neg i.succ_ne_zero]
    refine ⟨(ih (i + 1) hword.1).1, fun key ↦ ?_⟩
    rw [(ih (i + 1) hword.1).2, hword.2, (hsearch word).2, List.forall_mem_cons, and_assoc]

/-- The first word gives a list of its own. -/
theorem searchWords_zero {search : List UInt8 → List KeyT} (hsearch : ∀ word,
    Ascending (search word) ∧ ∀ key, key ∈ search word ↔ p word key)
    {words : List (List UInt8)} (hwords : words ≠ []) (results : List KeyT) :
    Ascending (searchWords search words 0 results) ∧
      ∀ key, key ∈ searchWords search words 0 results ↔ ∀ word ∈ words, p word key := by
  cases words with
  | nil => exact absurd rfl hwords
  | cons word words =>
    obtain ⟨hascending, hmem⟩ := searchWords_succ hsearch words 0 (hsearch word).1
    refine ⟨hascending, fun key ↦ ?_⟩
    rw [searchWords, if_pos rfl, hmem, (hsearch word).2, List.forall_mem_cons]

/-- What is returned is the total and the first of the results in the order by rating. -/
theorem search_eq {query : List UInt8} {limit : Int32} (hlimit : 0 ≤ limit)
    (returnAllForEmptyQuery : Bool) (hquery : getWords utf8GetSearchWords query ≠ []) :
    let results := searchWords (searchWord getWordTransliterations hints)
      (getWords utf8GetSearchWords query) 0 []
    search utf8GetSearchWords getWordTransliterations hints query limit returnAllForEmptyQuery =
      (results.length, (sort hints results).take limit.toInt.toNat) := by
  intro results
  have hall : (returnAllForEmptyQuery && (getWords utf8GetSearchWords query).isEmpty) = false := by
    rw [List.isEmpty_eq_false_iff.2 hquery, Bool.and_false]
  have hneg : ¬limit < 0 := Int32.not_lt.2 hlimit
  simp only [search, if_neg hneg, hall, Bool.false_eq_true, if_false, Int32.toNat_toInt]
  split_ifs with hlt
  · rw [List.take_of_length_le (by rw [length_sort]; exact hlt.le)]
  · rw [take_partialSort (not_lt.1 hlt)]

/-- Whatever is added, removed and rated: a search finds the keys that match every word of the
query, says how many there are and returns the first ones by rating and key. -/
theorem run_search (utf8GetSearchWords : List UInt8 → List (List UInt8))
    (getWordTransliterations : List UInt8 → Bool → List (List UInt8)) (ops : List Op)
    (query : List UInt8) (limit : Int32) (returnAllForEmptyQuery : Bool)
    (hquery : getWords utf8GetSearchWords query ≠ []) (hlimit : 0 ≤ limit) :
    ∃ (hints : Hints) (found : List KeyT),
      ops.foldlM (step utf8GetSearchWords getWordTransliterations) {} = .ok hints ∧
      (found.Pairwise fun a b ↦ rank hints a < rank hints b) ∧
      (∀ key, key ∈ found ↔ ∀ word ∈ getWords utf8GetSearchWords query,
        Matches utf8GetSearchWords getWordTransliterations hints word key) ∧
      search utf8GetSearchWords getWordTransliterations hints query limit
        returnAllForEmptyQuery = (found.length, found.take limit.toInt.toNat) := by
  have hinit : Models utf8GetSearchWords getWordTransliterations {} (fun _ ↦ none) :=
    Models.init
  obtain ⟨hints, hrun, h⟩ := run_spec ops hinit
  obtain ⟨hascending, hmem⟩ := searchWords_zero (searchWord_spec h) hquery []
  have hnodup := hascending.imp fun {a b} (hab : a < b) ↦ Int64.ne_of_lt hab
  refine ⟨hints, _, hrun, sort_pairwise hnodup, fun key ↦ ?_, ?_⟩
  · rw [mem_sort, hmem]
  · rw [search_eq hlimit returnAllForEmptyQuery hquery, length_sort]

/-- A query of one word for two keys. -/
theorem run_search_two :
    ∃ (hints : Hints) (found : List KeyT),
      [.add 1 [97, 98], .add 2 [98], .setRating 1 5].foldlM
        (step (fun name ↦ [name]) fun word _ ↦ [word]) {} = .ok hints ∧
      (found.Pairwise fun a b ↦ rank hints a < rank hints b) ∧
      (∀ key, key ∈ found ↔ ∀ word ∈ getWords (fun name ↦ [name]) [97],
        Matches (fun name ↦ [name]) (fun word _ ↦ [word]) hints word key) ∧
      search (fun name ↦ [name]) (fun word _ ↦ [word]) hints [97] 10 false =
        (found.length, found.take (10 : Int32).toInt.toNat) :=
  run_search _ _ _ [97] 10 false (by decide +kernel) (by decide)

end Queries

end PxcCore.Hints
