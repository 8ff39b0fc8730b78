import PxcCore.Utils.WaitFreeVector

/-!
# Enumerator

`Enumerator.h`: numbers values from 1 on, in the order in which they are added first.  The values
are the keys of a `std::map`, and a vector points to its nodes.
-/

namespace PxcCore

open Lib

/-- A `std::map` is the list of its nodes in the order in which they were made.  No node is moved
or erased, so that its place there is its address. -/
structure Enumerator (ValueT : Type) where
  map : List (ValueT × Int32) := []
  arr : WaitFreeVector ℕ := {}

namespace Enumerator

/-! ## Keys -/

section Keys

variable {ValueT : Type} (lt : ValueT → ValueT → Prop)

/-- Keys that a `std::map` takes for equal. -/
def Equivalent (a b : ValueT) : Prop := ¬lt a b ∧ ¬lt b a

instance instDecidableEquivalent [DecidableRel lt] (a b : ValueT) :
    Decidable (Equivalent lt a b) :=
  inferInstanceAs (Decidable (¬lt a b ∧ ¬lt b a))

variable {lt} {a b c : ValueT}

theorem Equivalent.symm (h : Equivalent lt a b) : Equivalent lt b a := And.symm h

variable [IsStrictWeakOrder ValueT lt]

theorem Equivalent.refl (a : ValueT) : Equivalent lt a a := ⟨irrefl a, irrefl a⟩

theorem Equivalent.trans (hab : Equivalent lt a b) (hbc : Equivalent lt b c) :
    Equivalent lt a c :=
  IsStrictWeakOrder.incomp_trans a b c hab hbc

end Keys

/-! ## Definitions -/

variable {ValueT : Type} (lt : ValueT → ValueT → Prop) [DecidableRel lt]

/-- `std::map::emplace`: the address of the node with this key, and whether it is a new one. -/
def mapEmplace (map : List (ValueT × Int32)) (key : ValueT) (value : Int32) :
    (ℕ × Bool) × List (ValueT × Int32) :=
  match map.findIdx? fun node ↦ Equivalent lt node.1 key with
  | some it => ((it, false), map)
  | none => ((map.length, true), map ++ [(key, value)])

/-- `add` -/
def add (e : Enumerator ValueT) (v : ValueT) : Except String (Int32 × Enumerator ValueT) :=
  if e.arr.size < 2 ^ 31 - 1 - 1 then do
    let nextId := Int32.ofNat (e.arr.size + 1)
    let ((it, wasInserted), map) := mapEmplace lt e.map v nextId
    let arr := if wasInserted then e.arr.pushBack it else e.arr
    let node ← WaitFreeVector.inRange map[it]?
    return (node.2, { map := map, arr := arr })
  else
    .error "CHECK(arr_.size() < static_cast<size_t>(std::numeric_limits<int32>::max() - 1))"

/-- `get` -/
def get (e : Enumerator ValueT) (key : Int32) : Except String ValueT :=
  let pos := ((key - 1).toInt % 2 ^ 64).toNat
  if pos < e.arr.size then do
    let it ← e.arr.get pos
    let node ← WaitFreeVector.inRange e.map[it]?
    return node.1
  else .error "CHECK(pos < arr_.size())"

/-- `size` -/
def size (e : Enumerator ValueT) : Except String ℕ :=
  if e.map.length = e.arr.size then .ok e.arr.size
  else .error "CHECK(map_.size() == arr_.size())"

/-! ## The values in the order of their first addition -/

/-- The values without those that are equivalent to an earlier one. -/
def addFirst (l : List ValueT) (v : ValueT) : List ValueT :=
  if ∃ w ∈ l, Equivalent lt w v then l else l ++ [v]

/-- The values that are not equivalent to an earlier one. -/
def firsts (vs : List ValueT) : List ValueT := vs.foldl (addFirst lt) []

/-- The ids from 1 to `n`. -/
def idsUpTo (n : ℕ) : List Int32 := (List.range n).map fun i ↦ Int32.ofNat (i + 1)

variable {lt} {e e' : Enumerator ValueT} {l vs : List ValueT} {v w : ValueT}
  {ids : List Int32} {i n : ℕ}

@[simp] theorem length_idsUpTo (n : ℕ) : (idsUpTo n).length = n := by simp [idsUpTo]

theorem idsUpTo_succ (n : ℕ) : idsUpTo (n + 1) = idsUpTo n ++ [Int32.ofNat (n + 1)] := by
  rw [idsUpTo, List.range_succ, List.map_append, List.map_singleton, idsUpTo]

theorem idsUpTo_getElem? (h : i < n) : (idsUpTo n)[i]? = some (Int32.ofNat (i + 1)) := by
  rw [idsUpTo, List.getElem?_map, List.getElem?_range h, Option.map_some]

theorem toInt_id (h : i < 2 ^ 31 - 2) : (Int32.ofNat (i + 1)).toInt = i + 1 := by
  rw [Int32.toInt_ofNat_of_lt (by omega)]
  rfl

theorem id_inj {j : ℕ} (hi : i < 2 ^ 31 - 2) (hj : j < 2 ^ 31 - 2) :
    Int32.ofNat (i + 1) = Int32.ofNat (j + 1) ↔ i = j := by
  constructor
  · intro h
    have hint := congrArg Int32.toInt h
    rw [toInt_id hi, toInt_id hj] at hint
    omega
  · rintro rfl
    rfl

/-- A new id is not among the earlier ones. -/
theorem notMem_idsUpTo (hn : n < 2 ^ 31 - 2) : Int32.ofNat (n + 1) ∉ idsUpTo n := by
  intro hmem
  obtain ⟨i, hi, heq⟩ := List.mem_map.1 hmem
  have hlt : i < n := List.mem_range.1 hi
  exact hlt.ne ((id_inj (hlt.trans hn) hn).1 heq)

/-- The cast of an id to `size_t`. -/
theorem pos_id (h : i < 2 ^ 31 - 2) : ((Int32.ofNat (i + 1) - 1).toInt % 2 ^ 64).toNat = i := by
  have hsub : Int32.ofNat (i + 1) - 1 = Int32.ofNat i := (Int32.ofNat_sub (i + 1) 1 (by omega)).symm
  rw [hsub, Int32.toInt_ofNat_of_lt (by omega)]
  omega

/-! ## The state of an enumerator -/

/-- The state of an enumerator that numbers these values. -/
structure Models (lt : ValueT → ValueT → Prop) [DecidableRel lt] (e : Enumerator ValueT)
    (l : List ValueT) : Prop where
  map_eq : e.map = l.zip (idsUpTo l.length)
  wf : e.arr.Wf
  arr_eq : e.arr.toList = List.range l.length
  length_le : l.length ≤ 2 ^ 31 - 2
  distinct : l.Pairwise fun a b ↦ ¬Equivalent lt a b

namespace Models

theorem nil : Models lt {} [] where
  map_eq := rfl
  wf := .nil
  arr_eq := rfl
  length_le := Nat.zero_le _
  distinct := .nil

theorem arr_size (h : Models lt e l) : e.arr.size = l.length := by
  rw [h.wf.size_eq, h.arr_eq, List.length_range]

theorem map_length (h : Models lt e l) : e.map.length = l.length := by
  rw [h.map_eq, List.length_zip, length_idsUpTo, Nat.min_self]

theorem size_eq (h : Models lt e l) : e.size = .ok l.length := by
  rw [size, if_pos (h.map_length.trans h.arr_size.symm), h.arr_size]

theorem map_getElem? (h : Models lt e l) (hv : l[i]? = some v) :
    e.map[i]? = some (v, Int32.ofNat (i + 1)) := by
  obtain ⟨hi, -⟩ := List.getElem?_eq_some_iff.1 hv
  rw [h.map_eq, List.getElem?_zip_eq_some]
  exact ⟨hv, idsUpTo_getElem? hi⟩

/-- The node of a key is found by the key alone. -/
theorem map_findIdx? (h : Models lt e l) (v : ValueT) :
    e.map.findIdx? (fun node ↦ Equivalent lt node.1 v) = l.findIdx? (Equivalent lt · v) := by
  have hfst : e.map.map Prod.fst = l := by
    rw [h.map_eq, List.map_fst_zip (length_idsUpTo _).ge]
  conv_rhs => rw [← hfst, List.findIdx?_map]
  rfl

/-- The value of an id is the one at its place. -/
theorem get_eq (h : Models lt e l) (hv : l[i]? = some v) :
    e.get (Int32.ofNat (i + 1)) = .ok v := by
  obtain ⟨hi, -⟩ := List.getElem?_eq_some_iff.1 hv
  have harr : e.arr.get i = .ok i := by
    rw [h.wf.get_eq, h.arr_eq, List.getElem?_range hi, WaitFreeVector.inRange]
  simp only [get, pos_id (hi.trans_le h.length_le), h.arr_size, if_pos hi, harr, ok_bind,
    h.map_getElem? hv, WaitFreeVector.inRange, pure_eq_ok]

/-- A value gets the id of the one that is equivalent to it, or the next id. -/
theorem add_spec [IsStrictWeakOrder ValueT lt] (h : Models lt e l) (v : ValueT)
    (hlt : l.length < 2 ^ 31 - 2) :
    ∃ i w e', e.add lt v = .ok (Int32.ofNat (i + 1), e') ∧ Models lt e' (addFirst lt l v) ∧
      (addFirst lt l v)[i]? = some w ∧ Equivalent lt w v ∧
      (addFirst lt l v = l ∨ i = l.length ∧ addFirst lt l v = l ++ [v]) := by
  have hsize : e.arr.size < 2 ^ 31 - 1 - 1 := h.arr_size ▸ hlt
  rcases hfind : l.findIdx? (Equivalent lt · v) with _ | i
  · have hnew : ∀ w ∈ l, ¬Equivalent lt w v := fun w hw ↦ by
      simpa using List.findIdx?_eq_none_iff.1 hfind w hw
    have hfirst : addFirst lt l v = l ++ [v] := by
      refine if_neg ?_
      rintro ⟨w, hw, hwv⟩
      exact hnew w hw hwv
    obtain ⟨hwf, hlist⟩ := h.wf.emplaceBack e.map.length
    refine ⟨l.length, v, ⟨e.map ++ [(v, Int32.ofNat (e.arr.size + 1))],
      e.arr.pushBack e.map.length⟩, ?_, ?_, ?_, .refl v, .inr ⟨rfl, hfirst⟩⟩
    · rw [add, if_pos hsize]
      simp only [mapEmplace, h.map_findIdx?, hfind, List.getElem?_concat_length,
        WaitFreeVector.inRange, ok_bind, pure_eq_ok, if_true, h.arr_size]
    · rw [hfirst]
      constructor
      · rw [List.length_append, List.length_singleton, idsUpTo_succ, h.arr_size,
          List.zip_append (length_idsUpTo _).symm, ← h.map_eq]
        rfl
      · exact hwf
      · exact hlist.trans (by
          rw [h.arr_eq, h.map_length, List.length_append, List.length_singleton, List.range_succ])
      · rw [List.length_append, List.length_singleton]
        exact hlt
      · refine List.pairwise_append.2 ⟨h.distinct, List.pairwise_singleton _ _, ?_⟩
        intro w hw v' hv'
        rw [List.mem_singleton.1 hv']
        exact hnew w hw
    · rw [hfirst, List.getElem?_concat_length]
  · obtain ⟨hi, hequiv, -⟩ := List.findIdx?_eq_some_iff_getElem.1 hfind
    have hfirst : addFirst lt l v = l := if_pos ⟨l[i], List.getElem_mem hi, by simpa using hequiv⟩
    have hnode := h.map_getElem? (List.getElem?_eq_getElem hi)
    refine ⟨i, l[i], e, ?_, hfirst.symm ▸ h, ?_, by simpa using hequiv, .inl hfirst⟩
    · rw [add, if_pos hsize]
      simp only [mapEmplace, h.map_findIdx?, hfind, hnode,
        WaitFreeVector.inRange, ok_bind, pure_eq_ok]
      rfl
    · rw [hfirst, List.getElem?_eq_getElem hi]

/-- There is no room for a value behind the last id. -/
theorem add_full (h : Models lt e l) (v : ValueT) (hlt : ¬l.length < 2 ^ 31 - 2) :
    e.add lt v = .error
      "CHECK(arr_.size() < static_cast<size_t>(std::numeric_limits<int32>::max() - 1))" := by
  rw [add, if_neg (h.arr_size ▸ hlt)]

end Models

/-! ## Runs -/

theorem prefix_addFirst (l : List ValueT) (v : ValueT) : l <+: addFirst lt l v := by
  rw [addFirst]
  split
  · exact List.prefix_rfl
  · exact List.prefix_append l [v]

theorem prefix_foldl (vs l : List ValueT) : l <+: vs.foldl (addFirst lt) l := by
  induction vs generalizing l with
  | nil => exact List.prefix_rfl
  | cons v vs ih => exact (prefix_addFirst l v).trans (ih (addFirst lt l v))

/-- A value that has an id keeps it. -/
theorem getElem?_foldl (hv : l[i]? = some v) (vs : List ValueT) :
    (vs.foldl (addFirst lt) l)[i]? = some v := by
  have hprefix : l <+: vs.foldl (addFirst lt) l := prefix_foldl vs l
  obtain ⟨t, ht⟩ := hprefix
  obtain ⟨hi, -⟩ := List.getElem?_eq_some_iff.1 hv
  rw [← ht, List.getElem?_append_left hi, hv]

/-- The first value that is equivalent to another one stays. -/
theorem find?_foldl [IsStrictWeakOrder ValueT lt] (vs l : List ValueT) (v : ValueT) :
    (vs.foldl (addFirst lt) l).find? (Equivalent lt · v) =
      (l ++ vs).find? (Equivalent lt · v) := by
  induction vs generalizing l with
  | nil => rw [List.foldl_nil, List.append_nil]
  | cons u vs ih =>
    rw [List.foldl_cons, ih, addFirst]
    split
    case isFalse => rw [List.append_assoc, List.singleton_append]
    case isTrue hold =>
      obtain ⟨w, hw, hwu⟩ := hold
      rw [List.find?_append, List.find?_append]
      rcases hfind : l.find? (Equivalent lt · v) with _ | w'
      · have huv : ¬Equivalent lt u v := fun huv ↦ by
          simpa [hwu.trans huv] using List.find?_eq_none.1 hfind w hw
        rw [List.find?_cons_of_neg (by simpa using huv)]
      · rfl

theorem eraseDups_concat_of_mem {prior : List Int32} {id : Int32} (h : id ∈ prior) :
    (prior ++ [id]).eraseDups = prior.eraseDups := by
  rw [List.eraseDups_append]
  simp [List.removeAll, h]

theorem eraseDups_concat_of_notMem {prior : List Int32} {id : Int32} (h : id ∉ prior) :
    (prior ++ [id]).eraseDups = prior.eraseDups ++ [id] := by
  have hkept : [id].removeAll prior = [id] := by simp [List.removeAll, h]
  rw [List.eraseDups_append, hkept]
  rfl

/-- The id of a value among these. -/
def Numbers (lt : ValueT → ValueT → Prop) (l : List ValueT) (v : ValueT) (id : Int32) : Prop :=
  ∃ i w, id = Int32.ofNat (i + 1) ∧ l[i]? = some w ∧ Equivalent lt w v

/-- What calls of `add` return, with the ids that were returned before them. -/
theorem Models.run [IsStrictWeakOrder ValueT lt] (h : Models lt e l) {prior : List Int32}
    (hprior : prior.eraseDups = idsUpTo l.length)
    (hrun : runProgram (add lt) vs e = .ok (ids, e')) :
    Models lt e' (vs.foldl (addFirst lt) l) ∧
      List.Forall₂ (Numbers lt (vs.foldl (addFirst lt) l)) vs ids ∧
      (prior ++ ids).eraseDups = idsUpTo (vs.foldl (addFirst lt) l).length := by
  induction vs generalizing e l prior ids with
  | nil =>
    obtain ⟨rfl, rfl⟩ := Prod.mk.inj (Except.ok.inj hrun)
    rw [List.append_nil]
    exact ⟨h, .nil, hprior⟩
  | cons v vs ih =>
    obtain ⟨⟨id, e₁⟩, hadd, hrest⟩ := bind_eq_ok.1 hrun
    obtain ⟨⟨ids₁, e₂⟩, hrun₁, hret⟩ := bind_eq_ok.1 hrest
    obtain ⟨rfl, rfl⟩ := Prod.mk.inj (Except.ok.inj hret)
    have hlt : l.length < 2 ^ 31 - 2 := by
      by_contra hfull
      rw [h.add_full v hfull] at hadd
      cases hadd
    obtain ⟨i, w, e₁', hadd', h₁, hw, hwv, hcases⟩ := h.add_spec v hlt
    obtain ⟨rfl, rfl⟩ := Prod.mk.inj (Except.ok.inj (hadd.symm.trans hadd'))
    have hprior₁ : (prior ++ [Int32.ofNat (i + 1)]).eraseDups =
        idsUpTo (addFirst lt l v).length := by
      rcases hcases with hold | ⟨rfl, hnew⟩
      · have hmem : Int32.ofNat (i + 1) ∈ prior := by
          obtain ⟨hi, -⟩ := List.getElem?_eq_some_iff.1 (hold ▸ hw)
          rw [← List.mem_eraseDups, hprior]
          exact List.mem_of_getElem? (idsUpTo_getElem? hi)
        rw [eraseDups_concat_of_mem hmem, hprior, hold]
      · have hmem : Int32.ofNat (l.length + 1) ∉ prior := by
          rw [← List.mem_eraseDups, hprior]
          exact notMem_idsUpTo hlt
        rw [eraseDups_concat_of_notMem hmem, hprior, hnew, List.length_append,
          List.length_singleton, idsUpTo_succ]
    obtain ⟨hmodels, hnumbers, hids⟩ := ih h₁ hprior₁ hrun₁
    refine ⟨hmodels, .cons ⟨i, w, rfl, ?_, hwv⟩ hnumbers, ?_⟩
    · exact getElem?_foldl hw vs
    · rwa [List.append_assoc, List.singleton_append] at hids

/-- Calls of `add` return as long as there is room for one more value. -/
theorem Models.run_ok_iff [IsStrictWeakOrder ValueT lt] (h : Models lt e l) (vs : List ValueT) :
    (∃ ids e', runProgram (add lt) vs e = .ok (ids, e')) ↔
      ∀ k < vs.length, ((vs.take k).foldl (addFirst lt) l).length < 2 ^ 31 - 2 := by
  induction vs generalizing e l with
  | nil => exact ⟨fun _ k hk ↦ absurd hk (Nat.not_lt_zero k), fun _ ↦ ⟨[], e, rfl⟩⟩
  | cons v vs ih =>
    by_cases hlt : l.length < 2 ^ 31 - 2
    · obtain ⟨i, w, e₁, hadd, h₁, -⟩ := h.add_spec v hlt
      have hrun : (∃ ids e', runProgram (add lt) (v :: vs) e = .ok (ids, e')) ↔
          ∃ ids e', runProgram (add lt) vs e₁ = .ok (ids, e') := by
        simp only [runProgram, hadd, ok_bind]
        constructor
        · rintro ⟨ids, e', hrun⟩
          obtain ⟨⟨ids₁, e₂⟩, hrun₁, -⟩ := bind_eq_ok.1 hrun
          exact ⟨ids₁, e₂, hrun₁⟩
        · rintro ⟨ids, e', hrun⟩
          exact ⟨_, e', by rw [hrun]; rfl⟩
      rw [hrun, ih h₁, List.length_cons]
      constructor
      · intro hroom k hk
        cases k with
        | zero => exact hlt
        | succ k => exact hroom k (Nat.lt_of_succ_lt_succ hk)
      · exact fun hroom k hk ↦ hroom (k + 1) (Nat.succ_lt_succ hk)
    · constructor
      · rintro ⟨ids, e', hrun⟩
        rw [runProgram, h.add_full v hlt] at hrun
        cases hrun
      · exact fun hroom ↦ absurd (hroom 0 (Nat.succ_pos _)) hlt

/-- What calls of `add` have returned for these values, and what `size` and `get` return after
them. -/
structure Enumerates (lt : ValueT → ValueT → Prop) [DecidableRel lt] (vs : List ValueT)
    (ids : List Int32) (e : Enumerator ValueT) : Prop where
  length_eq : ids.length = vs.length
  id_eq_iff : ∀ p ∈ vs.zip ids, ∀ q ∈ vs.zip ids, p.2 = q.2 ↔ Equivalent lt p.1 q.1
  eraseDups_eq : ids.eraseDups = idsUpTo (firsts lt vs).length
  size_eq : e.size = .ok (firsts lt vs).length
  get_eq : ∀ p ∈ vs.zip ids, ∃ w, vs.find? (Equivalent lt · p.1) = some w ∧ e.get p.2 = .ok w

/-- Values have one id exactly if they are equivalent. -/
theorem Models.numbers_eq_iff [IsStrictWeakOrder ValueT lt] (h : Models lt e l)
    {id id' : Int32} (hv : Numbers lt l v id) (hw : Numbers lt l w id') :
    id = id' ↔ Equivalent lt v w := by
  obtain ⟨i, v', rfl, hi, hv⟩ := hv
  obtain ⟨j, w', rfl, hj, hw⟩ := hw
  obtain ⟨hi', rfl⟩ := List.getElem?_eq_some_iff.1 hi
  obtain ⟨hj', rfl⟩ := List.getElem?_eq_some_iff.1 hj
  rw [id_inj (hi'.trans_le h.length_le) (hj'.trans_le h.length_le)]
  constructor
  · rintro rfl
    exact hv.symm.trans hw
  · intro hvw
    have hequiv : Equivalent lt l[i] l[j] := hv.trans (hvw.trans hw.symm)
    have hdistinct := List.pairwise_iff_getElem.1 h.distinct
    rcases Nat.lt_trichotomy i j with hij | rfl | hij
    · exact absurd hequiv (hdistinct i j hi' hj' hij)
    · rfl
    · exact absurd hequiv.symm (hdistinct j i hj' hi' hij)

/-- The value of an id is the only one that is equivalent to the value it was given to. -/
theorem Models.get_numbers [IsStrictWeakOrder ValueT lt] (h : Models lt e l) {id : Int32}
    (hv : Numbers lt l v id) :
    ∃ w, l.find? (Equivalent lt · v) = some w ∧ e.get id = .ok w := by
  obtain ⟨i, w, rfl, hi, hwv⟩ := hv
  refine ⟨w, ?_, h.get_eq hi⟩
  obtain ⟨hi', rfl⟩ := List.getElem?_eq_some_iff.1 hi
  rw [List.find?_eq_some_iff_getElem]
  refine ⟨by simpa using hwv, i, hi', rfl, fun j hj ↦ ?_⟩
  have hne := List.pairwise_iff_getElem.1 h.distinct j i (hj.trans hi') hi' hj
  have : ¬Equivalent lt l[j] v := fun hjv ↦ hne (hjv.trans hwv.symm)
  simpa using this

theorem enumerates [IsStrictWeakOrder ValueT lt]
    (hrun : runProgram (add lt) vs {} = .ok (ids, e)) : Enumerates lt vs ids e := by
  have hnone : ([] : List Int32).eraseDups = idsUpTo ([] : List ValueT).length := rfl
  obtain ⟨hmodels, hnumbers, hids⟩ := Models.nil.run hnone hrun
  obtain ⟨hlength, hzip⟩ := List.forall₂_iff_zip.1 hnumbers
  constructor
  · exact hlength.symm
  · exact fun p hp q hq ↦ hmodels.numbers_eq_iff (hzip hp) (hzip hq)
  · exact hids
  · exact hmodels.size_eq
  · intro p hp
    obtain ⟨w, hfind, hget⟩ := hmodels.get_numbers (hzip hp)
    rw [find?_foldl, List.nil_append] at hfind
    exact ⟨w, hfind, hget⟩

/-- A vector in chunks returns what a list does.  Calls of `add` return as long as fewer than
2³¹ - 2 values have been numbered, the ids count the values in the order of their first addition,
and `get` returns the value that got the id, now and later. -/
theorem add_enumerates :
    (∀ (T : Type) (ops : List (WaitFreeVector.Op T)),
      (runProgram WaitFreeVector.step ops {}).map Prod.fst =
        (runProgram WaitFreeVector.listStep ops []).map Prod.fst) ∧
    ∀ (ValueT : Type) (lt : ValueT → ValueT → Prop) [DecidableRel lt]
      [IsStrictWeakOrder ValueT lt] (vs : List ValueT),
      ((∃ ids e, runProgram (add lt) vs {} = .ok (ids, e)) ↔
        ∀ k < vs.length, (firsts lt (vs.take k)).length < 2 ^ 31 - 2) ∧
      ∀ ids e, runProgram (add lt) vs {} = .ok (ids, e) →
        Enumerates lt vs ids e ∧
        ((∀ a b, Equivalent lt a b → a = b) → ∀ p ∈ vs.zip ids, e.get p.2 = .ok p.1) := by
  refine ⟨fun T ops ↦ WaitFreeVector.runProgram_eq ops, fun ValueT lt _ _ vs ↦ ?_⟩
  refine ⟨Models.nil.run_ok_iff vs, fun ids e hrun ↦ ⟨enumerates hrun, fun heq p hp ↦ ?_⟩⟩
  obtain ⟨w, hfind, hget⟩ := (enumerates hrun).get_eq p hp
  have hw : Equivalent lt w p.1 := by simpa using List.find?_some hfind
  rw [hget, heq w p.1 hw]

/-- Three additions of two values. -/
theorem add_enumerates_three :
    ∃ e, runProgram (add (· < ·)) [7, 5, 7] ({} : Enumerator ℕ) = .ok ([1, 2, 1], e) ∧
      Enumerates (· < ·) [7, 5, 7] [1, 2, 1] e ∧
      ∀ p ∈ [7, 5, 7].zip [(1 : Int32), 2, 1], e.get p.2 = .ok p.1 := by
  have hweak : IsStrictWeakOrder ℕ (· < ·) := isStrictWeakOrder_of_isOrderConnected
  have hspec := (add_enumerates.2 ℕ (· < ·) [7, 5, 7]).2 [1, 2, 1]
    ⟨[(7, 1), (5, 2)], ⟨[[0, 1]]⟩⟩ rfl
  refine ⟨⟨[(7, 1), (5, 2)], ⟨[[0, 1]]⟩⟩, rfl, hspec.1, hspec.2 fun a b hab ↦ ?_⟩
  exact Nat.le_antisymm (Nat.le_of_not_lt hab.2) (Nat.le_of_not_lt hab.1)

end Enumerator

end PxcCore
