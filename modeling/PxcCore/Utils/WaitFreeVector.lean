import PxcCore.Lib.Chunks
import PxcCore.Lib.Simulation

/-!
# WaitFreeVector

`WaitFreeVector.h`: a vector in chunks, so that a chunk which is full is never moved again.

An access outside of the vector is the error `out of range`.
-/

namespace PxcCore

open Lib

structure WaitFreeVector (T : Type) where
  storage : List (List T) := []

namespace WaitFreeVector

variable {T : Type} {v : WaitFreeVector T} {value : T} {i : ℕ}

/-! ## Definitions -/

/-- `MAX_VECTOR_SIZE` -/
def maxVectorSize : ℕ := 1 <<< 15 - 10

/-- `storage_.back().size()` -/
def backSize (storage : List (List T)) : ℕ := (storage.getLast?.getD []).length

/-- `emplace_back` -/
def emplaceBack (v : WaitFreeVector T) (value : T) : WaitFreeVector T :=
  let storage := if v.storage.isEmpty ∨ backSize v.storage = maxVectorSize then v.storage ++ [[]]
    else v.storage
  ⟨storage.modifyLast (· ++ [value])⟩

/-- `push_back` -/
def pushBack (v : WaitFreeVector T) (value : T) : WaitFreeVector T := v.emplaceBack value

/-- An element that is there, or the fault of an access outside of the vector. -/
def inRange : Option T → Except String T
  | none => .error "out of range"
  | some value => .ok value

/-- `back` -/
def back (v : WaitFreeVector T) : Except String T :=
  inRange (v.storage.getLast?.bind List.getLast?)

/-- `pop_back` -/
def popBack (v : WaitFreeVector T) : Except String (WaitFreeVector T) := do
  let _ ← v.back
  let storage := v.storage.modifyLast List.dropLast
  return if backSize storage = 0 then ⟨storage.dropLast⟩ else ⟨storage⟩

/-- `operator[]`, to read. -/
def get (v : WaitFreeVector T) (index : ℕ) : Except String T :=
  inRange ((v.storage[index / maxVectorSize]?).bind (·[index % maxVectorSize]?))

/-- `operator[]`, to write. -/
def set (v : WaitFreeVector T) (index : ℕ) (value : T) : Except String (WaitFreeVector T) := do
  let _ ← v.get index
  return ⟨v.storage.modify (index / maxVectorSize) (·.set (index % maxVectorSize) value)⟩

/-- `size` -/
def size (v : WaitFreeVector T) : ℕ :=
  if v.storage.isEmpty then 0
  else (v.storage.length - 1) * maxVectorSize + backSize v.storage

/-- `empty` -/
def empty (v : WaitFreeVector T) : Bool := v.storage.isEmpty

/-- The calls of a vector. -/
inductive Op (T : Type) where
  | emplaceBack (value : T)
  | pushBack (value : T)
  | popBack
  | back
  | get (index : ℕ)
  | set (index : ℕ) (value : T)
  | size
  | empty

/-- What a call returns. -/
inductive Out (T : Type) where
  | nothing
  | value (value : T)
  | size (size : ℕ)
  | empty (empty : Bool)

def step (v : WaitFreeVector T) : Op T → Except String (Out T × WaitFreeVector T)
  | .emplaceBack value => return (.nothing, v.emplaceBack value)
  | .pushBack value => return (.nothing, v.pushBack value)
  | .popBack => do
    let v ← v.popBack
    return (.nothing, v)
  | .back => do
    let value ← v.back
    return (.value value, v)
  | .get index => do
    let value ← v.get index
    return (.value value, v)
  | .set index value => do
    let v ← v.set index value
    return (.nothing, v)
  | .size => return (.size v.size, v)
  | .empty => return (.empty v.empty, v)

/-! ## The list of the values -/

/-- The same calls of a list. -/
def listStep (l : List T) : Op T → Except String (Out T × List T)
  | .emplaceBack value | .pushBack value => return (.nothing, l ++ [value])
  | .popBack => do
    let _ ← inRange l.getLast?
    return (.nothing, l.dropLast)
  | .back => do
    let value ← inRange l.getLast?
    return (.value value, l)
  | .get index => do
    let value ← inRange l[index]?
    return (.value value, l)
  | .set index value => do
    let _ ← inRange l[index]?
    return (.nothing, l.set index value)
  | .size => return (.size l.length, l)
  | .empty => return (.empty l.isEmpty, l)

/-- The values of a vector in their order. -/
def toList (v : WaitFreeVector T) : List T := v.storage.flatten

/-- The vector is cut into chunks the way its index arithmetic expects. -/
def Wf (v : WaitFreeVector T) : Prop := Chunked maxVectorSize v.storage

theorem maxVectorSize_pos : 0 < maxVectorSize := by decide

@[simp] theorem backSize_concat (front : List (List T)) (last : List T) :
    backSize (front ++ [last]) = last.length := by
  rw [backSize, List.getLast?_concat, Option.getD_some]

namespace Wf

theorem nil : Wf ({} : WaitFreeVector T) := Chunked.nil

/-- A vector is empty, or has a last chunk behind full ones. -/
theorem eq_or (h : v.Wf) : v = {} ∨ ∃ front last, v = ⟨front ++ [last]⟩ ∧
    (∀ c ∈ front, c.length = maxVectorSize) ∧ last ≠ [] ∧ last.length ≤ maxVectorSize := by
  obtain ⟨storage⟩ := v
  cases h with
  | nil => exact .inl rfl
  | snoc hfront hlast hle => exact .inr ⟨_, _, rfl, hfront, hlast, hle⟩

/-- An element goes to the end of the last chunk, or into a new one. -/
theorem emplaceBack (h : v.Wf) (value : T) :
    (v.emplaceBack value).Wf ∧ (v.emplaceBack value).toList = v.toList ++ [value] := by
  rcases h.eq_or with rfl | ⟨front, last, rfl, hfront, hlast, hle⟩
  · have hchunk : Chunked maxVectorSize ([] ++ [[value]]) :=
      .snoc (by simp) (List.cons_ne_nil value []) maxVectorSize_pos
    exact ⟨hchunk, rfl⟩
  · simp only [WaitFreeVector.emplaceBack, toList, backSize_concat, Wf]
    by_cases hfull : last.length = maxVectorSize
    · rw [if_pos (.inr hfull), List.modifyLast_concat, List.nil_append]
      refine ⟨.snoc (fun c hc ↦ ?_) (by simp) maxVectorSize_pos, by simp⟩
      rcases List.mem_append.1 hc with hc | hc
      · exact hfront c hc
      · exact (List.mem_singleton.1 hc) ▸ hfull
    · rw [if_neg (by simpa using hfull), List.modifyLast_concat]
      refine ⟨.snoc hfront (by simp) ?_, by simp⟩
      rw [List.length_append, List.length_singleton]
      exact Nat.lt_of_le_of_ne hle hfull

theorem back_eq (h : v.Wf) : v.back = inRange v.toList.getLast? := by
  rcases h.eq_or with rfl | ⟨front, last, rfl, hfront, hlast, hle⟩
  · rfl
  · rw [back, toList, List.getLast?_concat, Option.bind_some, List.flatten_append,
      List.flatten_singleton, List.getLast?_append_of_ne_nil _ hlast]

/-- The last element goes, and its chunk if it is empty then. -/
theorem popBack (h : v.Wf) (hne : v.toList ≠ []) :
    ∃ v', v.popBack = .ok v' ∧ v'.Wf ∧ v'.toList = v.toList.dropLast := by
  have hback : v.back = .ok (v.toList.getLast hne) := by
    rw [h.back_eq, List.getLast?_eq_getLast_of_ne_nil hne, inRange]
  refine ⟨_, by rw [WaitFreeVector.popBack, hback, ok_bind, pure_eq_ok], ?_⟩
  rcases h.eq_or with rfl | ⟨front, last, rfl, hfront, hlast, hle⟩
  · exact absurd rfl hne
  · have hdrop : (front ++ [last]).flatten.dropLast = front.flatten ++ last.dropLast := by
      rw [List.flatten_append, List.flatten_singleton, List.dropLast_append_of_ne_nil hlast]
    simp only [Wf, toList, List.modifyLast_concat, backSize_concat, hdrop]
    by_cases hempty : last.dropLast.length = 0
    · rw [if_pos hempty, List.dropLast_concat, List.length_eq_zero_iff.1 hempty, List.append_nil]
      exact ⟨Chunked.of_full hfront maxVectorSize_pos, rfl⟩
    · rw [if_neg hempty]
      refine ⟨.snoc hfront (fun hnil ↦ hempty (hnil ▸ rfl)) ?_, by simp⟩
      exact (List.length_dropLast ▸ Nat.sub_le _ _).trans hle

theorem get_eq (h : v.Wf) (i : ℕ) : v.get i = inRange v.toList[i]? := by
  rw [get, toList, Chunked.getElem? h maxVectorSize_pos]

theorem set (h : v.Wf) (hvalue : inRange v.toList[i]? = .ok value) (value' : T) :
    ∃ v', v.set i value' = .ok v' ∧ v'.Wf ∧ v'.toList = v.toList.set i value' := by
  refine ⟨_, by rw [WaitFreeVector.set, h.get_eq, hvalue, ok_bind, pure_eq_ok], ?_, ?_⟩
  · exact h.modify_set _ _ value'
  · exact (Chunked.set h maxVectorSize_pos value').symm

theorem size_eq (h : v.Wf) : v.size = v.toList.length := by
  rcases h.eq_or with rfl | ⟨front, last, rfl, hfront, hlast, hle⟩
  · rfl
  · have hlength : (front ++ [last]).flatten.length =
        front.length * maxVectorSize + last.length := by
      rw [List.flatten_append, List.flatten_singleton, List.length_append,
        length_flatten_of_full hfront]
    rw [size, if_neg (by simp), backSize_concat, toList, hlength, List.length_append,
      List.length_singleton, Nat.add_sub_cancel]

theorem empty_eq (h : v.Wf) : v.empty = v.toList.isEmpty := by
  rcases h.eq_or with rfl | ⟨front, last, rfl, hfront, hlast, hle⟩
  · rfl
  · rw [Bool.eq_iff_iff]
    simp [empty, toList, hlast]

end Wf

/-! ## Runs -/

/-- A vector returns what the list of its values does. -/
structure Models (v : WaitFreeVector T) (l : List T) : Prop where
  wf : v.Wf
  toList_eq : v.toList = l

/-- A call of a vector is the call of the list. -/
theorem Models.step_spec {l : List T} (h : Models v l) (op : Op T) :
    (∃ out v' l', v.step op = .ok (out, v') ∧ listStep l op = .ok (out, l') ∧ Models v' l') ∨
      ∃ e, v.step op = .error e ∧ listStep l op = .error e := by
  obtain ⟨hwf, rfl⟩ := h
  cases op with
  | emplaceBack value | pushBack value =>
    obtain ⟨hwf', hlist⟩ := hwf.emplaceBack value
    exact .inl ⟨.nothing, v.emplaceBack value, v.toList ++ [value], rfl, rfl, hwf', hlist⟩
  | popBack =>
    rcases eq_or_ne v.toList [] with hnil | hne
    · refine .inr ⟨"out of range", ?_, by simp [listStep, hnil, inRange]⟩
      simp [step, WaitFreeVector.popBack, hwf.back_eq, hnil, inRange]
    · obtain ⟨v', hpop, hwf', hlist⟩ := hwf.popBack hne
      refine .inl ⟨.nothing, v', v.toList.dropLast, by simp [step, hpop], ?_, hwf', hlist⟩
      simp [listStep, List.getLast?_eq_getLast_of_ne_nil hne, inRange]
  | back =>
    rcases hvalue : inRange v.toList.getLast? with e | value
    · exact .inr ⟨e, by simp [step, hwf.back_eq, hvalue], by simp [listStep, hvalue]⟩
    · exact .inl ⟨.value value, v, v.toList, by simp [step, hwf.back_eq, hvalue],
        by simp [listStep, hvalue], hwf, rfl⟩
  | get i =>
    rcases hvalue : inRange v.toList[i]? with e | value
    · exact .inr ⟨e, by simp [step, hwf.get_eq, hvalue], by simp [listStep, hvalue]⟩
    · exact .inl ⟨.value value, v, v.toList, by simp [step, hwf.get_eq, hvalue],
        by simp [listStep, hvalue], hwf, rfl⟩
  | set i value' =>
    rcases hvalue : inRange v.toList[i]? with e | value
    · exact .inr ⟨e, by simp [step, WaitFreeVector.set, hwf.get_eq, hvalue],
        by simp [listStep, hvalue]⟩
    · obtain ⟨v', hset, hwf', hlist⟩ := hwf.set hvalue value'
      exact .inl ⟨.nothing, v', v.toList.set i value', by simp [step, hset],
        by simp [listStep, hvalue], hwf', hlist⟩
  | size =>
    exact .inl ⟨.size v.toList.length, v, v.toList, by simp [step, hwf.size_eq], rfl, hwf, rfl⟩
  | empty =>
    exact .inl ⟨.empty v.toList.isEmpty, v, v.toList, by simp [step, hwf.empty_eq], rfl, hwf, rfl⟩

/-- Whatever is called, a vector returns what the list of its values does. -/
theorem runProgram_eq (ops : List (Op T)) :
    (runProgram step ops ({} : WaitFreeVector T)).map Prod.fst =
      (runProgram listStep ops []).map Prod.fst :=
  runProgram_lockstep Models.step_spec ops ⟨Wf.nil, rfl⟩

end WaitFreeVector

end PxcCore
