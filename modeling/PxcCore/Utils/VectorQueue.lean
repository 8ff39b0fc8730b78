import PxcCore.Lib.ListUpdate
import PxcCore.Lib.Simulation

/-!
# VectorQueue

`VectorQueue.h`: a queue in a vector.  What has been popped stays in front of the read position
until `try_shrink` erases it.

An access outside of the vector is `Fault.outOfRange`, also for a read position behind its end.
What a move leaves of a value is `moved` of it.
-/

namespace PxcCore

open Lib

structure VectorQueue (T : Type) where
  vector : List T := []
  readPos : ℕ := 0

namespace VectorQueue

/-- How a call ends other than by returning. -/
inductive Fault where
  | outOfRange
  | divisionByZero
deriving DecidableEq

variable {T : Type} {q q' : VectorQueue T} {v : T}

/-! ## Definitions -/

/-- `size` -/
def size (q : VectorQueue T) : ℕ := q.vector.length - q.readPos

/-- The values from `front` to `back`, `as_span`. -/
def asSpan (q : VectorQueue T) : List T := q.vector.drop q.readPos

/-- `push` and `emplace` -/
def push (q : VectorQueue T) (s : T) : VectorQueue T :=
  { q with vector := q.vector ++ [s] }

/-- `try_shrink` -/
def tryShrink (q : VectorQueue T) : Except Fault (VectorQueue T) :=
  if q.readPos * 2 > q.vector.length ∧ q.readPos > 4 then
    if q.readPos ≤ q.vector.length then .ok { vector := q.vector.drop q.readPos }
    else .error .outOfRange
  else .ok q

/-- `pop` -/
def pop (moved : T → T) (q : VectorQueue T) : Except Fault (T × VectorQueue T) := do
  let q ← q.tryShrink
  match q.vector[q.readPos]? with
  | none => .error .outOfRange
  | some v => .ok (v,
      { vector := q.vector.set q.readPos (moved v), readPos := q.readPos + 1 })

/-- `std::swap(vector_[i], vector_[j])` -/
def swap (q : VectorQueue T) (i j : ℕ) : Except Fault (VectorQueue T) :=
  match q.vector[i]?, q.vector[j]? with
  | some a, some b => .ok { q with vector := (q.vector.set i b).set j a }
  | _, _ => .error .outOfRange

/-- `pop_rand`, where `rnd` returns this number. -/
def popRand (moved : T → T) (q : VectorQueue T) (rnd : UInt64) :
    Except Fault (T × VectorQueue T) :=
  if q.size = 0 then .error .divisionByZero
  else do
    let i := rnd.toNat % q.size
    let q ← q.swap i q.readPos
    q.pop moved

/-- `pop_n` -/
def popN (q : VectorQueue T) (n : ℕ) : Except Fault (VectorQueue T) :=
  if q.readPos + n ≤ q.vector.length then tryShrink { q with readPos := q.readPos + n }
  else .error .outOfRange

inductive Op (T : Type) where
  | push (s : T)
  | emplace (s : T)
  | pop
  | popN (n : ℕ)
  | popRand (rnd : UInt64)

/-- A call, with the values that it takes from the queue. -/
def step (moved : T → T) (q : VectorQueue T) : Op T → Except Fault (List T × VectorQueue T)
  | .push s | .emplace s => .ok ([], q.push s)
  | .pop => do
    let (v, q) ← q.pop moved
    return ([v], q)
  | .popN n => do
    let q' ← q.popN n
    return (q.asSpan.take n, q')
  | .popRand rnd => do
    let (v, q) ← q.popRand moved rnd
    return ([v], q)

/-- The values that calls add. -/
def pushed (ops : List (Op T)) : List T :=
  ops.filterMap fun
    | .push s | .emplace s => some s
    | _ => none

/-- The values that calls take. -/
def popped (trace : List (Op T × List T)) : List T := trace.flatMap Prod.snd

/-- The queue has what a call asks for. -/
def Enough (q : VectorQueue T) : Op T → Prop
  | .pop | .popRand _ => q.size ≠ 0
  | .popN n => n ≤ q.size
  | _ => True

/-- A call of `pop_rand` must not choose an index in front of the read position. -/
def Admits (q : VectorQueue T) : Op T → Prop
  | .popRand rnd => q.readPos ≤ rnd.toNat % q.size
  | _ => True

/-- A call that is admitted and returns. -/
def Call (moved : T → T) (q : VectorQueue T) (op : Op T) (out : List T) (q' : VectorQueue T) :
    Prop :=
  q.Admits op ∧ q.step moved op = .ok (out, q')

/-! ## One call -/

variable {moved : T → T}

/-- The read position is not behind the end. -/
def Wf (q : VectorQueue T) : Prop := q.readPos ≤ q.vector.length

theorem length_asSpan (q : VectorQueue T) : q.asSpan.length = q.size := List.length_drop

theorem Wf.push (h : q.Wf) (s : T) : (q.push s).Wf ∧ (q.push s).asSpan = q.asSpan ++ [s] := by
  constructor
  · exact h.trans (by simp [VectorQueue.push])
  · exact List.drop_append_of_le_length h

/-- `try_shrink` keeps the values. -/
theorem Wf.tryShrink (h : q.Wf) :
    ∃ q', q.tryShrink = .ok q' ∧ q'.Wf ∧ q'.asSpan = q.asSpan := by
  rw [VectorQueue.tryShrink]
  split_ifs with hshrink hle
  · exact ⟨_, rfl, Nat.zero_le _, rfl⟩
  · exact absurd h hle
  · exact ⟨q, rfl, h, rfl⟩

/-- `pop` takes the first value. -/
theorem Wf.pop (h : q.Wf) (hpop : q.pop moved = .ok (v, q')) :
    q'.Wf ∧ q.asSpan = v :: q'.asSpan := by
  obtain ⟨q₁, hshrink, hwf, hspan⟩ := h.tryShrink
  rw [VectorQueue.pop, hshrink, ok_bind] at hpop
  cases hget : q₁.vector[q₁.readPos]? with
  | none =>
    rw [hget] at hpop
    cases hpop
  | some w =>
    rw [hget] at hpop
    obtain ⟨rfl, rfl⟩ := Prod.mk.inj (Except.ok.inj hpop)
    obtain ⟨hlt, hget'⟩ := List.getElem?_eq_some_iff.1 hget
    constructor
    · exact Nat.succ_le_of_lt (hlt.trans_eq List.length_set.symm)
    · rw [← hspan, asSpan, asSpan, List.drop_eq_getElem_cons hlt, hget',
        List.drop_set_of_lt (Nat.lt_succ_self _)]

/-- A queue that has a value gives it. -/
theorem Wf.pop_ok (h : q.Wf) (moved : T → T) (hsize : q.size ≠ 0) :
    ∃ v q', q.pop moved = .ok (v, q') := by
  obtain ⟨q₁, hshrink, hwf, hspan⟩ := h.tryShrink
  have hlt : q₁.readPos < q₁.vector.length := by
    rw [← length_asSpan, ← hspan, length_asSpan, size] at hsize
    exact Nat.lt_of_sub_ne_zero hsize
  rw [VectorQueue.pop, hshrink, ok_bind, List.getElem?_eq_getElem hlt]
  exact ⟨_, _, rfl⟩

/-- Values of the queue change places. -/
theorem Wf.swap (h : q.Wf) {i : ℕ} (hi : q.readPos ≤ i) (hswap : q.swap i q.readPos = .ok q') :
    q'.Wf ∧ q'.asSpan.Perm q.asSpan := by
  rw [VectorQueue.swap] at hswap
  split at hswap
  · rename_i a b ha hb
    cases hswap
    refine ⟨?_, ?_⟩
    · exact h.trans_eq (by simp)
    · obtain ⟨k, rfl⟩ := Nat.exists_eq_add_of_le hi
      have ha' : q.asSpan[k]? = some a := by rw [asSpan, List.getElem?_drop, ha]
      have hb' : q.asSpan[0]? = some b := by rw [asSpan, List.getElem?_drop, Nat.add_zero, hb]
      have hspan : asSpan { q with vector := (q.vector.set (q.readPos + k) b).set q.readPos a } =
          (q.asSpan.set k b).set 0 a := by
        rw [asSpan, asSpan, List.drop_set, List.drop_set]
        simp
      rw [hspan]
      exact perm_swap ha' hb'
  · cases hswap

theorem swap_ok {i : ℕ} (hi : i < q.vector.length) (hsize : q.size ≠ 0) :
    ∃ q', q.swap i q.readPos = .ok q' ∧ q'.size = q.size := by
  have hlt : q.readPos < q.vector.length := Nat.lt_of_sub_ne_zero hsize
  rw [VectorQueue.swap, List.getElem?_eq_getElem hi, List.getElem?_eq_getElem hlt]
  exact ⟨_, rfl, by simp [size]⟩

/-- `pop_n` takes the first values. -/
theorem popN_spec {n : ℕ} (hpop : q.popN n = .ok q') :
    q'.Wf ∧ q.asSpan = q.asSpan.take n ++ q'.asSpan := by
  rw [popN] at hpop
  split_ifs at hpop with hle
  have hwf : Wf { q with readPos := q.readPos + n } := hle
  obtain ⟨q₁, hshrink, hwf₁, hspan⟩ := hwf.tryShrink
  obtain rfl := Except.ok.inj (hshrink.symm.trans hpop)
  refine ⟨hwf₁, ?_⟩
  have hdrop : asSpan { q with readPos := q.readPos + n } = q.asSpan.drop n :=
    List.drop_drop.symm
  rw [hspan, hdrop, List.take_append_drop]

/-- `pop_rand` takes one of the values. -/
theorem Wf.popRand (h : q.Wf) {rnd : UInt64} (hadmits : q.readPos ≤ rnd.toNat % q.size)
    (hpop : q.popRand moved rnd = .ok (v, q')) : q'.Wf ∧ q.asSpan.Perm (v :: q'.asSpan) := by
  rw [VectorQueue.popRand] at hpop
  split_ifs at hpop
  obtain ⟨q₁, hswap, hpop₁⟩ := bind_eq_ok.1 hpop
  obtain ⟨hwf₁, hperm⟩ := h.swap hadmits hswap
  obtain ⟨hwf', hspan⟩ := hwf₁.pop hpop₁
  exact ⟨hwf', hspan ▸ hperm.symm⟩

/-- What a call takes is what it leaves less. -/
theorem Call.spec {op : Op T} {out : List T} (hcall : Call moved q op out q') (h : q.Wf) :
    q'.Wf ∧ (q.asSpan ++ pushed [op]).Perm (out ++ q'.asSpan) ∧
      ((∀ rnd, op ≠ .popRand rnd) → q.asSpan ++ pushed [op] = out ++ q'.asSpan) := by
  obtain ⟨hadmits, hstep⟩ := hcall
  cases op with
  | push s | emplace s =>
    obtain ⟨rfl, rfl⟩ := Prod.mk.inj (Except.ok.inj hstep)
    obtain ⟨hwf', hspan⟩ := h.push s
    exact ⟨hwf', .of_eq hspan.symm, fun _ ↦ hspan.symm⟩
  | pop =>
    obtain ⟨⟨v, q₁⟩, hpop, hret⟩ := bind_eq_ok.1 hstep
    obtain ⟨rfl, rfl⟩ := Prod.mk.inj (Except.ok.inj hret)
    obtain ⟨hwf', hspan⟩ := h.pop hpop
    have heq : q.asSpan ++ [] = [v] ++ q₁.asSpan := (List.append_nil _).trans hspan
    exact ⟨hwf', .of_eq heq, fun _ ↦ heq⟩
  | popN n =>
    obtain ⟨q₁, hpop, hret⟩ := bind_eq_ok.1 hstep
    obtain ⟨rfl, rfl⟩ := Prod.mk.inj (Except.ok.inj hret)
    obtain ⟨hwf', hspan⟩ := popN_spec hpop
    have heq : q.asSpan ++ [] = q.asSpan.take n ++ q₁.asSpan := (List.append_nil _).trans hspan
    exact ⟨hwf', .of_eq heq, fun _ ↦ heq⟩
  | popRand rnd =>
    obtain ⟨⟨v, q₁⟩, hpop, hret⟩ := bind_eq_ok.1 hstep
    obtain ⟨rfl, rfl⟩ := Prod.mk.inj (Except.ok.inj hret)
    obtain ⟨hwf', hperm⟩ := h.popRand hadmits hpop
    refine ⟨hwf', (List.Perm.of_eq (List.append_nil _)).trans hperm, fun hne ↦ ?_⟩
    exact absurd rfl (hne rnd)

/-- A call returns if the queue has what it asks for. -/
theorem Wf.step_ok (h : q.Wf) {op : Op T} (henough : q.Enough op) (hadmits : q.Admits op) :
    ∃ out q', q.step moved op = .ok (out, q') := by
  cases op with
  | push s | emplace s => exact ⟨_, _, rfl⟩
  | pop =>
    obtain ⟨v, q', hpop⟩ := h.pop_ok moved henough
    exact ⟨[v], q', by simp only [step, hpop, ok_bind, pure_eq_ok]⟩
  | popN n =>
    have hle : q.readPos + n ≤ q.vector.length := by
      have henough : n ≤ q.vector.length - q.readPos := henough
      have hwf : q.readPos ≤ q.vector.length := h
      omega
    obtain ⟨q', hshrink, -⟩ := Wf.tryShrink (q := { q with readPos := q.readPos + n }) hle
    exact ⟨_, q', by rw [step, popN, if_pos hle, hshrink, ok_bind, pure_eq_ok]⟩
  | popRand rnd =>
    have hsize : q.size ≠ 0 := henough
    have hi : rnd.toNat % q.size < q.vector.length :=
      (Nat.mod_lt _ (Nat.pos_of_ne_zero hsize)).trans_le (Nat.sub_le _ _)
    obtain ⟨q₁, hswap, hsize₁⟩ := swap_ok hi hsize
    obtain ⟨hwf₁, -⟩ := h.swap hadmits hswap
    obtain ⟨v, q', hpop⟩ := hwf₁.pop_ok moved (hsize₁ ▸ hsize)
    exact ⟨[v], q', by
      simp only [step, VectorQueue.popRand, if_neg hsize, hswap, ok_bind, hpop, pure_eq_ok]⟩

/-! ## Runs -/

variable {trace : List (Op T × List T)}

theorem runs_spec (hruns : Runs (Call moved) q trace q') (h : q.Wf) :
    q'.Wf ∧ (q.asSpan ++ pushed (trace.map Prod.fst)).Perm (popped trace ++ q'.asSpan) ∧
      ((∀ call ∈ trace, ∀ rnd, call.1 ≠ .popRand rnd) →
        q.asSpan ++ pushed (trace.map Prod.fst) = popped trace ++ q'.asSpan) := by
  induction hruns with
  | nil q => exact ⟨h, .of_eq (List.append_nil _), fun _ ↦ List.append_nil _⟩
  | @cons q q₁ q' op out trace hcall hruns ih =>
    obtain ⟨hwf₁, hperm, heq⟩ := hcall.spec h
    obtain ⟨hwf', hperm', heq'⟩ := ih hwf₁
    have hpushed : pushed (((op, out) :: trace).map Prod.fst) =
        pushed [op] ++ pushed (trace.map Prod.fst) := List.filterMap_append (l := [op])
    have hpopped : popped ((op, out) :: trace) = out ++ popped trace := List.flatMap_cons
    rw [hpushed, hpopped]
    refine ⟨hwf', ?_, fun hne ↦ ?_⟩
    · rw [← List.append_assoc]
      refine (hperm.append_right _).trans ?_
      rw [List.append_assoc, List.append_assoc]
      exact hperm'.append_left _
    · rw [← List.append_assoc, heq (hne (op, out) List.mem_cons_self), List.append_assoc,
        heq' fun call hcall ↦ hne call (List.mem_cons_of_mem _ hcall),
        List.append_assoc]

/-- In every run in which `pop_rand` does not choose an index in front of the read position, the
values pushed are those popped and those still in the queue, in this order if there is no
`pop_rand`, and a call returns if the queue has what it asks for. -/
theorem runs_conserve (hruns : Runs (Call moved) {} trace q) :
    (pushed (trace.map Prod.fst) : Multiset T) = popped trace + q.asSpan ∧
      ((∀ call ∈ trace, ∀ rnd, call.1 ≠ .popRand rnd) →
        pushed (trace.map Prod.fst) = popped trace ++ q.asSpan) ∧
      ∀ op, q.Enough op → q.Admits op → ∃ out q', q.step moved op = .ok (out, q') := by
  obtain ⟨hwf, hperm, heq⟩ := runs_spec hruns (Nat.zero_le _)
  exact ⟨Multiset.coe_eq_coe.2 hperm, heq, fun op ↦ hwf.step_ok⟩

/-- `pop_rand` chooses the second of two values. -/
theorem runs_conserve_two :
    let trace : List (Op ℕ × List ℕ) := [(.push 1, []), (.push 2, []), (.popRand 1, [2])]
    (pushed (trace.map Prod.fst) : Multiset ℕ) =
      (popped trace : Multiset ℕ) + (asSpan ⟨[2, 1], 1⟩ : Multiset ℕ) := by
  intro trace
  have hruns : Runs (Call id) {} trace ⟨[2, 1], 1⟩ :=
    .cons ⟨trivial, rfl⟩ (.cons ⟨trivial, rfl⟩ (.cons ⟨Nat.zero_le _, rfl⟩ (.nil _)))
  exact (runs_conserve hruns).1

/-- After a `pop`, `pop_rand` returns the value that has been popped and loses the other one. -/
theorem popRand_twice :
    ∃ ops outs q, runProgram (step id) ops ({} : VectorQueue ℕ) = .ok (outs, q) ∧
      (pushed ops : Multiset ℕ) ≠ outs.flatten + q.asSpan :=
  ⟨[.push 1, .push 2, .pop, .popRand 0], [[], [], [1], [1]], ⟨[2, 1], 2⟩, rfl, by decide⟩

end VectorQueue

end PxcCore
