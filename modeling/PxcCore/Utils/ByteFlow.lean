import Mathlib
import PxcCore.Lib.Result

/-!
# Stages of a byte flow

`ByteFlowBaseCommon` of `ByteFlow.h`: a stage calls its `loop` as long as the watermarks of its
input and of its output allow it.  The buffers, the parent and the data of the class that defines
`loop` are a state of any type.
-/

namespace PxcCore.ByteFlow

open Lib

/-! ## The bookkeeping -/

/-- Why `wakeup` does not return. -/
inductive Fault where
  | check
  | rounds
deriving DecidableEq

/-- `ByteFlowBaseCommon::Watermark` -/
structure Watermark where
  low : ℕ := 2 ^ 64 - 1
  high : ℕ := 0
deriving DecidableEq

/-- `ByteFlowBaseCommon::Options` -/
structure Options where
  writeWatermark : Watermark := {}
  readWatermark : Watermark := {}
deriving DecidableEq

/-- The members of `ByteFlowBaseCommon`, with `input_` and `parent_` as whether they are set. -/
structure Base where
  waitingFlag : Bool := false
  hasInput : Bool := false
  isInputActive : Bool := true
  needSize : ℕ := 0
  canRead : Bool := true
  canWrite : Bool := true
  options : Options := {}
  hasParent : Bool := false
  stopFlag : Bool := false
deriving DecidableEq

/-- `set_options` -/
def Base.setOptions (b : Base) (options : Options) : Base := { b with options }

/-- `finish`, in the stage itself. -/
def Base.finish (b : Base) : Base :=
  { b with stopFlag := true, needSize := 0, hasParent := false }

/-- What a `loop` does to the members of the base class. -/
inductive Call where
  | finish
  | setNeedSize (needSize : ℕ)
  | consumeInput
deriving DecidableEq

/-- The members after a call. -/
def Base.call (b : Base) : Call → Base
  | .finish => b.finish
  | .setNeedSize needSize => { b with needSize }
  | .consumeInput =>
    let b := { b with waitingFlag := true }
    if !b.isInputActive then b.finish else b

/-- The update of `can_read` in `wakeup`. -/
def Base.nextCanRead (b : Base) (readSize : ℕ) : Bool :=
  if b.isInputActive then
    let canRead :=
      if readSize < min b.needSize b.options.readWatermark.low then false else b.canRead
    if readSize ≥ max b.needSize b.options.readWatermark.high then true else canRead
  else true

/-- The update of `can_write` in `wakeup`. -/
def Base.nextCanWrite (b : Base) (writeSize : ℕ) : Bool :=
  let canWrite :=
    if writeSize > b.options.writeWatermark.high then false else b.canWrite
  if writeSize ≤ b.options.writeWatermark.low then true else canWrite

@[simp] theorem Base.nextCanWrite_canRead (b : Base) (canRead : Bool) (writeSize : ℕ) :
    { b with canRead }.nextCanWrite writeSize = b.nextCanWrite writeSize := rfl

/-! ## Stages -/

/-- A class that is derived from `ByteFlowBaseCommon`, with the buffers and the parent it works on.
The sizes are those after `sync_with_writer`, and what `close_input` of the parent does in `finish`
is part of the state that `loop` leaves behind. -/
structure Stage (σ : Type) where
  /-- `get_read_size` -/
  readSize : σ → ℕ
  /-- `parent_->get_read_size` -/
  parentReadSize : σ → ℕ
  /-- `loop`: its result and its calls. -/
  loop : Base → σ → Bool × List Call × σ
  /-- `parent_->close_input` -/
  parentCloseInput : σ → σ
  /-- `parent_->wakeup` -/
  parentWakeup : σ → σ

namespace Stage

variable {σ : Type}

/-- `get_write_size` -/
def getWriteSize (S : Stage σ) (b : Base) (s : σ) : Except Fault ℕ :=
  if b.hasParent then return S.parentReadSize s else throw .check

/-- What `wakeup` does with the result of `loop`. -/
def afterLoop (S : Stage σ) (progress : Bool) (b : Base) (s : σ) : Base :=
  if !progress then
    if b.needSize ≤ S.readSize s then { b with needSize := S.readSize s + 1 } else b
  else b

/-- The body of the loop of `wakeup`, and whether it goes on. -/
def body (S : Stage σ) (b : Base) (s : σ) : Except Fault (Bool × Base × σ) :=
  if b.stopFlag then return (false, b, s)
  else do
    let b := { b with canRead := b.nextCanRead (S.readSize s) }
    let writeSize ← S.getWriteSize b s
    let b := { b with canWrite := b.nextCanWrite writeSize }
    if !b.canRead || !b.canWrite then return (false, b, s)
    else
      let b := { b with needSize := 0 }
      let (progress, calls, s) := S.loop b s
      return (true, S.afterLoop progress (calls.foldl Base.call b) s, s)

/-- The loop of `wakeup`, for so many rounds. -/
def whileLoop (S : Stage σ) : ℕ → Base → σ → Except Fault (Base × σ)
  | 0, _, _ => throw .rounds
  | rounds + 1, b, s => do
    let (more, b, s) ← S.body b s
    if more then S.whileLoop rounds b s else return (b, s)

/-- `wakeup` -/
def wakeup (S : Stage σ) (rounds : ℕ) (b : Base) (s : σ) : Except Fault (Base × σ) :=
  if b.stopFlag || !b.hasInput then return (b, s)
  else if b.waitingFlag then
    if !b.isInputActive then return (b.finish, if b.hasParent then S.parentCloseInput s else s)
    else return (b, s)
  else do
    let (b, s) ← S.whileLoop rounds b s
    return (b, if b.hasParent then S.parentWakeup s else s)

/-- `wakeup` returns. -/
def Returns (S : Stage σ) (b : Base) (s : σ) : Prop := ∃ rounds r, S.wakeup rounds b s = .ok r

/-- A `loop` that returns false whenever it makes no progress.  Progress is a step down in an order
in which there are no endless ways down, or the end of the stage; no more of the input arrives
meanwhile. -/
structure Honest (S : Stage σ) (more : σ → σ → Prop) : Prop where
  wf : WellFounded more
  input : ∀ b s, S.readSize (S.loop b s).2.2 ≤ S.readSize s
  progress : ∀ b s, (S.loop b s).1 = true →
    more (S.loop b s).2.2 s ∨ Call.finish ∈ (S.loop b s).2.1

end Stage

/-- `operator>>` gives a stage a parent, which it has until it is finished. -/
def Base.Connected (b : Base) : Prop := b.stopFlag = false → b.hasParent = true

/-- `wakeup` calls `loop` at all, for an input and an output of these sizes. -/
def Base.CallsLoop (b : Base) (readSize writeSize : ℕ) : Prop :=
  b.stopFlag = false ∧ b.hasInput = true ∧ b.waitingFlag = false ∧
    b.nextCanRead readSize = true ∧ b.nextCanWrite writeSize = true

instance instDecidableCallsLoop (b : Base) (readSize writeSize : ℕ) :
    Decidable (b.CallsLoop readSize writeSize) :=
  inferInstanceAs (Decidable (_ ∧ _))

/-! ## What the calls leave alone -/

/-- What `b'` has kept of `b`, whose input is open. -/
structure Base.Kept (b b' : Base) : Prop where
  isInputActive : b'.isInputActive = b.isInputActive
  options : b'.options = b.options
  stopFlag : b.stopFlag = true → b'.stopFlag = true
  connected : b.Connected → b'.Connected

theorem Base.Kept.refl (b : Base) : b.Kept b := ⟨rfl, rfl, id, id⟩

theorem Base.Kept.trans {b b' b'' : Base} (h : b.Kept b') (h' : b'.Kept b'') : b.Kept b'' where
  isInputActive := h'.isInputActive.trans h.isInputActive
  options := h'.options.trans h.options
  stopFlag hstop := h'.stopFlag (h.stopFlag hstop)
  connected hconn := h'.connected (h.connected hconn)

theorem Base.kept_finish (b : Base) : b.Kept b.finish :=
  ⟨rfl, rfl, fun _ ↦ rfl, fun _ hstop ↦ by simp [Base.finish] at hstop⟩

theorem Base.kept_call (b : Base) (c : Call) : b.Kept (b.call c) := by
  cases c with
  | finish => exact b.kept_finish
  | setNeedSize needSize => exact ⟨rfl, rfl, id, id⟩
  | consumeInput =>
    have hwaiting : b.Kept { b with waitingFlag := true } := ⟨rfl, rfl, id, id⟩
    rw [Base.call]
    split_ifs
    · exact hwaiting.trans (Base.kept_finish _)
    · exact hwaiting

theorem Base.kept_calls (b : Base) (calls : List Call) : b.Kept (calls.foldl Base.call b) := by
  induction calls generalizing b with
  | nil => exact .refl b
  | cons c calls ih => exact (b.kept_call c).trans (ih (b.call c))

theorem Base.stopFlag_calls (b : Base) {calls : List Call} (h : Call.finish ∈ calls) :
    (calls.foldl Base.call b).stopFlag = true := by
  obtain ⟨before, after, rfl⟩ := List.append_of_mem h
  rw [List.foldl_append, List.foldl_cons]
  exact (Base.kept_calls _ after).stopFlag rfl

namespace Stage

variable {σ : Type} {S : Stage σ} {b b' : Base} {s s' : σ} {more : σ → σ → Prop}

theorem kept_afterLoop (progress : Bool) (b : Base) (s : σ) :
    b.Kept (S.afterLoop progress b s) := by
  rw [afterLoop]
  split_ifs
  · exact ⟨rfl, rfl, id, id⟩
  · exact .refl b
  · exact .refl b

/-- A `loop` that reports no progress asks for more than there is. -/
theorem lt_needSize_afterLoop (b : Base) (s : σ) :
    S.readSize s < (S.afterLoop false b s).needSize := by
  rw [afterLoop, if_pos (by rfl)]
  split_ifs with hle
  · exact Nat.lt_succ_self _
  · exact Nat.lt_of_not_le hle

/-! ## The loop -/

/-- The members as `loop` finds them. -/
def beforeLoop (S : Stage σ) (b : Base) (s : σ) : Base :=
  { b with
    canRead := b.nextCanRead (S.readSize s)
    canWrite := b.nextCanWrite (S.parentReadSize s)
    needSize := 0 }

/-- The members after a call of `loop`. -/
def next (S : Stage σ) (b : Base) (s : σ) : Base :=
  S.afterLoop (S.loop (S.beforeLoop b s) s).1
    ((S.loop (S.beforeLoop b s) s).2.1.foldl Base.call (S.beforeLoop b s))
    (S.loop (S.beforeLoop b s) s).2.2

theorem kept_next (b : Base) (s : σ) : b.Kept (S.next b s) :=
  have hbefore : b.Kept (S.beforeLoop b s) := ⟨rfl, rfl, id, id⟩
  hbefore.trans ((Base.kept_calls _ _).trans (kept_afterLoop _ _ _))

theorem body_stop (h : b.stopFlag = true) : S.body b s = .ok (false, b, s) := by
  rw [body, if_pos h]
  rfl

theorem getWriteSize_eq (hconn : b.Connected) (hstop : b.stopFlag = false) (canRead : Bool) :
    S.getWriteSize { b with canRead } s = .ok (S.parentReadSize s) :=
  if_pos (hconn hstop)

/-- The loop is over when one of the flags is cleared. -/
theorem body_break (hconn : b.Connected)
    (h : b.nextCanRead (S.readSize s) = false ∨ b.nextCanWrite (S.parentReadSize s) = false) :
    ∃ b', S.body b s = .ok (false, b', s) := by
  cases hstop : b.stopFlag with
  | true => exact ⟨b, body_stop hstop⟩
  | false =>
    refine ⟨{ b with
      canRead := b.nextCanRead (S.readSize s)
      canWrite := b.nextCanWrite (S.parentReadSize s) }, ?_⟩
    rw [body, if_neg (Bool.eq_false_iff.mp hstop)]
    simp only [getWriteSize_eq hconn hstop, ok_bind, Base.nextCanWrite_canRead]
    rcases h with h | h
    · simp only [h, Bool.not_false, Bool.true_or, if_true]
      rfl
    · simp only [h, Bool.not_false, Bool.or_true, if_true]
      rfl

theorem body_loop (hconn : b.Connected) (hstop : b.stopFlag = false)
    (hread : b.nextCanRead (S.readSize s) = true)
    (hwrite : b.nextCanWrite (S.parentReadSize s) = true) :
    S.body b s = .ok (true, S.next b s, (S.loop (S.beforeLoop b s) s).2.2) := by
  rw [body, if_neg (Bool.eq_false_iff.mp hstop)]
  simp only [getWriteSize_eq hconn hstop, ok_bind, Base.nextCanWrite_canRead, hread, hwrite,
    Bool.not_true, Bool.or_self, Bool.false_eq_true, if_false, next, beforeLoop]
  rfl

/-- The loop of `wakeup` ends. -/
def Ends (S : Stage σ) (b : Base) (s : σ) : Prop := ∃ rounds r, S.whileLoop rounds b s = .ok r

theorem ends_of_break (h : S.body b s = .ok (false, b', s')) : S.Ends b s :=
  ⟨1, (b', s'), by simp [whileLoop, h, pure_eq_ok]⟩

theorem Ends.of_next (hconn : b.Connected) (hstop : b.stopFlag = false)
    (hread : b.nextCanRead (S.readSize s) = true)
    (hwrite : b.nextCanWrite (S.parentReadSize s) = true)
    (h : S.Ends (S.next b s) (S.loop (S.beforeLoop b s) s).2.2) : S.Ends b s := by
  obtain ⟨rounds, r, hrun⟩ := h
  exact ⟨rounds + 1, r, by simp [whileLoop, body_loop hconn hstop hread hwrite, hrun]⟩

/-- A stage that asks for more than there is, and for less than the low watermark, is not called. -/
theorem nextCanRead_eq_false (hopen : b.isInputActive = true) (hneed : S.readSize s < b.needSize)
    (hlow : S.readSize s < b.options.readWatermark.low) :
    b.nextCanRead (S.readSize s) = false := by
  rw [Base.nextCanRead, if_pos hopen, if_pos (lt_min hneed hlow),
    if_neg (not_le.mpr (lt_max_of_lt_left hneed))]

/-- Below the low watermark, the loop ends: a call that makes no progress is the last one, and there
is no endless progress. -/
theorem Honest.ends (h : S.Honest more) (hopen : b.isInputActive = true) (hconn : b.Connected)
    (hlow : S.readSize s < b.options.readWatermark.low) : S.Ends b s := by
  induction s using h.wf.induction generalizing b with
  | h s ih =>
  cases hstop : b.stopFlag with
  | true => exact ends_of_break (body_stop hstop)
  | false =>
    cases hread : b.nextCanRead (S.readSize s) with
    | false =>
      obtain ⟨b', hbody⟩ := body_break (S := S) hconn (.inl hread)
      exact ends_of_break hbody
    | true =>
      cases hwrite : b.nextCanWrite (S.parentReadSize s) with
      | false =>
        obtain ⟨b', hbody⟩ := body_break (S := S) hconn (.inr hwrite)
        exact ends_of_break hbody
      | true =>
        refine .of_next hconn hstop hread hwrite ?_
        have hkept := kept_next (S := S) b s
        have hopen' := hkept.isInputActive.trans hopen
        have hconn' := hkept.connected hconn
        have hlow' : S.readSize (S.loop (S.beforeLoop b s) s).2.2 <
            (S.next b s).options.readWatermark.low := by
          rw [hkept.options]
          exact (h.input _ s).trans_lt hlow
        cases hprogress : (S.loop (S.beforeLoop b s) s).1 with
        | true =>
          rcases h.progress _ s hprogress with hmore | hfinish
          · exact ih _ hmore hopen' hconn' hlow'
          · refine ends_of_break (body_stop ?_)
            exact (kept_afterLoop _ _ _).stopFlag (Base.stopFlag_calls _ hfinish)
        | false =>
          have hneed : S.readSize (S.loop (S.beforeLoop b s) s).2.2 < (S.next b s).needSize := by
            rw [next, hprogress]
            exact lt_needSize_afterLoop _ _
          obtain ⟨b', hbody⟩ := body_break (S := S) hconn'
            (.inl (nextCanRead_eq_false hopen' hneed hlow'))
          exact ends_of_break hbody

/-! ## The stage that does nothing -/

/-- A stage with an input and an output of these sizes, which makes no progress. -/
def idle (readSize writeSize : ℕ) : Stage Unit where
  readSize _ := readSize
  parentReadSize _ := writeSize
  loop _ s := (false, [], s)
  parentCloseInput := id
  parentWakeup := id

theorem honest_idle (readSize writeSize : ℕ) :
    (idle readSize writeSize).Honest (fun _ _ ↦ False) where
  wf := ⟨fun s ↦ ⟨s, fun _ hfalse ↦ hfalse.elim⟩⟩
  input _ _ := le_rfl
  progress _ _ h := by simp [idle] at h

/-- From the low watermark on, the flag stays as it is when a stage asks for more. -/
theorem nextCanRead_eq_true {readSize : ℕ} (h : b.options.readWatermark.low ≤ readSize)
    (hread : b.canRead = true) : b.nextCanRead readSize = true := by
  rw [Base.nextCanRead, if_neg (not_lt.mpr (min_le_of_right_le h)), hread]
  split_ifs <;> rfl

/-- The update of `can_write` makes no difference when it is made again. -/
theorem nextCanWrite_again (writeSize : ℕ) :
    { b with canWrite := b.nextCanWrite writeSize }.nextCanWrite writeSize =
      b.nextCanWrite writeSize := by
  simp only [Base.nextCanWrite]
  split_ifs <;> rfl

theorem whileLoop_idle {readSize writeSize : ℕ} (hconn : b.Connected)
    (hlow : b.options.readWatermark.low ≤ readSize) (hstop : b.stopFlag = false)
    (hread : b.nextCanRead readSize = true) (hwrite : b.nextCanWrite writeSize = true)
    (rounds : ℕ) : (idle readSize writeSize).whileLoop rounds b () = .error .rounds := by
  induction rounds generalizing b with
  | zero => rfl
  | succ rounds ih =>
    simp only [whileLoop, body_loop (S := idle readSize writeSize) hconn hstop hread hwrite,
      ok_bind, if_true]
    have hkept := kept_next (S := idle readSize writeSize) b ()
    refine ih (hkept.connected hconn) (by rw [hkept.options]; exact hlow) hstop ?_ ?_
    · exact nextCanRead_eq_true (by rw [hkept.options]; exact hlow) hread
    · exact (nextCanWrite_again writeSize).trans hwrite

end Stage

/-! ## Waking up -/

namespace Stage

variable {σ : Type} {S : Stage σ} {b : Base} {s : σ}

theorem returns_of_ends (h : S.Ends b s) : S.Returns b s := by
  obtain ⟨rounds, r, hrun⟩ := h
  refine ⟨rounds, ?_⟩
  simp only [wakeup, hrun, ok_bind]
  split_ifs <;> exact ⟨_, rfl⟩

/-- Without a call of `loop`, `wakeup` is done at once. -/
theorem returns_of_not_callsLoop (hconn : b.Connected)
    (h : ¬b.CallsLoop (S.readSize s) (S.parentReadSize s)) : S.Returns b s := by
  by_cases hearly : (b.stopFlag || !b.hasInput) = true
  · exact ⟨0, (b, s), by rw [wakeup, if_pos hearly]; rfl⟩
  by_cases hwaiting : b.waitingFlag = true
  · rw [Returns]
    simp only [wakeup, if_neg hearly, if_pos hwaiting]
    split_ifs <;> exact ⟨0, _, rfl⟩
  · obtain ⟨b', hbody⟩ : ∃ b', S.body b s = .ok (false, b', s) := by
      refine body_break hconn ?_
      by_contra hflags
      simp only [not_or, Bool.not_eq_false] at hflags
      simp only [Bool.or_eq_true, Bool.not_eq_true', not_or, Bool.not_eq_true,
        Bool.not_eq_false] at hearly
      exact h ⟨hearly.1, hearly.2, Bool.not_eq_true _ ▸ hwaiting, hflags.1, hflags.2⟩
    exact returns_of_ends (ends_of_break hbody)

end Stage

/-- For an open input, every honest stage comes back from `wakeup` exactly if there is less to read
than the low watermark, or `loop` is not called at all. -/
theorem wakeup_returns_iff {b : Base} (hopen : b.isInputActive = true) (hconn : b.Connected)
    (readSize writeSize : ℕ) :
    (∀ (σ : Type) (S : Stage σ) (more : σ → σ → Prop) (s : σ), S.Honest more →
      S.readSize s = readSize → S.parentReadSize s = writeSize → S.Returns b s) ↔
    readSize < b.options.readWatermark.low ∨ ¬b.CallsLoop readSize writeSize := by
  constructor
  · intro hall
    by_contra hcond
    obtain ⟨hlow, hcalls⟩ := not_or.mp hcond
    obtain ⟨hstop, hinput, hwaiting, hread, hwrite⟩ := not_not.mp hcalls
    obtain ⟨rounds, r, hrun⟩ := hall Unit (.idle readSize writeSize) _ ()
      (Stage.honest_idle readSize writeSize) rfl rfl
    rw [Stage.wakeup, hstop, hinput, hwaiting,
      Stage.whileLoop_idle hconn (not_lt.mp hlow) hstop hread hwrite] at hrun
    simp at hrun
  · intro hcond σ S more s hhonest hr hw
    subst hr hw
    rcases hcond with hlow | hcalls
    · exact Stage.returns_of_ends (hhonest.ends hopen hconn hlow)
    · exact Stage.returns_of_not_callsLoop hconn hcalls

/-- A stage that is connected. -/
def connected : Base := { hasInput := true, hasParent := true }

/-- With a low watermark of zero, a stage that waits for its first byte is called for ever. -/
theorem wakeup_fails : ∃ (S : Stage Unit) (more : Unit → Unit → Prop), S.Honest more ∧
    ¬S.Returns (connected.setOptions { readWatermark := { low := 0 } }) () := by
  refine ⟨.idle 0 0, _, Stage.honest_idle 0 0, ?_⟩
  rintro ⟨rounds, r, hrun⟩
  rw [Stage.wakeup, if_neg (by decide), if_neg (by decide),
    Stage.whileLoop_idle (fun _ ↦ rfl) (Nat.zero_le 0) rfl rfl rfl] at hrun
  simp at hrun

/-- The default watermarks, with 3 bytes to read. -/
theorem wakeup_returns_default : (Stage.idle 3 0).Returns connected () :=
  (wakeup_returns_iff (b := connected) rfl (fun _ ↦ rfl) 3 0).mpr (.inl (by decide)) Unit
    (.idle 3 0) _ () (Stage.honest_idle 3 0) rfl rfl

end PxcCore.ByteFlow
