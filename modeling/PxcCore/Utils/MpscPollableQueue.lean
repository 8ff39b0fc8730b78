import PxcCore.Lib.Traces

/-!
# MpscPollableQueue

`MpscPollableQueue.h`: many threads put values, one takes them, and sleeps on an event fd when there
are none.  What a thread does under the lock is one step, but for the accesses to the event fd,
which others reach without it.
-/

namespace PxcCore.MpscPollableQueue

open Lib

/-! ## Definitions -/

/-- Where the reader is: outside of `reader_wait_nonblock`, the last call of which has returned this
number, at the begin of the first or of the second round of its loop, or in the first one, with the
lock, before `event_fd_.acquire()`. -/
inductive Position where
  | outside (last : Option ℕ)
  | round (second : Bool)
  | acquire
deriving DecidableEq

/-- The queue and its event fd, and which threads have let go of the lock and will call
`event_fd_.release()`. -/
structure Queue (W T : Type) where
  waitEventFd : Bool := false
  eventFd : ℕ := 0
  writerVector : List T := []
  readerVector : List T := []
  readerPos : ℕ := 0
  position : Position := .outside none
  releasing : W → Bool := fun _ ↦ false

/-- What a thread does next. -/
inductive Step (W T : Type) where
  | writerPut (w : W) (value : T)
  | release (w : W)
  | readerWaitNonblock
  | lock
  | acquire
  | readerGetUnsafe

/-- What others see of a step. -/
inductive Event (T : Type) where
  | put (value : T)
  | ready (n : ℕ)
  | get (value : T)
deriving DecidableEq

/-- `narrow_cast<int>`, which stops the program if the number does not fit. -/
def narrowCast (n : ℕ) : Option ℕ := if n < 2 ^ 31 then some n else none

variable {W T : Type}

namespace Queue

variable [DecidableEq W]

/-- `writer_put`, up to `event_fd_.release()`. -/
def writerPut (st : Queue W T) (w : W) (value : T) : Queue W T :=
  { st with
    writerVector := st.writerVector ++ [value]
    waitEventFd := false
    releasing := Function.update st.releasing w st.waitEventFd }

/-- The call returns. -/
def returns (st : Queue W T) (n : ℕ) : Queue W T × List (Event T) :=
  ({ st with position := .outside (some n) }, [.ready n])

/-- A round of the loop of `reader_wait_nonblock`, up to `event_fd_.acquire()`. -/
def lock (st : Queue W T) (second : Bool) : Option (Queue W T × List (Event T)) :=
  if st.writerVector.isEmpty then
    if second then
      some ({ st with readerVector := [], readerPos := 0, waitEventFd := true }.returns 0)
    else some ({ st with position := .acquire }, [])
  else
    (narrowCast st.writerVector.length).map
      { st with readerVector := st.writerVector, readerPos := 0, writerVector := [] }.returns

/-- One step, with what others see of it, or `none` if it cannot be made, or stops the program. -/
def step (st : Queue W T) : Step W T → Option (Queue W T × List (Event T))
  | .writerPut w value =>
    if st.releasing w = false ∧ st.position ≠ .acquire then
      some (st.writerPut w value, [.put value])
    else none
  | .release w =>
    if st.releasing w then
      some ({ st with
        eventFd := st.eventFd + 1, releasing := Function.update st.releasing w false }, [])
    else none
  | .readerWaitNonblock =>
    match st.position with
    | .outside _ =>
      let ready := st.readerVector.length - st.readerPos
      if ready ≠ 0 then (narrowCast ready).map st.returns
      else some ({ st with position := .round false }, [])
    | _ => none
  | .lock =>
    match st.position with
    | .round second => st.lock second
    | _ => none
  | .acquire =>
    match st.position with
    | .acquire => some ({ st with eventFd := 0, position := .round true }, [])
    | _ => none
  | .readerGetUnsafe =>
    match st.position, st.readerVector[st.readerPos]? with
    | .outside _, some value => some ({ st with readerPos := st.readerPos + 1 }, [.get value])
    | _, _ => none

/-- `is_empty` -/
def isEmpty (st : Queue W T) : Bool := st.writerVector.isEmpty && st.readerVector.isEmpty

end Queue

/-! ## What the queue is for -/

/-- The values that wait, and how many the reader may take. -/
structure Fifo (T : Type) where
  content : List T := []
  ready : ℕ := 0

/-- What an event does, if it may happen.  The reader is told to sleep only if no value waits, no
more values are ready than wait, and the first one is taken. -/
def Fifo.step [DecidableEq T] (q : Fifo T) : Event T → Option (Fifo T)
  | .put value => some { q with content := q.content ++ [value] }
  | .ready n =>
    if n ≤ q.content.length ∧ (n = 0 → q.content = []) then some { q with ready := n } else none
  | .get value =>
    if q.content.head? = some value ∧ q.ready ≠ 0 then
      some { content := q.content.tail, ready := q.ready - 1 }
    else none

namespace Event

/-- The value that is put. -/
def put? : Event T → Option T
  | .put value => some value
  | _ => none

/-- The value that is taken. -/
def get? : Event T → Option T
  | .get value => some value
  | _ => none

end Event

namespace Fifo

variable [DecidableEq T] {q q' : Fifo T} {e : Event T}

theorem content_step (h : q.step e = some q') :
    q.content ++ e.put?.toList = e.get?.toList ++ q'.content := by
  cases e with
  | put value =>
    obtain rfl := Option.some.inj h
    rfl
  | ready n =>
    obtain ⟨-, rfl⟩ := (Option.ite_none_right_eq_some.mp h).imp_right Option.some.inj
    exact List.append_nil _
  | get value =>
    obtain ⟨⟨hhead, -⟩, rfl⟩ := (Option.ite_none_right_eq_some.mp h).imp_right Option.some.inj
    rw [List.head?_eq_some_iff] at hhead
    obtain ⟨rest, hcontent⟩ := hhead
    simp [Event.put?, Event.get?, hcontent]

end Fifo

/-! ## The queue does what it should -/

namespace Queue

/-- The queue is in this state. -/
structure Holds (st : Queue W T) (q : Fifo T) : Prop where
  content : q.content = st.readerVector.drop st.readerPos ++ st.writerVector
  ready : st.readerPos + q.ready = st.readerVector.length
  inside : (∀ last, st.position ≠ .outside last) → q.ready = 0
  flag : st.waitEventFd → st.writerVector = []
  asleep : st.position = .outside (some 0) → q.ready = 0
  armed : st.position = .outside (some 0) → st.writerVector = [] → st.waitEventFd
  wakes : st.position = .outside (some 0) → st.waitEventFd = false →
    0 < st.eventFd ∨ ∃ w, st.releasing w

variable {st st' : Queue W T} {q : Fifo T} {w : W} {value : T}

theorem holds_init : Holds ({} : Queue W T) {} where
  content := rfl
  ready := rfl
  inside h := absurd rfl (h none)
  flag h := by cases h
  asleep h := by cases h
  armed h := by cases h
  wakes h := by cases h

theorem Holds.le (h : st.Holds q) : q.ready ≤ q.content.length := by
  rw [h.content, List.length_append, List.length_drop, ← h.ready]
  omega

theorem Holds.content_of_ready (h : st.Holds q) (hready : q.ready = 0) :
    q.content = st.writerVector := by
  have hall := h.ready
  rw [hready, Nat.add_zero] at hall
  rw [h.content, List.drop_eq_nil_of_le hall.ge, List.nil_append]

theorem holds_lock [DecidableEq T] {second : Bool} {events : List (Event T)} (h : st.Holds q)
    (hround : st.position = .round second) (hlock : st.lock second = some (st', events)) :
    ∃ q', events.foldlM Fifo.step q = some q' ∧ st'.Holds q' := by
  have hready : q.ready = 0 := h.inside fun last ↦ hround ▸ nofun
  have hcontent := h.content_of_ready hready
  unfold lock at hlock
  split_ifs at hlock with hempty hsecond
  · obtain ⟨rfl, rfl⟩ := Prod.mk.inj (Option.some.inj hlock)
    have hnil : q.content = [] := hcontent.trans (List.isEmpty_iff.mp hempty)
    refine ⟨{ q with ready := 0 }, ?_, ?_⟩
    · simp [Fifo.step, hnil]
    · refine ⟨?_, rfl, fun _ ↦ rfl, fun _ ↦ List.isEmpty_iff.mp hempty, fun _ ↦ rfl,
        fun _ _ ↦ rfl, fun _ hflag ↦ (by cases hflag)⟩
      exact hcontent
  · obtain ⟨rfl, rfl⟩ := Prod.mk.inj (Option.some.inj hlock)
    exact ⟨q, rfl, h.content, h.ready, fun _ ↦ hready, h.flag, fun hp ↦ (by cases hp),
      fun hp ↦ (by cases hp), fun hp ↦ (by cases hp)⟩
  · obtain ⟨n, hn, hlock⟩ := Option.map_eq_some_iff.mp hlock
    obtain ⟨rfl, rfl⟩ := Prod.mk.inj hlock
    obtain ⟨-, rfl⟩ := (Option.ite_none_right_eq_some.mp hn).imp_right Option.some.inj
    have hne : st.writerVector ≠ [] := fun hnil ↦ hempty (List.isEmpty_iff.mpr hnil)
    have hlength : st.writerVector.length ≠ 0 := mt List.length_eq_zero_iff.mp hne
    refine ⟨{ q with ready := st.writerVector.length }, ?_, ?_⟩
    · simp [Fifo.step, hcontent, hne]
    · refine ⟨?_, Nat.zero_add _, fun hinside ↦ absurd rfl (hinside _), fun _ ↦ rfl,
        fun hasleep ↦ ?_, fun hasleep ↦ ?_, fun hasleep ↦ ?_⟩
      · exact hcontent.trans (List.append_nil _).symm
      all_goals
        refine absurd ?_ hlength
        simpa [returns] using hasleep

variable [DecidableEq W]

theorem holds_writerPut (h : st.Holds q) (hw : st.releasing w = false) :
    (st.writerPut w value).Holds { q with content := q.content ++ [value] } := by
  refine ⟨?_, h.ready, h.inside, fun hflag ↦ (by cases hflag), h.asleep, fun _ hempty ↦ ?_,
    fun hasleep _ ↦ ?_⟩
  · rw [h.content, List.append_assoc]
    rfl
  · simp [writerPut] at hempty
  · change 0 < st.eventFd ∨ ∃ w', Function.update st.releasing w st.waitEventFd w'
    cases hflag : st.waitEventFd with
    | true => exact .inr ⟨w, Function.update_self ..⟩
    | false =>
      refine (h.wakes hasleep hflag).imp_right fun ⟨w', hw'⟩ ↦ ⟨w', ?_⟩
      rwa [Function.update_of_ne]
      rintro rfl
      rw [hw] at hw'
      cases hw'

theorem holds_release (h : st.Holds q) :
    ({ st with eventFd := st.eventFd + 1, releasing := Function.update st.releasing w false } :
      Queue W T).Holds q :=
  { h with wakes := fun _ _ ↦ .inl (Nat.succ_pos _) }

/-- What others see of a step is what the queue is for. -/
theorem holds_step [DecidableEq T] {x : Step W T} {events : List (Event T)} (h : st.Holds q)
    (hstep : st.step x = some (st', events)) :
    ∃ q', events.foldlM Fifo.step q = some q' ∧ st'.Holds q' := by
  cases x with
  | writerPut w value =>
    obtain ⟨⟨hw, -⟩, hstep⟩ := Option.ite_none_right_eq_some.mp hstep
    obtain ⟨rfl, rfl⟩ := Prod.mk.inj (Option.some.inj hstep)
    exact ⟨_, rfl, holds_writerPut h hw⟩
  | release w =>
    obtain ⟨-, hstep⟩ := Option.ite_none_right_eq_some.mp hstep
    obtain ⟨rfl, rfl⟩ := Prod.mk.inj (Option.some.inj hstep)
    exact ⟨q, rfl, holds_release h⟩
  | readerWaitNonblock =>
    simp only [step] at hstep
    split at hstep
    case h_2 => cases hstep
    have hready : q.ready = st.readerVector.length - st.readerPos := by
      have hall := h.ready
      omega
    split_ifs at hstep with hne
    · obtain ⟨n, hn, hstep⟩ := Option.map_eq_some_iff.mp hstep
      obtain ⟨rfl, rfl⟩ := Prod.mk.inj hstep
      obtain ⟨-, rfl⟩ := (Option.ite_none_right_eq_some.mp hn).imp_right Option.some.inj
      rw [← hready] at hne ⊢
      refine ⟨q, ?_, h.content, h.ready, fun hinside ↦ absurd rfl (hinside _), h.flag,
        fun hasleep ↦ ?_, fun hasleep ↦ ?_, fun hasleep ↦ ?_⟩
      · simp [Fifo.step, h.le, hne]
      all_goals
        refine absurd ?_ hne
        simpa [returns] using hasleep
    · obtain ⟨rfl, rfl⟩ := Prod.mk.inj (Option.some.inj hstep)
      exact ⟨q, rfl, h.content, h.ready, fun _ ↦ hready.trans (not_not.mp hne), h.flag,
        fun hp ↦ (by cases hp), fun hp ↦ (by cases hp), fun hp ↦ (by cases hp)⟩
  | lock =>
    simp only [step] at hstep
    split at hstep
    case h_2 => cases hstep
    exact holds_lock h ‹_› hstep
  | acquire =>
    simp only [step] at hstep
    split at hstep
    case h_2 => cases hstep
    rename_i hposition
    obtain ⟨rfl, rfl⟩ := Prod.mk.inj (Option.some.inj hstep)
    exact ⟨q, rfl, h.content, h.ready, fun _ ↦ h.inside fun last ↦ hposition ▸ nofun, h.flag,
      fun hp ↦ (by cases hp), fun hp ↦ (by cases hp), fun hp ↦ (by cases hp)⟩
  | readerGetUnsafe =>
    simp only [step] at hstep
    split at hstep
    case h_2 => cases hstep
    rename_i last value hposition hvalue
    obtain ⟨rfl, rfl⟩ := Prod.mk.inj (Option.some.inj hstep)
    obtain ⟨hlt, hvalue⟩ := List.getElem?_eq_some_iff.mp hvalue
    have hcontent := h.content
    rw [List.drop_eq_getElem_cons hlt, hvalue] at hcontent
    have hready : q.ready ≠ 0 := by
      have hall := h.ready
      omega
    refine ⟨{ content := q.content.tail, ready := q.ready - 1 }, ?_, ?_, ?_, fun hinside ↦ ?_,
      h.flag, fun hasleep ↦ ?_, h.armed, h.wakes⟩
    · simp [Fifo.step, hcontent, hready]
    · rw [hcontent]
      rfl
    · have hall := h.ready
      simp only
      omega
    · exact absurd hposition (hinside last)
    · exact absurd (h.asleep hasleep) hready

/-- What the events say of the queue, and when the reader wakes up. -/
structure Serves (st : Queue W T) [DecidableEq T] (events : List (Event T)) (q : Fifo T) :
    Prop where
  allowed : events.foldlM Fifo.step {} = some q
  inOrder : events.filterMap Event.put? = events.filterMap Event.get? ++ q.content
  isEmpty : st.isEmpty → q.content = []
  armed : st.position = .outside (some 0) → q.content = [] → st.waitEventFd
  wakes : st.position = .outside (some 0) → q.content ≠ [] → 0 < st.eventFd ∨ ∃ w, st.releasing w

/-- However the threads take turns, the reader takes the values in the order in which they have been
put, and is told to sleep only if there are none.  While it sleeps, and a value has been put, the
event fd is or will be released. -/
theorem run_wakes [DecidableEq T] {xs : List (Step W T)} {events : List (Event T)}
    (hrun : runTrace step xs {} = some (st, events)) : ∃ q, st.Serves events q := by
  obtain ⟨q, hallowed, h⟩ := exists_of_runTrace holds_step holds_init hrun
  refine ⟨q, hallowed, foldlM_inOrder (fun _ _ _ _ ↦ Fifo.content_step) hallowed, fun hempty ↦ ?_,
    fun hasleep hnil ↦ ?_, fun hasleep hne ↦ ?_⟩
  · obtain ⟨hwriter, hreader⟩ := Bool.and_eq_true_iff.mp hempty
    rw [h.content, List.isEmpty_iff.mp hwriter, List.isEmpty_iff.mp hreader, List.drop_nil,
      List.nil_append]
  all_goals rw [h.content_of_ready (h.asleep hasleep)] at *
  · exact h.armed hasleep hnil
  · exact h.wakes hasleep (Bool.eq_false_iff.mpr (mt h.flag hne))

/-- A value is put while the reader looks for one in vain, and another one after that. -/
theorem run_wakes_race : ∃ (st : Queue Bool ℕ) (events : List (Event ℕ)) (q : Fifo ℕ),
    runTrace step [.readerWaitNonblock, .lock, .acquire, .lock, .writerPut true 5,
      .writerPut false 6] {} = some (st, events) ∧ st.position = .outside (some 0) ∧
      st.eventFd = 0 ∧ st.Serves events q := by
  have hrun : runTrace step [.readerWaitNonblock, .lock, .acquire, .lock, .writerPut true 5,
    .writerPut false 6] ({} : Queue Bool ℕ) = some (_, _) := rfl
  obtain ⟨q, hq⟩ := run_wakes hrun
  exact ⟨_, _, q, hrun, rfl, rfl, hq⟩

end Queue

end PxcCore.MpscPollableQueue
