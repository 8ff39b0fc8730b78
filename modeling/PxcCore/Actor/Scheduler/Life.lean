import PxcCore.Actor.Scheduler
import PxcCore.Lib.Families

/-!
# The life of an actor

What an actor and the schedulers that know it do, seen from the actor alone: it is registered, rests
on a scheduler, runs there, is on its way to another scheduler, and stops.
-/

namespace PxcCore.Scheduler

open Lib

/-- Where an actor is. -/
inductive Place (S : Type) where
  | unborn
  | resting (s : S)
  | running (s : S) (guard : EventGuard S)
  | migrating (d : S)
  | gone (s : S)

namespace Place

variable {S : Type}

/-- The scheduler that owns the actor. -/
def home : Place S → Option S
  | .resting s => some s
  | .running s _ => some s
  | _ => none

def isAlive : Place S → Bool
  | .unborn => false
  | .gone _ => false
  | _ => true

/-- A `Stop` event is processed, or has been. -/
def isStopping : Place S → Bool
  | .running _ guard => decide (guard.task = .stop)
  | .gone _ => true
  | _ => false

end Place

/-- The life of an actor: where it is, the events that wait for it, in its mailbox, at the scheduler
that it is on its way to and in the inbound queues, those that have been sent to it, and those that
it has processed.  A message `none` is the one that brings the actor, and `outgoing` are the queues
into which it is put next. -/
structure Life (S E : Type) where
  place : Place S := .unborn
  needStartUp : Bool := true
  mailbox : List (Event E) := []
  parked : S → List (Event E) := fun _ ↦ []
  inbound : S → List (Option (Event E)) := fun _ ↦ []
  outgoing : S → List S := fun _ ↦ []
  sent : List (Event E) := []
  log : List (Event E) := []

namespace Life

variable {S E : Type} [DecidableEq S]

/-- The actor is entered, for an event that it processes first. -/
def enter (x : Life S E) (s : S) (task : Task) (event : Event E) : Life S E :=
  { x with place := .running s { task := task }, log := x.log ++ [event] }

/-- The actor is registered by `s` for `d`. -/
def born (s d : S) (needStartUp isOpen : Bool) : Life S E :=
  let events := if isOpen && (needStartUp || decide (d ≠ s)) then [Event.start] else []
  { place := if d = s then .resting s else .migrating d
    needStartUp := needStartUp
    mailbox := events
    outgoing := Function.update (fun _ ↦ []) s (if d = s then [] else [d])
    sent := events }

/-- The actor comes to `s`. -/
def arrived (x : Life S E) (s : S) : Life S E :=
  { x with
    place := .resting s
    mailbox := x.mailbox ++ x.parked s
    parked := Function.update x.parked s [] }

/-- An event comes to scheduler `s`, which knows of this actor. -/
inductive Delivers (s : S) (event : Event E) (x : Life S E) : Life S E → Prop where
  | run : x.place = .resting s → x.mailbox = [] → Delivers s event x (x.enter s .immediate event)
  | queue : x.place.home = some s →
    Delivers s event x { x with mailbox := x.mailbox ++ [event] }
  | park : x.place = .migrating s →
    Delivers s event x
      { x with parked := Function.update x.parked s (x.parked s ++ [event]) }
  | forward (d : S) : d ≠ s →
    Delivers s event x
      { x with inbound := Function.update x.inbound d (x.inbound d ++ [some event]) }

/-- `s` can stop the actor: at the end of a run, or at any time if it is told to. -/
def CanStop (s : S) (told : Bool) (x : Life S E) : Prop :=
  (told ∧ x.place = .resting s) ∨ ∃ guard, x.place = .running s guard ∧ guard.task ≠ .stop

/-- What scheduler `s` can do to the actor in one step, in which it may be closing, and may be told
to stop actors. -/
inductive Next (s : S) (isOpen told : Bool) : Life S E → Life S E → Prop where
  | register (d : S) (needStartUp : Bool) : Next s isOpen told {} (born s d needStartUp isOpen)
  | send {x y : Life S E} (data : E) : isOpen → x.place.isAlive →
    Delivers s (.data data) { x with sent := x.sent ++ [.data data] } y →
    Next s isOpen told x y
  | receive {x y : Life S E} {event : Event E} {rest : List (Option (Event E))} :
    isOpen → x.place.isAlive → x.inbound s = some event :: rest →
    Delivers s event { x with inbound := Function.update x.inbound s rest } y →
    Next s isOpen told x y
  | drop {x : Life S E} {event : Event E} {rest : List (Option (Event E))} :
    ¬(isOpen ∧ x.place.isAlive) → x.inbound s = some event :: rest →
    Next s isOpen told x { x with inbound := Function.update x.inbound s rest }
  | flush {x : Life S E} {event : Event E} {rest : List (Event E)} (n : ℕ) :
    x.place = .resting s → x.mailbox = event :: rest →
    Next s isOpen told x { x.enter s (.flushMailbox 0 n) event with mailbox := rest }
  | flushNext {x : Life S E} {guard : EventGuard S} {event : Event E} {rest : List (Event E)}
    {i n : ℕ} : x.place = .running s guard → guard.task = .flushMailbox i n →
    x.mailbox = event :: rest →
    Next s isOpen told x
      { x with
        place := .running s { guard with task := .flushMailbox (i + 1) n }
        mailbox := rest
        log := x.log ++ [event] }
  | flag {x : Life S E} {guard guard' : EventGuard S} : x.place = .running s guard →
    guard'.task = guard.task → Next s isOpen told x { x with place := .running s guard' }
  | rest {x : Life S E} {guard : EventGuard S} : x.place = .running s guard →
    guard.task ≠ .stop → Next s isOpen told x { x with place := .resting s }
  | migrate {x : Life S E} {guard : EventGuard S} (d : S) : x.place = .running s guard →
    guard.task ≠ .stop → d ≠ s →
    Next s isOpen told x
      { x with
        place := .migrating d
        outgoing := Function.update x.outgoing s (x.outgoing s ++ [d]) }
  | startMigrate {x : Life S E} (d : S) : x.place = .resting s → d ≠ s →
    Next s isOpen told x { x with place := .migrating d }
  | put {x : Life S E} {d : S} {rest : List S} : x.outgoing s = d :: rest →
    Next s isOpen told x
      { x with
        outgoing := Function.update x.outgoing s rest
        inbound := Function.update x.inbound d (x.inbound d ++ [none]) }
  | arrive {x : Life S E} {rest : List (Option (Event E))} : x.place = .migrating s →
    x.inbound s = none :: rest →
    Next s isOpen told x ({ x with inbound := Function.update x.inbound s rest }.arrived s)
  | finishMigrate {x : Life S E} : x.place = .migrating s → Next s isOpen told x (x.arrived s)
  | stop {x : Life S E} : x.CanStop s told → x.needStartUp →
    Next s isOpen told x (x.enter s .stop .stop)
  | destroy {x : Life S E} : x.CanStop s told → ¬x.needStartUp →
    Next s isOpen told x { x with place := .gone s, mailbox := [] }
  | stopped {x : Life S E} {guard : EventGuard S} : x.place = .running s guard →
    guard.task = .stop → Next s isOpen told x { x with place := .gone s, mailbox := [] }

end Life

/-! ## Events -/

namespace Event

variable {E : Type}

def isStop : Event E → Bool
  | .stop => true
  | _ => false

def isData : Event E → Bool
  | .data _ => true
  | _ => false

@[simp] theorem isStop_data (data : E) : (Event.data data).isStop = false := rfl

theorem isStop_of_isData {event : Event E} (h : event.isData) : event.isStop = false := by
  cases event <;> first | rfl | cases h

theorem exists_data {event : Event E} (h : event.isData) : ∃ data, event = .data data := by
  cases event with
  | data data => exact ⟨data, rfl⟩
  | _ => cases h

theorem exists_map_data {events : List (Event E)} (h : ∀ event ∈ events, event.isData) :
    ∃ data : List E, events = data.map .data := by
  induction events with
  | nil => exact ⟨[], rfl⟩
  | cons event events ih =>
    obtain ⟨data, rfl⟩ := exists_data (h event List.mem_cons_self)
    obtain ⟨rest, rfl⟩ := ih fun event hmem ↦ h event (List.mem_cons_of_mem _ hmem)
    exact ⟨data :: rest, rfl⟩

end Event

/-- What the actor has processed of what it was sent. -/
def processed {E : Type} (log : List (Event E)) : List (Event E) :=
  log.filter fun event ↦ !event.isStop

/-- `start_up` runs first, then the other events are processed, and `tear_down` runs last, or it is
the only one to run. -/
inductive Callbacks {E : Type} : List (Event E) → Prop where
  | nil : Callbacks []
  | started (data : List E) : Callbacks (.start :: data.map .data)
  | stopped (data : List E) : Callbacks (.start :: data.map .data ++ [.stop])
  | unstarted : Callbacks [.stop]

section Processed

variable {E : Type} {log : List (Event E)} {event : Event E}

@[simp] theorem processed_nil : processed ([] : List (Event E)) = [] := rfl

theorem processed_concat (h : event.isStop = false) :
    processed (log ++ [event]) = processed log ++ [event] := by
  simp [processed, h]

@[simp] theorem processed_concat_stop : processed (log ++ [.stop]) = processed log := by
  simp [processed, Event.isStop]

end Processed

namespace Life

variable {S E : Type} [DecidableEq S] {s : S} {isOpen told : Bool} {event : Event E}
  {x y : Life S E}

theorem Delivers.sent (h : Delivers s event x y) : y.sent = x.sent := by
  cases h <;> rfl

omit [DecidableEq S] in
theorem ne_unborn_of_isAlive (h : x.place.isAlive) : x.place ≠ .unborn := by
  intro hplace
  rw [hplace] at h
  cases h

omit [DecidableEq S] in
theorem CanStop.isAlive (h : x.CanStop s told) : x.place.isAlive := by
  rcases h with ⟨_, h⟩ | ⟨guard, h, _⟩ <;> rw [h] <;> rfl

omit [DecidableEq S] in
theorem CanStop.isStopping (h : x.CanStop s told) : x.place.isStopping = false := by
  rcases h with ⟨_, h⟩ | ⟨guard, h, hnot⟩
  · rw [h]
    rfl
  · simp [h, Place.isStopping, hnot]

/-- What waits for an actor is no `Stop` event, and only its mailbox has a `Start` event. -/
structure Waiting (x : Life S E) : Prop where
  mailbox : ∀ event ∈ x.mailbox, event.isStop = false
  parked : ∀ s, ∀ event ∈ x.parked s, event.isData
  inbound : ∀ s, ∀ message ∈ x.inbound s, ∀ event ∈ message, event.isData

omit [DecidableEq S] in
theorem waiting_init : ({} : Life S E).Waiting where
  mailbox _ hmem := by cases hmem
  parked _ _ hmem := by cases hmem
  inbound _ _ hmem := by cases hmem

theorem Delivers.waiting (h : Delivers s event x y) (hevent : event.isData) (hx : x.Waiting) :
    y.Waiting := by
  cases h with
  | run => exact ⟨hx.mailbox, hx.parked, hx.inbound⟩
  | queue =>
    exact ⟨List.forall_mem_append.mpr ⟨hx.mailbox,
      List.forall_mem_singleton.mpr (Event.isStop_of_isData hevent)⟩, hx.parked, hx.inbound⟩
  | park =>
    exact ⟨hx.mailbox, forall_mem_update hx.parked (List.forall_mem_append.mpr
      ⟨hx.parked s, List.forall_mem_singleton.mpr hevent⟩), hx.inbound⟩
  | forward d =>
    refine ⟨hx.mailbox, hx.parked, forall_mem_update hx.inbound (List.forall_mem_append.mpr
      ⟨hx.inbound d, List.forall_mem_singleton.mpr fun event' hmem ↦ ?_⟩)⟩
    rwa [← Option.mem_some_iff.mp hmem]

theorem Waiting.arrived (hx : x.Waiting) : (x.arrived s).Waiting :=
  ⟨List.forall_mem_append.mpr
      ⟨hx.mailbox, fun event hmem ↦ Event.isStop_of_isData (hx.parked s event hmem)⟩,
    forall_mem_update hx.parked fun _ hmem ↦ (by cases hmem), hx.inbound⟩

/-- The first message of an inbound queue is read. -/
theorem Waiting.read {message : Option (Event E)} {rest : List (Option (Event E))}
    (hx : x.Waiting) (h : x.inbound s = message :: rest) :
    { x with inbound := Function.update x.inbound s rest }.Waiting :=
  ⟨hx.mailbox, hx.parked, forall_mem_update hx.inbound fun message' hmem ↦
    hx.inbound s message' (h ▸ List.mem_cons_of_mem _ hmem)⟩

omit [DecidableEq S] in
theorem Waiting.isData (hx : x.Waiting) {rest : List (Option (Event E))}
    (h : x.inbound s = some event :: rest) : event.isData :=
  hx.inbound s (some event) (h ▸ List.mem_cons_self) event rfl

theorem Waiting.next (hx : x.Waiting) (h : Next s isOpen told x y) : y.Waiting := by
  cases h with
  | register d needStartUp =>
    refine ⟨fun event hmem ↦ ?_, hx.parked, hx.inbound⟩
    simp only [born] at hmem
    split at hmem
    · rw [List.mem_singleton.mp hmem]
      rfl
    · cases hmem
  | send data _ _ hdelivers =>
    exact hdelivers.waiting rfl ⟨hx.mailbox, hx.parked, hx.inbound⟩
  | receive _ _ hinbound hdelivers =>
    exact hdelivers.waiting (hx.isData hinbound) (hx.read hinbound)
  | drop _ hinbound => exact hx.read hinbound
  | flush n _ hmailbox =>
    exact ⟨fun event hmem ↦ hx.mailbox event (hmailbox ▸ List.mem_cons_of_mem _ hmem), hx.parked,
      hx.inbound⟩
  | flushNext _ _ hmailbox =>
    exact ⟨fun event hmem ↦ hx.mailbox event (hmailbox ▸ List.mem_cons_of_mem _ hmem), hx.parked,
      hx.inbound⟩
  | @put _ d =>
    exact ⟨hx.mailbox, hx.parked, forall_mem_update hx.inbound (List.forall_mem_append.mpr
      ⟨hx.inbound d, List.forall_mem_singleton.mpr fun _ hmem ↦ (by cases hmem)⟩)⟩
  | arrive _ hinbound => exact (hx.read hinbound).arrived
  | finishMigrate => exact hx.arrived
  | destroy => exact ⟨fun _ hmem ↦ (by cases hmem), hx.parked, hx.inbound⟩
  | stopped => exact ⟨fun _ hmem ↦ (by cases hmem), hx.parked, hx.inbound⟩
  | _ => exact ⟨hx.mailbox, hx.parked, hx.inbound⟩

/-- What the actor has processed, and then its mailbox. -/
def line (x : Life S E) : List (Event E) := processed x.log ++ x.mailbox

omit [DecidableEq S] in
/-- The next event of the mailbox is processed. -/
theorem line_process {rest : List (Event E)} (h : x.mailbox = event :: rest)
    (hevent : event.isStop = false) : processed (x.log ++ [event]) ++ rest = x.line := by
  rw [line, processed_concat hevent, h, List.append_assoc, List.singleton_append]

omit [DecidableEq S] in
theorem Waiting.line_process {rest : List (Event E)} (hx : x.Waiting)
    (h : x.mailbox = event :: rest) : processed (x.log ++ [event]) ++ rest = x.line :=
  Life.line_process h (hx.mailbox event (h ▸ List.mem_cons_self))

/-- An event goes to the end of the line, or elsewhere. -/
theorem Delivers.line (h : Delivers s event x y) (hevent : event.isStop = false) :
    y.line = x.line ++ [event] ∨ y.line = x.line := by
  cases h with
  | run hplace hmailbox =>
    refine .inl ?_
    simp [Life.line, enter, processed_concat hevent, hmailbox]
  | queue => exact .inl (List.append_assoc _ _ _).symm
  | park => exact .inr rfl
  | forward => exact .inr rfl

omit [DecidableEq S] in
theorem CanStop.home (h : x.CanStop s told) : x.place.home = some s := by
  rcases h with ⟨_, h⟩ | ⟨guard, h, _⟩ <;> rw [h] <;> rfl

theorem Delivers.log (h : Delivers s event x y) : y.log = x.log ∨
    x.place.home = some s ∧ y.log = x.log ++ [event] := by
  cases h with
  | run hplace => exact .inr ⟨by rw [hplace]; rfl, rfl⟩
  | _ => exact .inl rfl

/-- The actor processes events only at home, and a `Stop` event only if it can be stopped. -/
theorem Next.log (hwaiting : x.Waiting) (h : Next s isOpen told x y) : y.log = x.log ∨
    x.place.home = some s ∧
      ∃ event, y.log = x.log ++ [event] ∧ (event = .stop → x.CanStop s told) := by
  have hdata {event : Event E} (hevent : event.isStop = false) (hstop : event = .stop) :
      x.CanStop s told := by
    rw [hstop] at hevent
    cases hevent
  cases h with
  | send data _ _ hdelivers =>
    exact hdelivers.log.imp_right fun ⟨hhome, hlog⟩ ↦ ⟨hhome, _, hlog, hdata rfl⟩
  | receive _ _ hinbound hdelivers =>
    have hevent := Event.isStop_of_isData (hwaiting.isData hinbound)
    exact hdelivers.log.imp_right fun ⟨hhome, hlog⟩ ↦ ⟨hhome, _, hlog, hdata hevent⟩
  | flush n hplace hmailbox =>
    have hevent := hwaiting.mailbox _ (hmailbox ▸ List.mem_cons_self)
    exact .inr ⟨by rw [hplace]; rfl, _, rfl, hdata hevent⟩
  | flushNext hplace _ hmailbox =>
    have hevent := hwaiting.mailbox _ (hmailbox ▸ List.mem_cons_self)
    exact .inr ⟨by rw [hplace]; rfl, _, rfl, hdata hevent⟩
  | stop hcan => exact .inr ⟨hcan.home, _, rfl, fun _ ↦ hcan⟩
  | _ => exact .inl rfl

theorem Delivers.needStartUp (h : Delivers s event x y) : y.needStartUp = x.needStartUp := by
  cases h <;> rfl

/-- Whether an actor has callbacks is said when it is registered. -/
theorem Next.needStartUp (h : Next s isOpen told x y) (hy : y.needStartUp) : x.needStartUp := by
  cases h with
  | register => rfl
  | send data _ _ hdelivers => exact hdelivers.needStartUp ▸ hy
  | receive _ _ _ hdelivers => exact hdelivers.needStartUp ▸ hy
  | _ => exact hy

/-! ## No event is lost -/

section Conserved

/-- The events among the messages. -/
def events (inbound : S → List (Option (Event E))) : S → List (Event E) :=
  fun s ↦ (inbound s).reduceOption

theorem events_update (inbound : S → List (Option (Event E))) (s : S)
    (messages : List (Option (Event E))) : events (Function.update inbound s messages) =
      Function.update (events inbound) s messages.reduceOption := by
  funext t
  rw [events, Function.update_apply, Function.update_apply, apply_ite List.reduceOption]
  rfl

variable [Fintype S]

/-- Everything that the actor has processed or that waits for it. -/
def content (x : Life S E) : Multiset (Event E) :=
  processed x.log + x.mailbox + total x.parked + total (events x.inbound)

/-- Each event that has been sent to the actor has been processed or waits for it. -/
def Conserved (x : Life S E) : Prop := x.place.isAlive → x.content = x.sent

theorem Delivers.content (h : Delivers s event x y) (hevent : event.isStop = false) :
    y.content = x.content + {event} := by
  cases h with
  | run =>
    simp only [Life.content, enter, processed_concat hevent, ← Multiset.coe_add,
      ← Multiset.coe_singleton]
    abel
  | queue =>
    simp only [Life.content, ← Multiset.coe_add, ← Multiset.coe_singleton]
    abel
  | park =>
    simp only [Life.content, total_update_append, ← Multiset.coe_singleton]
    abel
  | forward d =>
    have hmessages : (x.inbound d ++ [some event]).reduceOption =
        events x.inbound d ++ [event] := List.reduceOption_append _ _
    simp only [Life.content, events_update, hmessages, total_update_append,
      ← Multiset.coe_singleton]
    abel

theorem content_arrived : (x.arrived s).content = x.content := by
  rw [content, content, arrived, ← add_zero (total x.parked), ← Multiset.coe_nil,
    ← total_update x.parked s []]
  simp only [← Multiset.coe_add]
  abel

omit [DecidableEq S] in
theorem content_process {rest : List (Event E)} {place : Place S} (hx : x.Waiting)
    (h : x.mailbox = event :: rest) :
    { x with place := place, mailbox := rest, log := x.log ++ [event] }.content = x.content := by
  simp only [content, Multiset.coe_add, hx.line_process h]
  rfl

/-- The first message of an inbound queue is read. -/
theorem content_read {message : Option (Event E)} {rest : List (Option (Event E))}
    (h : x.inbound s = message :: rest) : x.content =
      { x with inbound := Function.update x.inbound s rest }.content + message.toList := by
  have hmessages : (events x.inbound s : Multiset (Event E)) =
      message.toList + rest.reduceOption := by
    rw [events, h, Multiset.coe_add]
    cases message <;> rfl
  have htotal := total_update (events x.inbound) s rest.reduceOption
  rw [hmessages, ← add_assoc] at htotal
  rw [content, content, events_update, ← add_right_cancel htotal,
    add_assoc _ _ (message.toList : Multiset (Event E))]

theorem Conserved.next (hx : x.Conserved) (hwaiting : x.Waiting) (h : Next s true told x y) :
    y.Conserved := by
  intro hy
  cases h with
  | register d needStartUp => simp [Life.content, born, total, events]
  | send data _ halive hdelivers =>
    rw [hdelivers.content rfl, hdelivers.sent, ← Multiset.coe_add, ← hx halive]
    rfl
  | receive _ halive hinbound hdelivers =>
    have hevent := Event.isStop_of_isData (hwaiting.isData hinbound)
    rw [hdelivers.content hevent, hdelivers.sent, ← hx halive, content_read hinbound]
    rfl
  | drop hdrop => exact absurd ⟨rfl, hy⟩ hdrop
  | flush n hplace hmailbox =>
    exact (content_process hwaiting hmailbox).trans (hx (by rw [hplace]; rfl))
  | flushNext hplace _ hmailbox =>
    exact (content_process hwaiting hmailbox).trans (hx (by rw [hplace]; rfl))
  | flag hplace => exact hx (by rw [hplace]; rfl)
  | rest hplace => exact hx (by rw [hplace]; rfl)
  | migrate d hplace => exact hx (by rw [hplace]; rfl)
  | startMigrate d hplace => exact hx (by rw [hplace]; rfl)
  | @put _ d rest =>
    have hmessages : (x.inbound d ++ [none]).reduceOption = events x.inbound d := by
      rw [List.reduceOption_append, List.reduceOption_cons_of_none, List.reduceOption_nil,
        List.append_nil]
      rfl
    refine Eq.trans ?_ (hx hy)
    simp only [content, events_update, hmessages, Function.update_eq_self]
  | arrive hplace hinbound =>
    have hcontent := content_read hinbound
    rw [Option.toList_none, Multiset.coe_nil, add_zero, hx (by rw [hplace]; rfl)] at hcontent
    exact content_arrived.trans hcontent.symm
  | finishMigrate hplace => exact content_arrived.trans (hx (by rw [hplace]; rfl))
  | stop hcan =>
    refine Eq.trans ?_ (hx hcan.isAlive)
    simp [content, enter]
  | destroy => cases hy
  | stopped => cases hy

end Conserved

/-! ## On one scheduler -/

section Ordered

variable [Subsingleton S]

/-- With one scheduler, the events that wait are in the mailbox, in the order in which they have
been sent. -/
structure Ordered (x : Life S E) : Prop where
  place : ∀ d, x.place ≠ .migrating d
  inbound : ∀ s, x.inbound s = []
  outgoing : ∀ s, x.outgoing s = []
  sent : x.place.isAlive → x.sent = x.line

omit [DecidableEq S] [Subsingleton S] in
theorem ordered_init : ({} : Life S E).Ordered where
  place _ hplace := by cases hplace
  inbound _ := rfl
  outgoing _ := rfl
  sent _ := rfl

theorem Ordered.next (hx : x.Ordered) (hwaiting : x.Waiting) (h : Next s isOpen told x y) :
    y.Ordered := by
  cases h with
  | register d needStartUp =>
    refine ⟨fun d' h ↦ ?_, fun _ ↦ rfl, fun t ↦ ?_, fun _ ↦ rfl⟩
    · simp [born, Subsingleton.elim d s] at h
    · simp [born, Subsingleton.elim d s]
  | send data _ halive hdelivers =>
    have hsent := hx.sent halive
    cases hdelivers with
    | run hplace hmailbox =>
      refine ⟨fun _ h ↦ (by cases h), hx.inbound, hx.outgoing, fun _ ↦ ?_⟩
      simp only [line, enter, processed_concat (Event.isStop_data data), hsent]
      simp [show x.mailbox = [] from hmailbox]
    | queue =>
      refine ⟨hx.place, hx.inbound, hx.outgoing, fun _ ↦ ?_⟩
      simp only [line, hsent, List.append_assoc]
    | park hplace => exact absurd hplace (hx.place s)
    | forward d hd => exact absurd (Subsingleton.elim d s) hd
  | receive _ _ hinbound => exact absurd hinbound (by simp [hx.inbound s])
  | drop _ hinbound => exact absurd hinbound (by simp [hx.inbound s])
  | flush n hplace hmailbox =>
    exact ⟨fun _ h ↦ (by cases h), hx.inbound, hx.outgoing,
      fun _ ↦ (hx.sent (by rw [hplace]; rfl)).trans (hwaiting.line_process hmailbox).symm⟩
  | flushNext hplace _ hmailbox =>
    exact ⟨fun _ h ↦ (by cases h), hx.inbound, hx.outgoing,
      fun _ ↦ (hx.sent (by rw [hplace]; rfl)).trans (hwaiting.line_process hmailbox).symm⟩
  | flag hplace =>
    exact ⟨fun _ h ↦ (by cases h), hx.inbound, hx.outgoing, fun _ ↦ hx.sent (by rw [hplace]; rfl)⟩
  | rest hplace =>
    exact ⟨fun _ h ↦ (by cases h), hx.inbound, hx.outgoing, fun _ ↦ hx.sent (by rw [hplace]; rfl)⟩
  | migrate d hplace _ hd => exact absurd (Subsingleton.elim d s) hd
  | startMigrate d _ hd => exact absurd (Subsingleton.elim d s) hd
  | put houtgoing => exact absurd houtgoing (by simp [hx.outgoing s])
  | arrive hplace => exact absurd hplace (hx.place s)
  | finishMigrate hplace => exact absurd hplace (hx.place s)
  | stop hcan =>
    refine ⟨fun _ h ↦ (by cases h), hx.inbound, hx.outgoing, fun _ ↦ ?_⟩
    simpa [line, enter] using hx.sent hcan.isAlive
  | destroy => exact ⟨fun _ h ↦ (by cases h), hx.inbound, hx.outgoing, fun h ↦ (by cases h)⟩
  | stopped => exact ⟨fun _ h ↦ (by cases h), hx.inbound, hx.outgoing, fun h ↦ (by cases h)⟩

end Ordered

/-! ## The callbacks -/

/-- A part at the front of a `Start` event and data is empty or has the `Start` event. -/
theorem eq_nil_or_start {l m : List (Event E)} {data : List E}
    (h : l ++ m = .start :: data.map .data) :
    l = [] ∨ ∃ data : List E, l = .start :: data.map .data := by
  cases l with
  | nil => exact .inl rfl
  | cons event l =>
    obtain ⟨rfl, hrest⟩ := List.cons.inj h
    obtain ⟨l₁, l₂, rfl, rfl, -⟩ := List.append_eq_map_iff.mp hrest
    exact .inr ⟨l₁, rfl⟩

/-- What holds of an actor with callbacks: its `Start` event is the first one in the line, if it has
been sent, and a `Stop` event is the last one that is processed. -/
structure Lifecycle (x : Life S E) : Prop where
  first : .start ∈ x.sent → (x.place.isAlive = false ∧ x.line = []) ∨
    ∃ data : List E, x.line = .start :: data.map .data
  running : ∀ s guard, x.place = .running s guard → guard.task ≠ .stop → processed x.log ≠ []
  last : x.log = processed x.log ++ if x.place.isStopping then [.stop] else []

namespace Lifecycle

omit [DecidableEq S] in
theorem init : ({} : Life S E).Lifecycle where
  first hsent := by cases hsent
  running _ _ hplace := by cases hplace
  last := rfl

omit [DecidableEq S] in
theorem processed (hx : x.Lifecycle) (hsent : .start ∈ x.sent) :
    Scheduler.processed x.log = [] ∨
      ∃ data : List E, Scheduler.processed x.log = .start :: data.map .data := by
  rcases hx.first hsent with ⟨_, hline⟩ | ⟨data, hline⟩
  · exact .inl (List.append_eq_nil_iff.mp hline).1
  · exact eq_nil_or_start hline

omit [DecidableEq S] in
theorem first_of_isAlive (hx : x.Lifecycle) (halive : x.place.isAlive) (hsent : .start ∈ x.sent) :
    ∃ data : List E, x.line = .start :: data.map .data :=
  (hx.first hsent).resolve_left fun h ↦ by simp [halive] at h

omit [DecidableEq S] in
theorem log_eq (hx : x.Lifecycle) (h : x.place.isStopping = false) :
    x.log = Scheduler.processed x.log := by
  simpa [h] using hx.last

theorem delivered (h : Delivers s event x y) (hevent : event.isData) (halive : x.place.isAlive)
    (hx : x.Lifecycle) : y.Lifecycle := by
  obtain ⟨data, rfl⟩ := Event.exists_data hevent
  constructor
  · intro hsent
    rw [h.sent] at hsent
    obtain ⟨begun, hline⟩ := hx.first_of_isAlive halive hsent
    rcases h.line rfl with h | h
    · exact .inr ⟨begun ++ [data], by simp [h, hline]⟩
    · exact .inr ⟨begun, h.trans hline⟩
  · cases h with
    | run =>
      intro _ _ _ _
      simp [enter, processed_concat (Event.isStop_data data)]
    | _ => exact hx.running
  · cases h with
    | run hplace =>
      have hlog := hx.log_eq (by rw [hplace]; rfl)
      simpa [enter, Place.isStopping, processed_concat (Event.isStop_data data)] using hlog
    | _ => exact hx.last

omit [DecidableEq S] in
/-- The next event of the mailbox is processed. -/
theorem process {rest : List (Event E)} {place : Place S} (hx : x.Lifecycle)
    (hwaiting : x.Waiting) (halive : x.place.isAlive) (hnot : x.place.isStopping = false)
    (hmailbox : x.mailbox = event :: rest) (hplace : place.isStopping = false) :
    { x with place := place, mailbox := rest, log := x.log ++ [event] }.Lifecycle := by
  have hevent := hwaiting.mailbox event (hmailbox ▸ List.mem_cons_self)
  refine ⟨fun hsent ↦ .inr ?_, fun _ _ _ _ ↦ ?_, ?_⟩
  · obtain ⟨data, hline⟩ := hx.first_of_isAlive halive hsent
    exact ⟨data, (line_process hmailbox hevent).trans hline⟩
  · simp [processed_concat hevent]
  · simp [hplace, processed_concat hevent, ← hx.log_eq hnot]

omit [DecidableEq S] in
/-- The actor goes from one place to another. -/
theorem move {place : Place S} {outgoing : S → List S} (hx : x.Lifecycle) (halive : x.place.isAlive)
    (hrunning : ∀ s guard, place = .running s guard → guard.task ≠ .stop →
      Scheduler.processed x.log ≠ [])
    (hplace : place.isStopping = x.place.isStopping) :
    { x with place := place, outgoing := outgoing }.Lifecycle where
  first hsent := .inr (hx.first_of_isAlive halive hsent)
  running := hrunning
  last := by simpa [hplace] using hx.last

theorem arrived (hx : x.Lifecycle) (hwaiting : x.Waiting) (hplace : x.place = .migrating s) :
    (x.arrived s).Lifecycle := by
  refine ⟨fun hsent ↦ .inr ?_, fun t g hg _ ↦ (by cases hg), ?_⟩
  · obtain ⟨data, hline⟩ := hx.first_of_isAlive (by rw [hplace]; rfl) hsent
    obtain ⟨parked, hparked⟩ := Event.exists_map_data (hwaiting.parked s)
    refine ⟨data ++ parked, ?_⟩
    rw [List.map_append, ← List.cons_append, ← hline, ← hparked]
    exact (List.append_assoc _ _ _).symm
  · simpa [Life.arrived, hplace, Place.isStopping] using hx.last

theorem next (hx : x.Lifecycle) (hwaiting : x.Waiting) (hneed : y.needStartUp)
    (h : Next s isOpen told x y) : y.Lifecycle := by
  cases h with
  | register d needStartUp =>
    refine ⟨fun hsent ↦ .inr ⟨[], ?_⟩, fun t g hg _ ↦ ?_, ?_⟩
    · simp only [born] at hsent
      split at hsent
      · simp_all [line, born]
      · cases hsent
    · simp only [born] at hg
      split at hg <;> cases hg
    · simp only [born]
      split <;> rfl
  | send data _ halive hdelivers =>
    refine delivered hdelivers rfl halive ⟨fun hsent ↦ ?_, hx.running, hx.last⟩
    exact hx.first (by simpa using hsent)
  | receive _ halive hinbound hdelivers =>
    exact delivered hdelivers (hwaiting.isData hinbound) halive ⟨hx.first, hx.running, hx.last⟩
  | drop => exact ⟨hx.first, hx.running, hx.last⟩
  | flush n hplace hmailbox =>
    exact hx.process hwaiting (by rw [hplace]; rfl) (by rw [hplace]; rfl) hmailbox rfl
  | flushNext hplace htask hmailbox =>
    exact hx.process hwaiting (by rw [hplace]; rfl) (by simp [hplace, Place.isStopping, htask])
      hmailbox rfl
  | @flag _ guard guard' hplace htask =>
    refine hx.move (by rw [hplace]; rfl) (fun t g hg hnot ↦ ?_) ?_
    · cases hg
      exact hx.running s guard hplace (htask ▸ hnot)
    · simp [hplace, Place.isStopping, htask]
  | @rest _ guard hplace hnot =>
    refine hx.move (by rw [hplace]; rfl) (fun t g hg _ ↦ (by cases hg)) ?_
    simp [hplace, Place.isStopping, hnot]
  | @migrate _ guard d hplace hnot =>
    refine hx.move (by rw [hplace]; rfl) (fun t g hg _ ↦ (by cases hg)) ?_
    simp [hplace, Place.isStopping, hnot]
  | startMigrate d hplace =>
    refine hx.move (by rw [hplace]; rfl) (fun t g hg _ ↦ (by cases hg)) ?_
    rw [hplace]
    rfl
  | put => exact ⟨hx.first, hx.running, hx.last⟩
  | arrive hplace hinbound =>
    exact arrived ⟨hx.first, hx.running, hx.last⟩ (hwaiting.read hinbound) hplace
  | finishMigrate hplace => exact hx.arrived hwaiting hplace
  | stop hcan =>
    refine ⟨fun hsent ↦ .inr ?_, fun t g hg hnot ↦ ?_, ?_⟩
    · obtain ⟨data, hline⟩ := hx.first_of_isAlive hcan.isAlive hsent
      exact ⟨data, by simpa [line, enter] using hline⟩
    · cases hg
      exact absurd rfl hnot
    · simpa [enter, Place.isStopping] using hx.log_eq hcan.isStopping
  | destroy _ hnot => exact absurd hneed hnot
  | @stopped _ guard hplace htask =>
    refine ⟨fun hsent ↦ ?_, fun t g hg _ ↦ (by cases hg), ?_⟩
    · simp only [line, List.append_nil]
      exact (hx.processed hsent).imp_left fun h ↦ ⟨rfl, h⟩
    · simpa [hplace, Place.isStopping, htask] using hx.last

/-- An actor that processes nothing but a `Stop` event has been stopped by others. -/
theorem told_of_next (hx : x.Lifecycle) (hwaiting : x.Waiting) (h : Next s isOpen told x y)
    (hlog : y.log = [.stop]) : x.log = [.stop] ∨ told := by
  rcases h.log hwaiting with h | ⟨-, event, h, hcan⟩
  · exact .inl (h ▸ hlog)
  · have hsplit : [] ++ [.stop] = x.log ++ [event] := hlog.symm.trans h
    obtain ⟨hnil, hevent⟩ := List.append_inj' hsplit rfl
    rcases hcan (List.cons.inj hevent).1.symm with ⟨htold, _⟩ | ⟨guard, hrunning, hnot⟩
    · exact .inr htold
    · have hprocessed := hx.running s guard hrunning hnot
      rw [← hnil] at hprocessed
      exact absurd rfl hprocessed

omit [DecidableEq S] in
/-- The actor has processed events in this order, if its `Start` event is the first one. -/
theorem callbacks (hx : x.Lifecycle) (h : Scheduler.processed x.log = [] ∨
    ∃ data : List E, Scheduler.processed x.log = .start :: data.map .data) : Callbacks x.log := by
  rw [hx.last]
  rcases h with hnil | ⟨data, hstart⟩
  · rw [hnil]
    split
    · exact .unstarted
    · exact .nil
  · rw [hstart]
    split
    · exact .stopped data
    · rw [List.append_nil]
      exact .started data

end Lifecycle

/-- An actor that is not sent its `Start` event has been registered by a scheduler that is closing,
and does nothing there. -/
def Unstarted (isOpen : Bool) (x : Life S E) : Prop :=
  x.needStartUp → x.place ≠ .unborn → .start ∉ x.sent → isOpen = false ∧ x.line = []

omit [DecidableEq S] in
theorem unstarted_init : ({} : Life S E).Unstarted isOpen :=
  fun _ hplace _ ↦ absurd rfl hplace

omit [DecidableEq S] in
theorem Unstarted.mono {isOpen' : Bool} (hx : x.Unstarted isOpen) (h : isOpen' → isOpen) :
    x.Unstarted isOpen' := by
  intro hneed hplace hsent
  obtain ⟨hclosed, hline⟩ := hx hneed hplace hsent
  refine ⟨?_, hline⟩
  cases isOpen' with
  | false => rfl
  | true => exact absurd (h rfl) (by simp [hclosed])

theorem Unstarted.next [Subsingleton S] (hx : x.Unstarted isOpen) (hordered : x.Ordered)
    (h : Next s isOpen told x y) : y.Unstarted isOpen := by
  intro hneed hplace hsent
  cases h with
  | register d needStartUp =>
    cases isOpen with
    | false => exact ⟨rfl, by simp [line, born]⟩
    | true =>
      obtain rfl : needStartUp = true := hneed
      simp [born] at hsent
  | send data hopen halive hdelivers =>
    rw [hdelivers.needStartUp] at hneed
    rw [hdelivers.sent] at hsent
    have h := hx hneed (ne_unborn_of_isAlive halive) fun h ↦ hsent (List.mem_append_left _ h)
    simp [hopen] at h
  | receive hopen halive _ hdelivers =>
    rw [hdelivers.needStartUp] at hneed
    rw [hdelivers.sent] at hsent
    have h := hx hneed (ne_unborn_of_isAlive halive) hsent
    simp [hopen] at h
  | drop => exact hx hneed hplace hsent
  | flush n hresting hmailbox =>
    have h := hx hneed (by simp [hresting]) hsent
    simp [line, hmailbox] at h
  | flushNext hrunning _ hmailbox =>
    have h := hx hneed (by simp [hrunning]) hsent
    simp [line, hmailbox] at h
  | flag hrunning => exact hx hneed (by simp [hrunning]) hsent
  | rest hrunning => exact hx hneed (by simp [hrunning]) hsent
  | migrate d hrunning => exact hx hneed (by simp [hrunning]) hsent
  | startMigrate d hresting => exact hx hneed (by simp [hresting]) hsent
  | put => exact hx hneed hplace hsent
  | arrive hmigrating => exact absurd hmigrating (hordered.place s)
  | finishMigrate hmigrating => exact absurd hmigrating (hordered.place s)
  | stop hcan =>
    simpa [line, enter] using hx hneed (ne_unborn_of_isAlive hcan.isAlive) hsent
  | destroy _ hnot => exact absurd hneed hnot
  | stopped hrunning =>
    have h := hx hneed (by simp [hrunning]) hsent
    simpa [line] using ⟨h.1, (List.append_eq_nil_iff.mp h.2).1⟩

end Life

end PxcCore.Scheduler
