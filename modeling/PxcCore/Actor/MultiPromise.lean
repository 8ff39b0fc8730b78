import PxcCore.Lib.Simulation

/-!
# MultiPromiseActor

`MultiPromise.cpp`, and what it uses of `PromiseFuture.h`: an actor gives out child promises, and
passes on one result to the promises that were added to it when all children have one.

A child promise sends one event to its future, and the future one event to the actor.  The scheduler
takes the events of a mailbox in their order, and the mailboxes in any order.  An event that is run
at once is one that is sent and then taken.
-/

namespace PxcCore

open Lib

namespace MultiPromise

/-! ## Futures -/

structure Status where
  code : ℤ
  message : String
deriving DecidableEq

/-- `Result<Unit>` -/
abbrev Result := Except Status Unit

/-- `FutureActor::HANGUP_ERROR_CODE` -/
def hangupErrorCode : ℤ := 426487

/-- What a `PromiseActor` sends to its `FutureActor`. -/
inductive FutureEvent where
  | setValue
  | setError (error : Status)
  | hangup
deriving DecidableEq

/-- What an event makes of a future. -/
def FutureEvent.result : FutureEvent → Result
  | setValue => .ok ()
  | setError error => .error error
  | hangup => .error ⟨hangupErrorCode, ""⟩

/-- `FutureActor::State` -/
inductive FutureState where
  | waiting
  | ready
deriving DecidableEq

structure FutureActor where
  /-- `Actor::empty` -/
  empty : Bool := false
  /-- `event_` is not empty. -/
  event : Bool := false
  result : Result := .error ⟨500, "Empty FutureActor"⟩
  state : FutureState := .waiting
  mailbox : List FutureEvent := []

namespace FutureActor

/-- `event_.try_emit_later()`, with whether it sends the event. -/
def tryEmitLater (f : FutureActor) : FutureActor × Bool := ({ f with event := false }, f.event)

/-- `set_event` -/
def setEvent (f : FutureActor) : Except String (FutureActor × Bool) :=
  if f.empty then .error "CHECK(!empty())"
  else
    let f := { f with event := true }
    if f.state ≠ .waiting then .ok f.tryEmitLater else .ok (f, false)

/-- `FutureActor::set_result` -/
def setResult (f : FutureActor) (result : Result) : Except String (FutureActor × Bool) :=
  if f.state = .waiting then .ok { f with result := result, state := .ready }.tryEmitLater
  else .error "CHECK(state_ == State::Waiting)"

/-- `set_value`, `set_error` and `hangup` -/
def doEvent (f : FutureActor) (event : FutureEvent) : Except String (FutureActor × Bool) :=
  f.setResult event.result

/-- `move_as_result`, which stops the actor. -/
def moveAsResult (f : FutureActor) : Except String (Result × FutureActor) :=
  if f.empty = false ∧ f.state = .ready then .ok (f.result, { f with empty := true, mailbox := [] })
  else .error "CHECK(is_ready())"

end FutureActor

/-- `PromiseActor`, with the future that it owns. -/
structure PromiseActor where
  futureId : Option ℕ

/-! ## The actor -/

end MultiPromise

open MultiPromise

structure MultiPromiseActor where
  /-- `Actor::empty` -/
  empty : Bool := true
  promises : List ℕ := []
  futures : List FutureActor := []
  receivedResults : ℕ := 0
  ignoreErrors : Bool := false
  result : Result := .error ⟨-1, ""⟩

namespace MultiPromiseActor

/-- `add_promise` -/
def addPromise (a : MultiPromiseActor) (promise : ℕ) : MultiPromiseActor :=
  { a with promises := a.promises ++ [promise] }

/-- The loop of `raw_event` over the futures, up to the first error. -/
def firstError : List FutureActor → Except String (Option Status × List FutureActor)
  | [] => .ok (none, [])
  | future :: futures => do
    let (result, future) ← future.moveAsResult
    match result with
    | .error error => return (some error, future :: futures)
    | .ok () =>
      let (error, futures) ← firstError futures
      return (error, future :: futures)

/-- `set_result`, after which the actor is stopped. -/
def setResult (a : MultiPromiseActor) (result : Result) : MultiPromiseActor :=
  { a with result := result }

/-- `raw_event`, with whether the actor has called `stop`. -/
def rawEvent (a : MultiPromiseActor) : Except String (MultiPromiseActor × Bool) := do
  let a := { a with receivedResults := a.receivedResults + 1 }
  if a.receivedResults = a.futures.length then
    if a.ignoreErrors then return (a.setResult (.ok ()), true)
    else
      let (error, futures) ← firstError a.futures
      let a := { a with futures := futures }
      match error with
      | some error => return (a.setResult (.error error), true)
      | none => return (a.setResult (.ok ()), true)
  else return (a, false)

/-- `tear_down`, with the results that it gives to the promises. -/
def tearDown (a : MultiPromiseActor) : List (ℕ × Result) × MultiPromiseActor :=
  (match a.promises.getLast? with
    | none => []
    | some back => a.promises.dropLast.map (fun promise ↦ (promise, a.result)) ++
        [(back, a.result)],
    { a with promises := [], futures := [], receivedResults := 0, result := .ok () })

end MultiPromiseActor

namespace MultiPromise

/-! ## The system -/

/-- The events of the actor itself. -/
inductive ActorEvent where
  | start
  | yield
  | raw
deriving DecidableEq

/-- The actor, the events that wait for it, the child promises that it has given out, and the
results that the added promises have received. -/
structure System where
  actor : MultiPromiseActor := {}
  mailbox : List ActorEvent := []
  children : List PromiseActor := []
  received : List (ℕ × Result) := []
  completed : Bool := false

namespace System

/-- An event for a future, which is lost if the future is gone. -/
def sendFuture (s : System) (i : ℕ) (event : FutureEvent) : System :=
  { s with actor := { s.actor with
      futures := s.actor.futures.modify i fun future ↦
        if future.empty then future else { future with mailbox := future.mailbox ++ [event] } } }

/-- `get_promise` -/
def getPromise (s : System) : Except String System := do
  let s := if s.actor.empty then
    { s with actor := { s.actor with empty := false }, mailbox := [.start] } else s
  if s.actor.promises = [] then throw "CHECK(!promises_.empty())"
  let promise : PromiseActor := ⟨some s.actor.futures.length⟩
  let (future, emitted) ← FutureActor.setEvent {}
  return { s with
    actor := { s.actor with futures := s.actor.futures ++ [future] }
    mailbox := if emitted then s.mailbox ++ [.raw] else s.mailbox
    children := s.children ++ [promise] }

/-- `set_value` and `set_error` of a child promise, and its destructor. -/
def resolve (s : System) (i : ℕ) (event : FutureEvent) : System :=
  match s.children[i]? with
  | some ⟨some future⟩ =>
    { s with children := s.children.set i ⟨none⟩ }.sendFuture future event
  | some ⟨none⟩ | none => s

/-- The scheduler takes the first event of a future. -/
def runFuture (s : System) (i : ℕ) : Except String System :=
  match s.actor.futures[i]? with
  | none => return s
  | some future =>
    match future.mailbox with
    | [] => return s
    | event :: mailbox => do
      let (future, emitted) ← { future with mailbox := mailbox }.doEvent event
      return { s with
        actor := { s.actor with futures := s.actor.futures.set i future }
        mailbox := if emitted ∧ s.actor.empty = false then s.mailbox ++ [.raw] else s.mailbox }

/-- The scheduler takes the first event of the actor, and tears it down if it was stopped. -/
def runActor (s : System) : Except String System :=
  match s.mailbox with
  | [] => return s
  -- `start_up` yields, and `wakeup` has nothing to do
  | .start :: mailbox => return { s with mailbox := mailbox ++ [.yield] }
  | .yield :: mailbox => return { s with mailbox := mailbox }
  | .raw :: mailbox => do
    let (actor, stopped) ← s.actor.rawEvent
    if stopped then
      let (results, actor) := actor.tearDown
      return { s with
        actor := { actor with empty := true }
        mailbox := []
        received := s.received ++ results
        completed := true }
    else return { s with actor := actor, mailbox := mailbox }

/-- What clients do with the actor and its children, and what the scheduler does. -/
inductive Op where
  | addPromise (promise : ℕ)
  | getPromise
  | setIgnoreErrors (ignoreErrors : Bool)
  | resolve (i : ℕ) (event : FutureEvent)
  | runFuture (i : ℕ)
  | runActor
deriving DecidableEq

def step (s : System) : Op → Except String System
  | .addPromise promise => .ok { s with actor := s.actor.addPromise promise }
  | .getPromise => s.getPromise
  | .setIgnoreErrors ignoreErrors =>
    .ok { s with actor := { s.actor with ignoreErrors := ignoreErrors } }
  | .resolve i event => .ok (s.resolve i event)
  | .runFuture i => s.runFuture i
  | .runActor => s.runActor

/-- The actor is used before its completion only. -/
def Allows (s : System) : Op → Prop
  | .addPromise _ | .getPromise | .setIgnoreErrors _ => s.completed = false
  | _ => True

/-- The state after these operations in this order. -/
inductive Reaches : List Op → System → Prop where
  | nil : Reaches [] {}
  | snoc {ops : List Op} {op : Op} {s s' : System} :
    Reaches ops s → s.Allows op → s.step op = .ok s' → Reaches (ops ++ [op]) s'

/-! ## What is expected -/

/-- The promises that were added, the last setting of `ignore_errors`, and the children that were
obtained, with the first result of each. -/
structure History where
  added : List ℕ := []
  ignoreErrors : Bool := false
  outcomes : List (Option Result) := []

def track (t : History) : Op → History
  | .addPromise promise => { t with added := t.added ++ [promise] }
  | .getPromise => { t with outcomes := t.outcomes ++ [none] }
  | .setIgnoreErrors ignoreErrors => { t with ignoreErrors := ignoreErrors }
  | .resolve i event =>
    { t with outcomes := t.outcomes.modify i fun outcome ↦ outcome.or (some event.result) }
  | .runFuture _ | .runActor => t

def history (ops : List Op) : History := ops.foldl track {}

/-- The error of the first child that failed. -/
def firstFailure (outcomes : List (Option Result)) : Option Status :=
  outcomes.findSome? fun
    | some (.error error) => some error
    | _ => none

/-- The result that is passed on. -/
def History.expected (t : History) : Result :=
  match t.ignoreErrors, firstFailure t.outcomes with
  | false, some error => .error error
  | _, _ => .ok ()

/-- The events that wait, with those that they lead to. -/
def pending (s : System) : ℕ :=
  (s.actor.futures.map fun future ↦ 2 * future.mailbox.length).sum +
    (s.mailbox.map fun event ↦ if event = .start then 2 else 1).sum

/-- The scheduler has an event to take there. -/
def Waits (s : System) : Op → Prop
  | .runActor => s.mailbox ≠ []
  | .runFuture i => ∃ future, s.actor.futures[i]? = some future ∧ future.mailbox ≠ []
  | _ => False

/-! ## Children -/

/-- What has become of a child. -/
inductive Phase where
  | unresolved
  | sent (event : FutureEvent)
  | ready (event : FutureEvent)
deriving DecidableEq

namespace Phase

def future : Phase → FutureActor
  | unresolved => { event := true }
  | sent event => { event := true, mailbox := [event] }
  | ready event => { state := .ready, result := event.result }

def child (i : ℕ) : Phase → PromiseActor
  | unresolved => ⟨some i⟩
  | sent _ | ready _ => ⟨none⟩

def outcome : Phase → Option Result
  | unresolved => none
  | sent event | ready event => some event.result

def isReady : Phase → Bool
  | ready _ => true
  | unresolved | sent _ => false

end Phase

/-- The actor before its completion. -/
structure Running (t : History) (s : System) (phases : List Phase) : Prop where
  completed : s.completed = false
  received : s.received = []
  promises : s.actor.promises = t.added
  ignoreErrors : s.actor.ignoreErrors = t.ignoreErrors
  futures : s.actor.futures = phases.map Phase.future
  children : s.children = phases.mapIdx Phase.child
  outcomes : t.outcomes = phases.map Phase.outcome
  events : s.actor.receivedResults + s.mailbox.count .raw = phases.countP Phase.isReady
  lt : phases ≠ [] → s.actor.receivedResults < phases.length
  alive : phases ≠ [] → s.actor.empty = false ∧ s.actor.promises ≠ []

/-- The actor after its completion. -/
structure Done (t : History) (s : System) : Prop where
  completed : s.completed = true
  received : s.received = t.added.map fun promise ↦ (promise, t.expected)
  resolved : ∀ outcome ∈ t.outcomes, outcome ≠ none
  children : ∀ child ∈ s.children, child.futureId = none
  futures : s.actor.futures = []
  mailbox : s.mailbox = []

variable {t : History} {ops : List Op} {op : Op} {s s' : System} {phases : List Phase} {i : ℕ}
  {phase : Phase} {event : FutureEvent}

theorem Running.nil : Running {} {} [] where
  completed := rfl
  received := rfl
  promises := rfl
  ignoreErrors := rfl
  futures := rfl
  children := rfl
  outcomes := rfl
  events := rfl
  lt := by simp
  alive := by simp

theorem map_set {α β : Type} (f : α → β) {l : List α} {i : ℕ} {a b : α} (g : β → β)
    (ha : l[i]? = some a) (hg : g (f a) = f b) : (l.map f).modify i g = (l.set i b).map f := by
  refine List.ext_getElem? fun j ↦ ?_
  rw [List.getElem?_modify, List.getElem?_map, List.getElem?_map, List.getElem?_set]
  by_cases hij : i = j
  · subst hij
    simp only [ha, (List.getElem?_eq_some_iff.1 ha).1, if_true, Option.map_some, Option.map_eq_map,
      hg]
  · simp [hij]

theorem Running.getElem?_future (h : Running t s phases) :
    s.actor.futures[i]? = (phases[i]?).map Phase.future := by
  rw [h.futures, List.getElem?_map]

theorem Running.getElem?_child (h : Running t s phases) :
    s.children[i]? = (phases[i]?).map (Phase.child i) := by
  rw [h.children, List.getElem?_mapIdx]

/-! ## Calls -/

theorem Running.addPromise (h : Running t s phases) (promise : ℕ) :
    Running (track t (.addPromise promise))
      { s with actor := s.actor.addPromise promise } phases :=
  { h with
    promises := congrArg (· ++ [promise]) h.promises
    alive := fun hne ↦
      ⟨(h.alive hne).1, List.append_ne_nil_of_right_ne_nil _ (List.cons_ne_nil _ _)⟩ }

theorem Running.setIgnoreErrors (h : Running t s phases) (ignoreErrors : Bool) :
    Running (track t (.setIgnoreErrors ignoreErrors))
      { s with actor := { s.actor with ignoreErrors := ignoreErrors } } phases :=
  { h with ignoreErrors := rfl }

/-- `get_promise` adds a child that has no result. -/
theorem Running.getPromise (h : Running t s phases) (hs' : s.getPromise = .ok s') :
    Running (track t .getPromise) s' (phases ++ [.unresolved]) := by
  have hlength : s.actor.futures.length = phases.length := by rw [h.futures, List.length_map]
  have hempty : s.actor.empty = true → phases = [] := by
    intro hempty
    by_contra hne
    rw [(h.alive hne).1] at hempty
    cases hempty
  obtain ⟨mailbox, hregister, hcount⟩ : ∃ mailbox,
      (if s.actor.empty then
        { s with actor := { s.actor with empty := false }, mailbox := [.start] } else s) =
        { s with actor := { s.actor with empty := false }, mailbox := mailbox } ∧
      s.actor.receivedResults + mailbox.count .raw = phases.countP Phase.isReady := by
    split_ifs with he
    · refine ⟨_, rfl, ?_⟩
      have hevents := h.events
      rw [hempty he] at hevents ⊢
      exact (Nat.add_eq_zero_iff.1 hevents).1
    · refine ⟨s.mailbox, ?_, h.events⟩
      rw [Bool.not_eq_true] at he
      rw [← he]
  rw [System.getPromise, hregister] at hs'
  dsimp only at hs'
  split_ifs at hs' with hpromises
  · cases hs'
  · obtain rfl := Except.ok.inj hs'
    have hlt : s.actor.receivedResults < phases.length + 1 := by
      have hle := List.countP_le_length (p := Phase.isReady) (l := phases)
      omega
    refine ⟨h.completed, h.received, h.promises, h.ignoreErrors, ?_, ?_, ?_, ?_, fun _ ↦ ?_,
      fun _ ↦ ⟨rfl, hpromises⟩⟩
    · rw [List.map_append, ← h.futures]
      rfl
    · rw [List.mapIdx_append, ← h.children, List.mapIdx_cons, List.mapIdx_nil, Nat.zero_add,
        ← hlength]
      rfl
    · rw [List.map_append, ← h.outcomes]
      rfl
    · rw [List.countP_append]
      exact hcount
    · rwa [List.length_append]

theorem modify_eq_self {α : Type} {l : List α} {i : ℕ} {g : α → α}
    (h : ∀ a, l[i]? = some a → g a = a) : l.modify i g = l := by
  refine List.ext_getElem? fun j ↦ ?_
  rw [List.getElem?_modify]
  by_cases hij : i = j
  · subst hij
    cases ha : l[i]? with
    | none => rfl
    | some a => simp [h a ha]
  · simp [hij]

theorem Running.ne_nil (hi : phases[i]? = some phase) : phases ≠ [] :=
  List.ne_nil_of_mem (List.mem_of_getElem? hi)

/-- A child promise is resolved, or was before. -/
theorem Running.resolve (h : Running t s phases) (i : ℕ) (event : FutureEvent) :
    ∃ phases', Running (track t (.resolve i event)) (s.resolve i event) phases' := by
  have hchild := h.getElem?_child (i := i)
  by_cases hopen : phases[i]? = some .unresolved
  · refine ⟨phases.set i (.sent event), ?_⟩
    have hlt := (List.getElem?_eq_some_iff.1 hopen).1
    have hne := ne_nil hopen
    rw [hopen] at hchild
    rw [System.resolve, hchild]
    refine ⟨h.completed, h.received, h.promises, h.ignoreErrors, ?_, ?_, ?_, ?_, fun _ ↦ ?_,
      fun _ ↦ h.alive hne⟩
    · show s.actor.futures.modify i _ = _
      rw [h.futures]
      exact map_set _ _ hopen rfl
    · rw [List.mapIdx_set, ← h.children]
      rfl
    · show t.outcomes.modify i _ = _
      rw [h.outcomes]
      exact map_set _ _ hopen rfl
    · rw [List.countP_set hlt, ← h.events, (List.getElem?_eq_some_iff.1 hopen).2]
      rfl
    · rw [List.length_set]
      exact h.lt hne
  · refine ⟨phases, ?_⟩
    have hresolve : s.resolve i event = s := by
      rw [System.resolve, hchild]
      cases hi : phases[i]? with
      | none => rfl
      | some phase =>
        cases phase with
        | unresolved => exact absurd hi hopen
        | sent event' | ready event' => rfl
    have htrack : track t (.resolve i event) = t := by
      rw [track, modify_eq_self]
      intro outcome houtcome
      rw [h.outcomes, List.getElem?_map, Option.map_eq_some_iff] at houtcome
      obtain ⟨phase, hi, rfl⟩ := houtcome
      cases phase with
      | unresolved => exact absurd hi hopen
      | sent event' | ready event' => rfl
    rw [hresolve, htrack]
    exact h

/-- A future takes its event, or has none. -/
theorem Running.runFuture (h : Running t s phases) (i : ℕ) :
    ∃ s' phases', s.runFuture i = .ok s' ∧ Running t s' phases' := by
  have hfuture := h.getElem?_future (i := i)
  cases hi : phases[i]? with
  | none =>
    rw [hi] at hfuture
    exact ⟨s, phases, by rw [System.runFuture, hfuture]; rfl, h⟩
  | some phase =>
    rw [hi] at hfuture
    cases phase with
    | unresolved | ready event =>
      exact ⟨s, phases, by rw [System.runFuture, hfuture]; rfl, h⟩
    | sent event =>
      have hne := ne_nil hi
      obtain ⟨hlt, hget⟩ := List.getElem?_eq_some_iff.1 hi
      have hrun : s.runFuture i = .ok { s with
          actor := { s.actor with
            futures := s.actor.futures.set i (Phase.ready event).future }
          mailbox := s.mailbox ++ [.raw] } := by
        have hdo : { (Phase.sent event).future with mailbox := [] }.doEvent event =
            .ok ((Phase.ready event).future, true) := rfl
        rw [System.runFuture, hfuture, Option.map_some]
        dsimp only [Phase.future] at hdo ⊢
        rw [hdo, ok_bind, if_pos ⟨rfl, (h.alive hne).1⟩]
        rfl
      refine ⟨_, phases.set i (.ready event), hrun, h.completed, h.received, h.promises,
        h.ignoreErrors, ?_, ?_, ?_, ?_, fun _ ↦ ?_, fun _ ↦ h.alive hne⟩
      · rw [List.map_set, ← h.futures]
      · have hchild : s.children[i]? = some ⟨none⟩ := by rw [h.getElem?_child, hi]; rfl
        rw [List.mapIdx_set, ← h.children]
        exact (set_eq_self hchild).symm
      · have houtcome : t.outcomes[i]? = some (some event.result) := by
          rw [h.outcomes, List.getElem?_map, hi]
          rfl
        rw [List.map_set, ← h.outcomes]
        exact (set_eq_self houtcome).symm
      · have hevents := h.events
        rw [List.countP_set hlt, hget, List.count_append]
        simp only [Phase.isReady, List.count_singleton_self, if_true, Bool.false_eq_true, if_false]
        omega
      · rw [List.length_set]
        exact h.lt hne

/-! ## Completion -/

/-- The loop over the futures stops at the first error. -/
theorem firstError_eq (hready : ∀ phase ∈ phases, phase.isReady = true) :
    ∃ futures, MultiPromiseActor.firstError (phases.map Phase.future) =
      .ok (firstFailure (phases.map Phase.outcome), futures) := by
  induction phases with
  | nil => exact ⟨[], rfl⟩
  | cons phase phases ih =>
    obtain ⟨futures, hfutures⟩ := ih fun phase hphase ↦ hready phase (List.mem_cons_of_mem _ hphase)
    cases phase with
    | unresolved | sent event => exact absurd (hready _ List.mem_cons_self) Bool.false_ne_true
    | ready event =>
      have hmove : (Phase.ready event).future.moveAsResult = .ok (event.result,
          { (Phase.ready event).future with empty := true, mailbox := [] }) := rfl
      rw [List.map_cons, List.map_cons, MultiPromiseActor.firstError, hmove, ok_bind]
      cases event with
      | setValue =>
        dsimp only [FutureEvent.result]
        rw [hfutures]
        exact ⟨_, rfl⟩
      | setError error | hangup => exact ⟨_, rfl⟩

/-- `tear_down` gives each promise the result. -/
theorem tearDown_fst (a : MultiPromiseActor) :
    a.tearDown.1 = a.promises.map fun promise ↦ (promise, a.result) := by
  rw [MultiPromiseActor.tearDown]
  cases hback : a.promises.getLast? with
  | none => rw [List.getLast?_eq_none_iff.1 hback]; rfl
  | some back =>
    dsimp only
    conv_rhs => rw [← List.dropLast_append_getLast? back hback]
    rw [List.map_append]
    rfl

/-- The last result completes the actor. -/
theorem Running.rawEvent_last (h : Running t s phases)
    (hready : ∀ phase ∈ phases, phase.isReady = true)
    (hlast : s.actor.receivedResults + 1 = phases.length) :
    ∃ a, s.actor.rawEvent = .ok (a, true) ∧ a.promises = s.actor.promises ∧
      a.result = t.expected := by
  obtain ⟨futures, hfutures⟩ := firstError_eq hready
  have hlength : s.actor.futures.length = phases.length := by rw [h.futures, List.length_map]
  rw [MultiPromiseActor.rawEvent]
  dsimp only
  rw [hlength, if_pos hlast, h.ignoreErrors, h.futures, hfutures, ← h.outcomes]
  cases hignore : t.ignoreErrors with
  | true =>
    refine ⟨_, rfl, rfl, ?_⟩
    rw [History.expected, hignore]
    rfl
  | false =>
    cases hfailure : firstFailure t.outcomes with
    | none =>
      refine ⟨_, rfl, rfl, ?_⟩
      rw [History.expected, hignore, hfailure]
      rfl
    | some error =>
      refine ⟨_, rfl, rfl, ?_⟩
      rw [History.expected, hignore, hfailure]
      rfl

theorem Done.pending_eq (h : Done t s) : s.pending = 0 := by
  rw [pending, h.futures, h.mailbox]
  rfl

theorem pending_lt_of_cons {event : ActorEvent} {mailbox mailbox' : List ActorEvent}
    (hmailbox : s.mailbox = event :: mailbox) (hfutures : s'.actor.futures = s.actor.futures)
    (hmailbox' : s'.mailbox = mailbox ++ mailbox')
    (hlt : (mailbox'.map fun event ↦ if event = .start then 2 else 1).sum <
      if event = .start then 2 else 1) : s'.pending < s.pending := by
  rw [pending, pending, hfutures, hmailbox, hmailbox', List.map_append, List.sum_append,
    List.map_cons, List.sum_cons, Nat.add_comm (ite _ _ _)]
  exact Nat.add_lt_add_left (Nat.add_lt_add_left hlt _) _

/-- An event of the actor: the last one completes it. -/
theorem Running.runActor (h : Running t s phases) :
    ∃ s', s.runActor = .ok s' ∧ (Running t s' phases ∨ Done t s') ∧
      (s.mailbox ≠ [] → s'.pending < s.pending) := by
  cases hmailbox : s.mailbox with
  | nil =>
    exact ⟨s, by rw [System.runActor, hmailbox]; rfl, .inl h, fun hne ↦ absurd rfl hne⟩
  | cons event mailbox =>
    have hevents := h.events
    rw [hmailbox] at hevents
    cases event with
    | start =>
      refine ⟨{ s with mailbox := mailbox ++ [.yield] }, by rw [System.runActor, hmailbox]; rfl,
        .inl { h with events := ?_ }, fun _ ↦ pending_lt_of_cons hmailbox rfl rfl (by decide)⟩
      rw [← hevents, List.count_append]
      rfl
    | yield =>
      exact ⟨{ s with mailbox := mailbox }, by rw [System.runActor, hmailbox]; rfl,
        .inl { h with events := hevents },
        fun _ ↦ pending_lt_of_cons hmailbox rfl (List.append_nil _).symm (by decide)⟩
    | raw =>
      rw [List.count_cons_self] at hevents
      have hle := List.countP_le_length (p := Phase.isReady) (l := phases)
      have hlength : s.actor.futures.length = phases.length := by rw [h.futures, List.length_map]
      have hne : phases ≠ [] := by
        rintro rfl
        simp at hevents
      by_cases hlast : s.actor.receivedResults + 1 = phases.length
      · have hready : ∀ phase ∈ phases, phase.isReady = true :=
          List.countP_eq_length.1 (by omega)
        obtain ⟨a, hraw, hpromises, hresult⟩ := h.rawEvent_last hready hlast
        have hdone : Done t { s with
            actor := { a.tearDown.2 with empty := true }
            mailbox := []
            received := s.received ++ a.tearDown.1
            completed := true } := ?_
        · refine ⟨_, ?_, .inr hdone, fun _ ↦ ?_⟩
          · rw [System.runActor, hmailbox]
            dsimp only
            rw [hraw]
            rfl
          · rw [hdone.pending_eq, pending, hmailbox, List.map_cons, List.sum_cons]
            exact Nat.lt_add_left _ (Nat.lt_add_right _ Nat.one_pos)
        refine ⟨rfl, ?_, ?_, ?_, rfl, rfl⟩
        · dsimp only
          rw [h.received, List.nil_append, tearDown_fst, hpromises, h.promises, hresult]
        · intro outcome houtcome
          rw [h.outcomes] at houtcome
          obtain ⟨phase, hphase, rfl⟩ := List.mem_map.1 houtcome
          have hphase' := hready phase hphase
          cases phase with
          | unresolved | sent event => cases hphase'
          | ready event => exact Option.some_ne_none _
        · intro child hchild
          rw [h.children, List.mem_mapIdx] at hchild
          obtain ⟨i, hi, rfl⟩ := hchild
          have hphase' := hready _ (List.getElem_mem hi)
          generalize phases[i] = phase at hphase'
          cases phase with
          | unresolved | sent event => cases hphase'
          | ready event => rfl
      · refine ⟨{ s with
          actor := { s.actor with receivedResults := s.actor.receivedResults + 1 }
          mailbox := mailbox }, ?_, .inl ?_,
          fun _ ↦ pending_lt_of_cons hmailbox rfl (List.append_nil _).symm (by decide)⟩
        · rw [System.runActor, hmailbox]
          dsimp only
          rw [MultiPromiseActor.rawEvent]
          dsimp only
          rw [hlength, if_neg hlast]
          rfl
        · refine { h with events := ?_, lt := fun _ ↦ ?_ }
          · dsimp only
            omega
          · have hlt := h.lt hne
            dsimp only
            omega

/-- After the completion nothing happens. -/
theorem Done.step (h : Done t s) (hallows : s.Allows op) (hstep : s.step op = .ok s') :
    Done (track t op) s' := by
  cases op with
  | addPromise promise | getPromise | setIgnoreErrors ignoreErrors =>
    have hcompleted : s.completed = false := hallows
    rw [h.completed] at hcompleted
    cases hcompleted
  | resolve i event =>
    have hresolve : s.resolve i event = s := by
      rw [System.resolve]
      cases hi : s.children[i]? with
      | none => rfl
      | some child =>
        have hchild := h.children child (List.mem_of_getElem? hi)
        cases child
        obtain rfl : none = _ := hchild.symm
        rfl
    have htrack : track t (.resolve i event) = t := by
      rw [track, modify_eq_self]
      intro outcome houtcome
      obtain ⟨result, rfl⟩ := Option.ne_none_iff_exists'.1
        (h.resolved outcome (List.mem_of_getElem? houtcome))
      rfl
    obtain rfl := Except.ok.inj hstep
    rw [hresolve, htrack]
    exact h
  | runFuture i =>
    rw [System.step, System.runFuture, h.futures] at hstep
    obtain rfl := Except.ok.inj hstep
    exact h
  | runActor =>
    rw [System.step, System.runActor, h.mailbox] at hstep
    obtain rfl := Except.ok.inj hstep
    exact h

/-! ## Runs -/

theorem history_concat (ops : List Op) (op : Op) :
    history (ops ++ [op]) = track (history ops) op := List.foldl_concat ..

/-- What every operation keeps is kept by a run. -/
theorem Reaches.running_or_done (h : Reaches ops s) :
    (∃ phases, Running (history ops) s phases) ∨ Done (history ops) s := by
  induction h with
  | nil => exact .inl ⟨[], Running.nil⟩
  | @snoc ops op s s' _ hallows hstep ih =>
    rw [history_concat]
    rcases ih with ⟨phases, h⟩ | h
    · cases op with
      | addPromise promise =>
        obtain rfl := Except.ok.inj hstep
        exact .inl ⟨phases, h.addPromise promise⟩
      | getPromise => exact .inl ⟨_, h.getPromise hstep⟩
      | setIgnoreErrors ignoreErrors =>
        obtain rfl := Except.ok.inj hstep
        exact .inl ⟨phases, h.setIgnoreErrors ignoreErrors⟩
      | resolve i event =>
        obtain rfl := Except.ok.inj hstep
        exact .inl (h.resolve i event)
      | runFuture i =>
        obtain ⟨s₁, phases', hrun, h₁⟩ := h.runFuture i
        obtain rfl := Except.ok.inj (hrun.symm.trans hstep)
        exact .inl ⟨phases', h₁⟩
      | runActor =>
        obtain ⟨s₁, hrun, h₁, -⟩ := h.runActor
        obtain rfl := Except.ok.inj (hrun.symm.trans hstep)
        exact h₁.imp_left fun h ↦ ⟨phases, h⟩
    · exact .inr (h.step hallows hstep)

/-- No check fails before the completion, if a promise is added before the first child is taken. -/
theorem Running.step_ok (h : Running t s phases) (op : Op)
    (hadded : op = .getPromise → t.added ≠ []) : ∃ s', s.step op = .ok s' := by
  cases op with
  | addPromise promise | setIgnoreErrors ignoreErrors | resolve i event => exact ⟨_, rfl⟩
  | getPromise =>
    have hpromises : s.actor.promises ≠ [] := by
      rw [h.promises]
      exact hadded rfl
    rw [System.step, System.getPromise]
    by_cases hempty : s.actor.empty = true
    · rw [if_pos hempty]
      exact ⟨_, by dsimp only; rw [if_neg hpromises]; rfl⟩
    · rw [if_neg hempty]
      exact ⟨_, by dsimp only; rw [if_neg hpromises]; rfl⟩
  | runFuture i =>
    obtain ⟨s', _, hrun, _⟩ := h.runFuture i
    exact ⟨s', hrun⟩
  | runActor =>
    obtain ⟨s', hrun, _⟩ := h.runActor
    exact ⟨s', hrun⟩

theorem Done.step_ok (h : Done t s) (hallows : s.Allows op) : ∃ s', s.step op = .ok s' := by
  cases op with
  | addPromise promise | setIgnoreErrors ignoreErrors | resolve i event => exact ⟨_, rfl⟩
  | getPromise =>
    have hcompleted : s.completed = false := hallows
    rw [h.completed] at hcompleted
    cases hcompleted
  | runFuture i => exact ⟨s, by rw [System.step, System.runFuture, h.futures]; rfl⟩
  | runActor => exact ⟨s, by rw [System.step, System.runActor, h.mailbox]; rfl⟩

/-! ## Progress -/

theorem Done.not_waits (h : Done t s) : ¬s.Waits op := by
  cases op with
  | addPromise promise | getPromise | setIgnoreErrors ignoreErrors | resolve i event => exact id
  | runFuture i =>
    rintro ⟨future, hfuture, -⟩
    rw [h.futures] at hfuture
    cases hfuture
  | runActor => exact fun hne ↦ hne h.mailbox

theorem pending_set {l : List FutureActor} {future : FutureActor} (future' : FutureActor)
    (hi : l[i]? = some future) (hfuture : future.mailbox = [event])
    (hfuture' : future'.mailbox = []) :
    ((l.set i future').map fun future ↦ 2 * future.mailbox.length).sum + 2 =
      (l.map fun future ↦ 2 * future.mailbox.length).sum := by
  induction l generalizing i with
  | nil => cases hi
  | cons first l ih =>
    cases i with
    | zero =>
      obtain rfl := Option.some.inj hi
      rw [List.set_cons_zero, List.map_cons, List.map_cons, List.sum_cons, List.sum_cons, hfuture,
        hfuture']
      exact (Nat.zero_add _).symm ▸ Nat.add_comm _ _
    | succ i =>
      rw [List.set_cons_succ, List.map_cons, List.map_cons, List.sum_cons, List.sum_cons,
        Nat.add_assoc, ih hi]

/-- The event of a future makes one of the actor. -/
theorem Running.pending_runFuture (h : Running t s phases) (hwaits : s.Waits (.runFuture i))
    (hrun : s.runFuture i = .ok s') : s'.pending < s.pending := by
  obtain ⟨future, hfuture, hmailbox⟩ := hwaits
  have hphase := h.getElem?_future (i := i)
  rw [hfuture] at hphase
  obtain ⟨phase, hi, rfl⟩ := Option.map_eq_some_iff.1 hphase.symm
  cases phase with
  | unresolved | ready event => exact absurd rfl hmailbox
  | sent event =>
    have hdo : { (Phase.sent event).future with mailbox := [] }.doEvent event =
        .ok ((Phase.ready event).future, true) := rfl
    rw [System.runFuture, hfuture] at hrun
    dsimp only [Phase.future] at hdo hrun
    rw [hdo, ok_bind] at hrun
    obtain rfl := Except.ok.inj hrun
    have hset := pending_set (Phase.ready event).future hfuture rfl rfl
    simp only [pending, (h.alive (ne_nil hi)).1, and_self, if_true, List.map_append,
      List.sum_append]
    rw [← hset]
    show _ + (_ + 1) < _ + 2 + _
    rw [Nat.add_assoc, Nat.add_comm 2]
    exact Nat.add_lt_add_left (Nat.lt_succ_self _) _

/-- When no event waits and each child has a result, the actor was completed. -/
theorem Running.exists_waits (h : Running t s phases) (hne : t.outcomes ≠ [])
    (hresolved : ∀ outcome ∈ t.outcomes, outcome ≠ none) : ∃ op, s.Waits op := by
  by_contra hwaits
  rw [not_exists] at hwaits
  have hmailbox : s.mailbox = [] := not_not.1 (hwaits .runActor)
  have hready : ∀ phase ∈ phases, phase.isReady = true := by
    intro phase hphase
    obtain ⟨i, hi⟩ := List.getElem?_of_mem hphase
    cases phase with
    | unresolved =>
      refine absurd rfl (hresolved none ?_)
      rw [h.outcomes]
      exact List.mem_map_of_mem hphase
    | sent event =>
      refine absurd ⟨(Phase.sent event).future, ?_, List.cons_ne_nil _ _⟩ (hwaits (.runFuture i))
      rw [h.getElem?_future, hi]
      rfl
    | ready event => rfl
  have hphases : phases ≠ [] := by
    rintro rfl
    exact hne h.outcomes
  have hevents := h.events
  rw [hmailbox, List.countP_eq_length.2 hready] at hevents
  exact (h.lt hphases).ne hevents

/-- Before the completion no promise has a result, and no check fails if a promise is added before
the first child is taken.  Each promise receives the expected result at the completion, where all
children have one.  While all children have one, the scheduler has something to do until the
completion, and cannot go on for ever. -/
theorem Reaches.delivers (h : Reaches ops s) :
    (s.completed = false → s.received = []) ∧
    (s.completed = true → (∀ outcome ∈ (history ops).outcomes, outcome ≠ none) ∧
      s.received = (history ops).added.map fun promise ↦ (promise, (history ops).expected)) ∧
    (∀ op, s.Allows op → (op = .getPromise → (history ops).added ≠ []) → ∃ s', s.step op = .ok s') ∧
    (∀ op s', s.Waits op → s.step op = .ok s' → s'.pending < s.pending) ∧
    ((history ops).outcomes ≠ [] → (∀ outcome ∈ (history ops).outcomes, outcome ≠ none) →
      (∀ op, ¬s.Waits op) → s.completed = true) := by
  rcases h.running_or_done with ⟨phases, h⟩ | h
  · refine ⟨fun _ ↦ h.received, fun hcompleted ↦ ?_, fun op _ hadded ↦ h.step_ok op hadded, ?_,
      fun hne hresolved hwaits ↦ ?_⟩
    · rw [h.completed] at hcompleted
      cases hcompleted
    · intro op s' hwaits hstep
      cases op with
      | addPromise promise | getPromise | setIgnoreErrors ignoreErrors | resolve i event =>
        exact hwaits.elim
      | runFuture i => exact h.pending_runFuture hwaits hstep
      | runActor =>
        obtain ⟨s₁, hrun, -, hlt⟩ := h.runActor
        obtain rfl := Except.ok.inj (hrun.symm.trans hstep)
        exact hlt hwaits
    · obtain ⟨op, hop⟩ := h.exists_waits hne hresolved
      exact absurd hop (hwaits op)
  · refine ⟨fun hcompleted ↦ ?_, fun _ ↦ ⟨h.resolved, h.received⟩,
      fun op hallows _ ↦ h.step_ok hallows, fun op s' hwaits _ ↦ absurd hwaits h.not_waits,
      fun _ _ _ ↦ h.completed⟩
    rw [h.completed] at hcompleted
    cases hcompleted

/-- A child that fails, and one that succeeds before it. -/
theorem delivers_two :
    ∃ s, Reaches [.addPromise 7, .getPromise, .getPromise, .resolve 1 (.setError ⟨400, "A"⟩),
        .runFuture 1, .resolve 0 .setValue, .runFuture 0, .runActor, .runActor, .runActor] s ∧
      s.received = [(7, .error ⟨400, "A"⟩)] := by
  have h₃ := ((Reaches.nil.snoc (show Allows _ (.addPromise 7) from rfl) rfl).snoc
    (show Allows _ .getPromise from rfl) rfl).snoc (show Allows _ .getPromise from rfl) rfl
  have h₇ := (((h₃.snoc (show Allows _ (.resolve 1 (.setError ⟨400, "A"⟩)) from trivial) rfl).snoc
    (show Allows _ (.runFuture 1) from trivial) rfl).snoc
    (show Allows _ (.resolve 0 .setValue) from trivial) rfl).snoc
    (show Allows _ (.runFuture 0) from trivial) rfl
  have h₁₀ := ((h₇.snoc (show Allows _ .runActor from trivial) rfl).snoc
    (show Allows _ .runActor from trivial) rfl).snoc (show Allows _ .runActor from trivial) rfl
  exact ⟨_, h₁₀, (h₁₀.delivers.2.1 rfl).2⟩

end System

end MultiPromise

end PxcCore
