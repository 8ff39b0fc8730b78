import Mathlib

/-!
# Promise

`Promise.h`: promises that are built from lambdas, safe promises, joined promises and vectors of
promises.

Lambdas are numbers, and a call of one is an entry of a log.  Lambdas call no promises.  `join` and
`set_promises` are there for `Unit` only, of which there is one value to pass on.
-/

namespace PxcCore

namespace Promises

/-! ## Promises -/

/-- An error. -/
structure Status where
  code : ℤ
  message : String
deriving DecidableEq

/-- `Result<T>` -/
abbrev Result (α : Type) := Except Status α

/-- The calls of lambdas. -/
abbrev Log (α : Type) := List (ℕ × Result α)

inductive Failure where
  /-- What is asked for is not there in the source. -/
  | misuse
  /-- A `CHECK` fails. -/
  | check (text : String)
deriving DecidableEq

/-- `LambdaPromise::State` -/
inductive LambdaState where
  | empty
  | ready
  | complete
deriving DecidableEq

/-- `PromiseInterface`: a `LambdaPromise` or a `JoinPromise`.  A `Promise` points to one, or to
nothing. -/
inductive PromiseInterface where
  | lambda (func : ℕ) (state : LambdaState)
  | join (promises : List (Option PromiseInterface))

/-- `Promise` -/
abbrev Promise := Option PromiseInterface

/-- The error of a promise that goes. -/
def lostPromise : Status := ⟨0, "Lost promise"⟩

variable {α : Type}

namespace LambdaPromise

/-- `LambdaPromise::set_value` -/
def setValue (value : α) (func : ℕ) (state : LambdaState) : Except Failure (Log α × LambdaState) :=
  if state = .ready then .ok ([(func, .ok value)], .complete)
  else .error (.check "state_.get() == State::Ready")

/-- `LambdaPromise::set_error` -/
def setError (error : Status) (func : ℕ) (state : LambdaState) :
    Except Failure (Log α × LambdaState) :=
  if state = .ready then .ok ([(func, .error error)], .complete) else .ok ([], state)

/-- `~LambdaPromise` -/
def destroy (func : ℕ) (state : LambdaState) : Log α :=
  if state = .ready then [(func, .error lostPromise)] else []

end LambdaPromise

mutual

/-- The destructor of a `PromiseInterface`. -/
def PromiseInterface.destroy : PromiseInterface → Log α
  | .lambda func state => LambdaPromise.destroy func state
  | .join promises => destroyAll promises

/-- The destructors of promises. -/
def destroyAll : List Promise → Log α
  | [] => []
  | promise :: promises => Promise.destroy promise ++ destroyAll promises

/-- `~Promise`, and `reset`. -/
def Promise.destroy : Promise → Log α
  | none => []
  | some promise => promise.destroy

end

mutual

/-- `set_value` and `set_error` of a `PromiseInterface`, by those of a `LambdaPromise`. -/
def PromiseInterface.set (f : ℕ → LambdaState → Except Failure (Log α × LambdaState)) :
    PromiseInterface → Except Failure (Log α × PromiseInterface)
  | .lambda func state => do
    let (log, state) ← f func state
    return (log, .lambda func state)
  | .join promises => do
    let (log, promises) ← setAll f promises
    return (log, .join promises)

/-- `set_value` and `set_error` of promises one after another. -/
def setAll (f : ℕ → LambdaState → Except Failure (Log α × LambdaState)) :
    List Promise → Except Failure (Log α × List Promise)
  | [] => return ([], [])
  | promise :: promises => do
    let (log, promise) ← Promise.set f promise
    let (log', promises) ← setAll f promises
    return (log ++ log', promise :: promises)

/-- `set_value` and `set_error` of a `Promise`, which then resets its pointer. -/
def Promise.set (f : ℕ → LambdaState → Except Failure (Log α × LambdaState)) :
    Promise → Except Failure (Log α × Promise)
  | none => return ([], none)
  | some promise => do
    let (log, promise) ← promise.set f
    return (log ++ promise.destroy, none)

end

namespace PromiseInterface

def setValue (promise : PromiseInterface) (value : α) : Except Failure (Log α × PromiseInterface) :=
  promise.set (LambdaPromise.setValue value)

def setError (promise : PromiseInterface) (error : Status) :
    Except Failure (Log α × PromiseInterface) :=
  promise.set (LambdaPromise.setError error)

/-- `PromiseInterface::set_result` -/
def setResult (promise : PromiseInterface) : Result α → Except Failure (Log α × PromiseInterface)
  | .ok value => promise.setValue value
  | .error error => promise.setError error

end PromiseInterface

namespace Promise

/-- `Promise::set_value` -/
def setValue (promise : Promise) (value : α) : Except Failure (Log α × Promise) :=
  promise.set (LambdaPromise.setValue value)

/-- `Promise::set_error` -/
def setError (promise : Promise) (error : Status) : Except Failure (Log α × Promise) :=
  promise.set (LambdaPromise.setError error)

/-- `Promise::set_result` -/
def setResult (promise : Promise) (result : Result α) : Except Failure (Log α × Promise) :=
  match promise with
  | none => return ([], none)
  | some promise => do
    let (log, promise) ← promise.setResult result
    return (log ++ promise.destroy, none)

end Promise

/-- `set_promises`, without the promises, which are cleared. -/
def setPromises (promises : List Promise) (value : α) : Except Failure (Log α) := do
  let (log, promises) ← setAll (LambdaPromise.setValue value) promises
  return log ++ destroyAll promises

/-- `fail_promises`, without the promises, which are cleared. -/
def failPromises (promises : List Promise) (error : Status) : Except Failure (Log α) := do
  let (log, promises') ←
    setAll (LambdaPromise.setError error) (promises.dropLast.filter Option.isSome)
  let (log', last) ← setAll (LambdaPromise.setError error) promises.getLast?.toList
  return log ++ log' ++ (destroyAll promises' ++ destroyAll last)

/-! ## Objects -/

/-- What holds promises. -/
inductive Obj (α : Type) where
  | promise (promise : Promise)
  /-- `SafePromise` -/
  | safe (promise : Promise) (result : Result α)
  /-- `vector<Promise<T>>` -/
  | vector (promises : List Promise)

/-- The objects in the order in which they were constructed, how many lambdas were made, and what
was called. -/
structure State (α : Type) where
  objects : List (Option (Obj α)) := []
  created : ℕ := 0
  log : Log α := []

inductive Op (α : Type) where
  | empty
  /-- `PromiseCreator::lambda` -/
  | lambda
  /-- `PromiseCreator::join` -/
  | join (promises : List ℕ)
  | setValue (this : ℕ) (value : α)
  | setError (this : ℕ) (error : Status)
  | setResult (this : ℕ) (result : Result α)
  | reset (this : ℕ)
  | moveConstruct (other : ℕ)
  | moveAssign (this other : ℕ)
  | destroy (this : ℕ)
  | safe (promise : ℕ) (result : Result α)
  | safeMoveConstruct (other : ℕ)
  | safeMoveAssign (this other : ℕ)
  /-- The constructor of a `Promise` from a `SafePromise`. -/
  | release (other : ℕ)
  /-- The assignment of a `SafePromise` to a `Promise`. -/
  | assignSafe (this other : ℕ)
  | vector
  /-- `push_back` -/
  | push (this promise : ℕ)
  | setPromises (this : ℕ) (value : α)
  | failPromises (this : ℕ) (error : Status)

namespace State

def put (st : State α) (this : ℕ) (obj : Obj α) : State α :=
  { st with objects := st.objects.set this (some obj) }

def new (st : State α) (obj : Obj α) : State α := { st with objects := st.objects ++ [some obj] }

def call (st : State α) (log : Log α) : State α := { st with log := st.log ++ log }

def getPromise (st : State α) (this : ℕ) : Except Failure Promise :=
  match st.objects[this]? with
  | some (some (.promise promise)) => .ok promise
  | _ => .error .misuse

def getSafe (st : State α) (this : ℕ) : Except Failure (Promise × Result α) :=
  match st.objects[this]? with
  | some (some (.safe promise result)) => .ok (promise, result)
  | _ => .error .misuse

def getVector (st : State α) (this : ℕ) : Except Failure (List Promise) :=
  match st.objects[this]? with
  | some (some (.vector promises)) => .ok promises
  | _ => .error .misuse

/-- A promise that is moved. -/
def takePromise (st : State α) (other : ℕ) : Except Failure (Promise × State α) := do
  let promise ← st.getPromise other
  return (promise, st.put other (.promise none))

def takePromises (st : State α) : List ℕ → Except Failure (List Promise × State α)
  | [] => return ([], st)
  | other :: others => do
    let (promise, st) ← st.takePromise other
    let (promises, st) ← st.takePromises others
    return (promise :: promises, st)

/-- `release` of a safe promise. -/
def release (st : State α) (other : ℕ) : Except Failure (Promise × State α) := do
  let (promise, result) ← st.getSafe other
  return (promise, st.put other (.safe none result))

/-- The assignment of a pointer to a promise. -/
def assign (st : State α) (this : ℕ) (promise : Promise) : Except Failure (State α) := do
  let old ← st.getPromise this
  return (st.put this (.promise promise)).call old.destroy

/-- `~SafePromise` -/
def destroySafe (promise : Promise) (result : Result α) : Except Failure (Log α) :=
  match promise with
  | none => return []
  | some _ => do
    let (log, promise) ← promise.setResult result
    return log ++ promise.destroy

/-- What a destructor calls. -/
def destroyObj : Obj α → Except Failure (Log α)
  | .promise promise => return promise.destroy
  | .safe promise result => destroySafe promise result
  | .vector promises => return destroyAll promises

/-- The assignment of safe promises, by that of their members. -/
def safeMoveAssign (st : State α) (this other : ℕ) : Except Failure (State α) := do
  let (promise, st) ← st.release other
  let (old, result) ← st.getSafe this
  let st := (st.put this (.safe promise result)).call old.destroy
  if this = other then .error (.check "this != &other")
  else
    let (_, result) ← st.getSafe other
    return (st.put this (.safe promise result)).put other (.safe none (.error ⟨-3, ""⟩))

/-- One operation. -/
def step (st : State α) : Op α → Except Failure (State α)
  | .empty => return st.new (.promise none)
  | .lambda => return { st.new (.promise (some (.lambda st.created .ready))) with
      created := st.created + 1 }
  | .join promises => do
    let (promises, st) ← st.takePromises promises
    return st.new (.promise (some (.join promises)))
  | .setValue this value => do
    let promise ← st.getPromise this
    let (log, promise) ← promise.setValue value
    return (st.put this (.promise promise)).call log
  | .setError this error => do
    let promise ← st.getPromise this
    let (log, promise) ← promise.setError error
    return (st.put this (.promise promise)).call log
  | .setResult this result => do
    let promise ← st.getPromise this
    let (log, promise) ← promise.setResult result
    return (st.put this (.promise promise)).call log
  | .reset this => st.assign this none
  | .moveConstruct other => do
    let (promise, st) ← st.takePromise other
    return st.new (.promise promise)
  | .moveAssign this other => do
    let (promise, st) ← st.takePromise other
    st.assign this promise
  | .destroy this => do
    match st.objects[this]? with
    | some (some obj) =>
      let log ← destroyObj obj
      return { st with objects := st.objects.set this none }.call log
    | _ => .error .misuse
  | .safe promise result => do
    let (promise, st) ← st.takePromise promise
    return st.new (.safe promise result)
  | .safeMoveConstruct other => do
    let (promise, result) ← st.getSafe other
    return (st.put other (.safe none (.error ⟨-2, ""⟩))).new (.safe promise result)
  | .safeMoveAssign this other => st.safeMoveAssign this other
  | .release other => do
    let (promise, st) ← st.release other
    return st.new (.promise promise)
  | .assignSafe this other => do
    let (promise, st) ← st.release other
    st.assign this promise
  | .vector => return st.new (.vector [])
  | .push this promise => do
    let (promise, st) ← st.takePromise promise
    let promises ← st.getVector this
    return st.put this (.vector (promises ++ [promise]))
  | .setPromises this value => do
    let promises ← st.getVector this
    let log ← Promises.setPromises promises value
    return (st.put this (.vector [])).call log
  | .failPromises this error => do
    let promises ← st.getVector this
    let log ← Promises.failPromises promises error
    return (st.put this (.vector [])).call log

/-- Operations one after another. -/
def run (st : State α) : List (Op α) → Except Failure (State α)
  | [] => return st
  | op :: ops => do
    let st ← st.step op
    st.run ops

end State

/-! ## What lambdas are owed -/

/-- The error of a lambda that is called with none of the results that were set. -/
def lost {α : Type} : Result α := .error lostPromise

/-- For each object the lambdas that it holds, with what they get if it goes without a result, and
what lambdas got. -/
@[ext]
structure Ledger (α : Type) where
  owed : List (Log α) := []
  created : ℕ := 0
  log : Log α := []

/-- The lambdas get this instead. -/
def withResult {β : Type} (result : Result α) (l : List (ℕ × β)) : Log α :=
  l.map fun x ↦ (x.1, result)

namespace Ledger

def get (lg : Ledger α) (this : ℕ) : Log α := lg.owed.getD this []

/-- What an object holds goes elsewhere. -/
def take (lg : Ledger α) (this : ℕ) : Ledger α := { lg with owed := lg.owed.set this [] }

def add (lg : Ledger α) (this : ℕ) (l : Log α) : Ledger α :=
  { lg with owed := lg.owed.set this (lg.get this ++ l) }

def new (lg : Ledger α) (l : Log α) : Ledger α := { lg with owed := lg.owed ++ [l] }

def deliver (lg : Ledger α) (l : Log α) : Ledger α := { lg with log := lg.log ++ l }

def takeAll (lg : Ledger α) : List ℕ → Log α × Ledger α
  | [] => ([], lg)
  | other :: others =>
    let (l, lg') := (lg.take other).takeAll others
    (lg.get other ++ l, lg')

/-- An object gets these lambdas in place of what it holds, which gets what it is owed. -/
def replace (lg : Ledger α) (this : ℕ) (l : Log α) : Ledger α :=
  ((lg.take this).add this l).deliver (lg.get this)

/-- What an operation means for the lambdas: a result that is set is delivered, an object that goes
or gets another promise leaves its lambdas what they are owed, and the lambdas of an object that is
moved are those of the new one. -/
def step (lg : Ledger α) : Op α → Ledger α
  | .empty | .vector => lg.new []
  | .lambda => { lg.new [(lg.created, lost)] with created := lg.created + 1 }
  | .join promises => (lg.takeAll promises).2.new (lg.takeAll promises).1
  | .setValue this value | .setPromises this value =>
    (lg.take this).deliver (withResult (.ok value) (lg.get this))
  | .setError this error | .failPromises this error =>
    (lg.take this).deliver (withResult (.error error) (lg.get this))
  | .setResult this result => (lg.take this).deliver (withResult result (lg.get this))
  | .reset this | .destroy this => (lg.take this).deliver (lg.get this)
  | .moveConstruct other | .safeMoveConstruct other => (lg.take other).new (lg.get other)
  | .moveAssign this other | .safeMoveAssign this other =>
    (lg.take other).replace this (lg.get other)
  | .safe promise result => (lg.take promise).new (withResult result (lg.get promise))
  | .release other => (lg.take other).new (withResult lost (lg.get other))
  | .assignSafe this other => (lg.take other).replace this (withResult lost (lg.get other))
  | .push this promise => (lg.take promise).add this (lg.get promise)

end Ledger

/-! ## What a ledger keeps -/

@[simp] theorem map_withResult {β : Type} (result : Result α) (l : List (ℕ × β)) :
    (withResult result l).map Prod.fst = l.map Prod.fst := by
  simp [withResult]

@[simp] theorem withResult_append {β : Type} (result : Result α) (l l' : List (ℕ × β)) :
    withResult result (l ++ l') = withResult result l ++ withResult result l' :=
  List.map_append

theorem withResult_withResult {β : Type} (result result' : Result α) (l : List (ℕ × β)) :
    withResult result (withResult result' l) = withResult result l := by
  simp [withResult]

namespace Ledger

/-- What was delivered, and what is owed. -/
def all (lg : Ledger α) : Multiset (ℕ × Result α) := lg.log + lg.owed.flatten

/-- The lambdas that were called, and those that are held. -/
def lambdas (lg : Ledger α) : Multiset ℕ := lg.all.map Prod.fst

variable {lg : Ledger α} {this : ℕ}

theorem flatten_set {β : Type} {l : List (List β)} {i : ℕ} (h : i < l.length) (x : List β) :
    ((l.set i x).flatten : Multiset β) + l.getD i [] = l.flatten + x := by
  induction l generalizing i with
  | nil => cases h
  | cons y l ih =>
    cases i with
    | zero =>
      simp only [List.set_cons_zero, List.flatten_cons, List.getD_cons_zero, ← Multiset.coe_add]
      abel
    | succ i =>
      have ih := ih (by simpa using h)
      simp only [List.set_cons_succ, List.flatten_cons, List.getD_cons_succ, ← Multiset.coe_add]
      rw [add_assoc, ih, add_assoc]

theorem all_take (lg : Ledger α) (this : ℕ) : (lg.take this).all + lg.get this = lg.all := by
  by_cases h : this < lg.owed.length
  · rw [all, take, get, add_assoc, flatten_set h, Multiset.coe_nil, add_zero, all]
  · rw [all, take, get, List.set_eq_of_length_le (not_lt.1 h),
      List.getD_eq_default _ _ (not_lt.1 h), Multiset.coe_nil, add_zero, all]

theorem all_add (h : this < lg.owed.length) (l : Log α) : (lg.add this l).all = lg.all + l := by
  have hset := flatten_set h (lg.get this ++ l)
  rw [← Multiset.coe_add, add_left_comm, add_comm] at hset
  rw [all, all, add, add_assoc]
  congr 1
  exact add_left_cancel hset

theorem all_new (lg : Ledger α) (l : Log α) : (lg.new l).all = lg.all + l := by
  simp [all, new, add_assoc, ← Multiset.coe_add]

theorem all_deliver (lg : Ledger α) (l : Log α) : (lg.deliver l).all = lg.all + l := by
  simp only [all, deliver, ← Multiset.coe_add]
  abel

theorem all_takeAll (lg : Ledger α) (others : List ℕ) :
    (lg.takeAll others).2.all + (lg.takeAll others).1 = lg.all := by
  induction others generalizing lg with
  | nil => simp [takeAll]
  | cons other others ih =>
    simp only [takeAll, ← Multiset.coe_add]
    rw [← all_take lg other, ← ih (lg.take other)]
    abel

@[simp] theorem length_take (lg : Ledger α) (this : ℕ) :
    (lg.take this).owed.length = lg.owed.length := List.length_set

/-- What an operation needs the number of objects to be. -/
def InRange (lg : Ledger α) : Op α → Prop
  | .moveAssign this _ | .safeMoveAssign this _ | .assignSafe this _ | .push this _ =>
    this < lg.owed.length
  | _ => True

theorem all_replace (h : this < lg.owed.length) (l : Log α) :
    (lg.replace this l).all = lg.all + l := by
  rw [replace, all_deliver, all_add (by simpa using h), add_right_comm, all_take]

/-- What an object held is elsewhere now. -/
theorem lambdas_of_take {lg' : Ledger α} {l : Log α}
    (h : lg'.all = (lg.take this).all + l) (hl : l.map Prod.fst = (lg.get this).map Prod.fst) :
    lg'.lambdas = lg.lambdas := by
  rw [lambdas, h, lambdas, ← all_take lg this, Multiset.map_add, Multiset.map_add,
    Multiset.map_coe, Multiset.map_coe, hl]

theorem replace_eq (lg : Ledger α) (this : ℕ) (l : Log α) : lg.replace this l =
    { lg with owed := lg.owed.set this l, log := lg.log ++ lg.get this } := by
  have hget : (lg.take this).get this = [] := by
    by_cases h : this < lg.owed.length
    · simp [get, take, h]
    · simp [get, take, List.set_eq_of_length_le (not_lt.1 h), List.getElem?_eq_none (not_lt.1 h)]
  rw [replace, add, hget]
  simp [take, deliver]

theorem created_takeAll (lg : Ledger α) (others : List ℕ) :
    (lg.takeAll others).2.created = lg.created := by
  induction others generalizing lg with
  | nil => rfl
  | cons other others ih => exact ih (lg.take other)

/-- Lambdas are neither lost nor called twice. -/
theorem lambdas_step {op : Op α} (h : lg.InRange op)
    (hl : lg.lambdas = Multiset.range lg.created) :
    (lg.step op).lambdas = Multiset.range (lg.step op).created := by
  cases op with
  | empty | vector =>
    refine Eq.trans ?_ hl
    rw [lambdas, step, all_new, Multiset.coe_nil, add_zero, lambdas]
  | lambda =>
    change Multiset.map Prod.fst (lg.new [(lg.created, lost)]).all = Multiset.range (lg.created + 1)
    rw [all_new, Multiset.map_add, Multiset.range_succ, ← hl, ← Multiset.singleton_add, add_comm]
    rfl
  | join promises =>
    change (Ledger.new _ _).lambdas = Multiset.range (lg.takeAll promises).2.created
    rw [lambdas, all_new, all_takeAll, created_takeAll]
    exact hl
  | setValue this value | setPromises this value | setError this error
  | failPromises this error | setResult this result | reset this | destroy this =>
    exact (lambdas_of_take (all_deliver _ _) (by simp)).trans hl
  | moveConstruct other | safeMoveConstruct other | safe other result | release other =>
    exact (lambdas_of_take (all_new _ _) (by simp)).trans hl
  | moveAssign this other | safeMoveAssign this other | assignSafe this other =>
    exact (lambdas_of_take (all_replace (by simpa [InRange] using h) _) (by simp)).trans hl
  | push this promise =>
    exact (lambdas_of_take (all_add (by simpa [InRange] using h) _) (by simp)).trans hl

end Ledger

/-! ## What a promise holds -/

mutual

/-- The lambdas that a `PromiseInterface` holds. -/
def PromiseInterface.lambdas : PromiseInterface → List (ℕ × LambdaState)
  | .lambda func state => [(func, state)]
  | .join promises => lambdasAll promises

def lambdasAll : List Promise → List (ℕ × LambdaState)
  | [] => []
  | promise :: promises => Promise.lambdas promise ++ lambdasAll promises

def Promise.lambdas : Promise → List (ℕ × LambdaState)
  | none => []
  | some promise => promise.lambdas

end

/-- The lambdas were not called. -/
def Ready (l : List (ℕ × LambdaState)) : Prop := ∀ x ∈ l, x.2 = .ready

theorem ready_append {l l' : List (ℕ × LambdaState)} : Ready (l ++ l') ↔ Ready l ∧ Ready l' := by
  simp only [Ready, List.mem_append, or_imp, forall_and]

@[simp] theorem ready_nil : Ready [] := by simp [Ready]

theorem lambdasAll_append (ps ps' : List Promise) :
    lambdasAll (ps ++ ps') = lambdasAll ps ++ lambdasAll ps' := by
  induction ps with
  | nil => rfl
  | cons p ps ih => simp only [List.cons_append, lambdasAll, ih, List.append_assoc]

mutual

theorem PromiseInterface.destroy_of_ready : ∀ promise : PromiseInterface, Ready promise.lambdas →
    (promise.destroy : Log α) = withResult lost promise.lambdas
  | .lambda func state, h => by
    obtain rfl : state = .ready := h (func, state) (by simp [PromiseInterface.lambdas])
    rfl
  | .join promises, h => destroyAll_of_ready promises h

theorem destroyAll_of_ready : ∀ promises : List Promise, Ready (lambdasAll promises) →
    (destroyAll promises : Log α) = withResult lost (lambdasAll promises)
  | [], _ => rfl
  | promise :: promises, h => by
    obtain ⟨hpromise, hpromises⟩ := ready_append.1 h
    rw [destroyAll, Promise.destroy_of_ready promise hpromise,
      destroyAll_of_ready promises hpromises, lambdasAll, withResult_append]

theorem Promise.destroy_of_ready : ∀ promise : Promise, Ready promise.lambdas →
    (promise.destroy : Log α) = withResult lost promise.lambdas
  | none, _ => rfl
  | some promise, h => promise.destroy_of_ready h

end

section Set

variable {f : ℕ → LambdaState → Except Failure (Log α × LambdaState)} {result : Result α}

mutual

/-- All lambdas get the result, and the destructors call no lambda any more. -/
theorem PromiseInterface.set_of_ready
    (hf : ∀ func, f func .ready = .ok ([(func, result)], .complete)) :
    ∀ promise : PromiseInterface, Ready promise.lambdas → ∃ promise' : PromiseInterface,
      promise.set f = .ok (withResult result promise.lambdas, promise') ∧
        (promise'.destroy : Log α) = []
  | .lambda func state, h => by
    obtain rfl : state = .ready := h (func, state) (by simp [PromiseInterface.lambdas])
    refine ⟨.lambda func .complete, ?_, rfl⟩
    rw [PromiseInterface.set, hf]
    rfl
  | .join promises, h => by
    obtain ⟨promises', hset, hdestroy⟩ := setAll_of_ready hf promises h
    refine ⟨.join promises', ?_, hdestroy⟩
    rw [PromiseInterface.set, hset]
    rfl

theorem setAll_of_ready (hf : ∀ func, f func .ready = .ok ([(func, result)], .complete)) :
    ∀ promises : List Promise, Ready (lambdasAll promises) → ∃ promises',
      setAll f promises = .ok (withResult result (lambdasAll promises), promises') ∧
        (destroyAll promises' : Log α) = []
  | [], _ => ⟨[], rfl, rfl⟩
  | promise :: promises, h => by
    obtain ⟨hpromise, hpromises⟩ := ready_append.1 h
    obtain ⟨promises', hset, hdestroy⟩ := setAll_of_ready hf promises hpromises
    refine ⟨none :: promises', ?_, hdestroy⟩
    rw [setAll, Promise.set_of_ready hf promise hpromise, lambdasAll, withResult_append]
    simp only [hset]
    rfl

theorem Promise.set_of_ready (hf : ∀ func, f func .ready = .ok ([(func, result)], .complete)) :
    ∀ promise : Promise, Ready promise.lambdas →
      promise.set f = .ok (withResult result promise.lambdas, none)
  | none, _ => rfl
  | some promise, h => by
    obtain ⟨promise', hset, hdestroy⟩ := promise.set_of_ready hf h
    rw [Promise.set, hset]
    change Except.ok (withResult result promise.lambdas ++ promise'.destroy, none) = _
    rw [hdestroy, List.append_nil]
    rfl

end

end Set

variable {promise : Promise} {promises : List Promise}

theorem Promise.setValue_of_ready (h : Ready promise.lambdas) (value : α) :
    promise.setValue value = .ok (withResult (.ok value) promise.lambdas, none) :=
  promise.set_of_ready (fun _ ↦ rfl) h

theorem Promise.setError_of_ready (h : Ready promise.lambdas) (error : Status) :
    (promise.setError error : Except Failure (Log α × Promise)) =
      .ok (withResult (.error error) promise.lambdas, none) :=
  promise.set_of_ready (fun _ ↦ rfl) h

theorem Promise.setResult_of_ready (h : Ready promise.lambdas) (result : Result α) :
    promise.setResult result = .ok (withResult result promise.lambdas, none) := by
  cases promise with
  | none => rfl
  | some promise =>
    cases result with
    | ok value => exact setValue_of_ready h value
    | error error => exact setError_of_ready h error

theorem setPromises_of_ready (h : Ready (lambdasAll promises)) (value : α) :
    setPromises promises value = .ok (withResult (.ok value) (lambdasAll promises)) := by
  obtain ⟨promises', hset, hdestroy⟩ :=
    setAll_of_ready (f := LambdaPromise.setValue value) (fun _ ↦ rfl) promises h
  rw [setPromises, hset]
  change Except.ok (withResult (.ok value) (lambdasAll promises) ++ destroyAll promises') = _
  rw [hdestroy, List.append_nil]

theorem lambdasAll_filter (promises : List Promise) :
    lambdasAll (promises.filter Option.isSome) = lambdasAll promises := by
  induction promises with
  | nil => rfl
  | cons promise promises ih =>
    cases promise with
    | none => exact ih
    | some promise => exact congrArg (promise.lambdas ++ ·) ih

theorem failPromises_of_ready (h : Ready (lambdasAll promises)) (error : Status) :
    (failPromises promises error : Except Failure (Log α)) =
      .ok (withResult (.error error) (lambdasAll promises)) := by
  have hlambdas : lambdasAll (promises.dropLast.filter Option.isSome) ++
      lambdasAll promises.getLast?.toList = lambdasAll promises := by
    rw [lambdasAll_filter, ← lambdasAll_append]
    cases promises using List.reverseRecOn <;> simp
  rw [← hlambdas] at h ⊢
  obtain ⟨hinit, hlast⟩ := ready_append.1 h
  obtain ⟨init', hset, hdestroy⟩ :=
    setAll_of_ready (f := LambdaPromise.setError (α := α) error) (fun _ ↦ rfl) _ hinit
  obtain ⟨last', hset', hdestroy'⟩ :=
    setAll_of_ready (f := LambdaPromise.setError (α := α) error) (fun _ ↦ rfl) _ hlast
  simp only [failPromises, hset, hset', bind, Except.bind, pure, Except.pure, hdestroy, hdestroy',
    List.append_nil, withResult_append]

/-! ## What objects owe -/

/-- The lambdas of an object, with what they get if it goes. -/
def Obj.owed : Obj α → Log α
  | .promise promise => withResult lost promise.lambdas
  | .safe promise result => withResult result promise.lambdas
  | .vector promises => withResult lost (lambdasAll promises)

def Obj.lambdas : Obj α → List (ℕ × LambdaState)
  | .promise promise => promise.lambdas
  | .safe promise _ => promise.lambdas
  | .vector promises => lambdasAll promises

namespace State

/-- What the objects owe is what their ledger says. -/
def ledger (st : State α) : Ledger α where
  owed := st.objects.map fun obj ↦ (obj.map Obj.owed).getD []
  created := st.created
  log := st.log

/-- No object holds a lambda that was called. -/
def IsReady (st : State α) : Prop :=
  ∀ obj ∈ st.objects, ∀ obj' ∈ obj, Ready obj'.lambdas

variable {st : State α} {this other : ℕ} {obj : Obj α}

theorem ledger_put (st : State α) (this : ℕ) (obj : Obj α) :
    (st.put this obj).ledger = { st.ledger with owed := st.ledger.owed.set this obj.owed } := by
  simp only [ledger, put, List.map_set]
  rfl

theorem ledger_call (st : State α) (log : Log α) :
    (st.call log).ledger = st.ledger.deliver log := rfl

theorem ledger_new (st : State α) (obj : Obj α) :
    (st.new obj).ledger = st.ledger.new obj.owed := by
  simp only [ledger, new, List.map_append]
  rfl

theorem ledger_get (h : st.objects[this]? = some (some obj)) : st.ledger.get this = obj.owed := by
  simp [ledger, Ledger.get, h]

theorem lt_length (h : st.objects[this]? = some (some obj)) :
    this < st.ledger.owed.length := by
  simpa [ledger] using (List.getElem?_eq_some_iff.1 h).1

theorem IsReady.get (hst : st.IsReady) (h : st.objects[this]? = some (some obj)) :
    Ready obj.lambdas :=
  hst _ (List.mem_of_getElem? h) _ rfl

theorem IsReady.put (hst : st.IsReady) (h : Ready obj.lambdas) : (st.put this obj).IsReady := by
  intro o ho obj' hobj'
  rcases List.mem_or_eq_of_mem_set ho with ho | rfl
  · exact hst o ho obj' hobj'
  · obtain rfl := Option.some.inj hobj'
    exact h

theorem IsReady.new (hst : st.IsReady) (h : Ready obj.lambdas) : (st.new obj).IsReady := by
  intro o ho obj' hobj'
  rcases List.mem_append.1 ho with ho | ho
  · exact hst o ho obj' hobj'
  · obtain rfl := List.mem_singleton.1 ho
    obtain rfl := Option.some.inj hobj'
    exact h

theorem getPromise_cases (st : State α) (this : ℕ) : st.getPromise this = .error .misuse ∨
    ∃ promise, st.getPromise this = .ok promise ∧
      st.objects[this]? = some (some (.promise promise)) := by
  unfold getPromise
  split
  · exact .inr ⟨_, rfl, by assumption⟩
  · exact .inl rfl

theorem getSafe_cases (st : State α) (this : ℕ) : st.getSafe this = .error .misuse ∨
    ∃ promise result, st.getSafe this = .ok (promise, result) ∧
      st.objects[this]? = some (some (.safe promise result)) := by
  unfold getSafe
  split
  · exact .inr ⟨_, _, rfl, by assumption⟩
  · exact .inl rfl

theorem getSafe_of_objects {promise : Promise} {result : Result α}
    (h : st.objects[this]? = some (some (.safe promise result))) :
    st.getSafe this = .ok (promise, result) := by
  rw [getSafe, h]

theorem getVector_cases (st : State α) (this : ℕ) : st.getVector this = .error .misuse ∨
    ∃ promises, st.getVector this = .ok promises ∧
      st.objects[this]? = some (some (.vector promises)) := by
  unfold getVector
  split
  · exact .inr ⟨_, rfl, by assumption⟩
  · exact .inl rfl

/-! ## Steps -/

theorem takePromise_spec (hst : st.IsReady) (other : ℕ) :
    st.takePromise other = .error .misuse ∨ ∃ promise st',
      st.takePromise other = .ok (promise, st') ∧ Ready promise.lambdas ∧
      withResult lost promise.lambdas = st.ledger.get other ∧
      st'.ledger = st.ledger.take other ∧ st'.IsReady := by
  rcases st.getPromise_cases other with h | ⟨promise, h, hobj⟩
  · rw [takePromise, h]
    exact .inl rfl
  · refine .inr ⟨promise, st.put other (.promise none), ?_, hst.get hobj, (ledger_get hobj).symm,
      ledger_put _ _ _, hst.put ready_nil⟩
    rw [takePromise, h]
    rfl

theorem takePromises_spec (hst : st.IsReady) (others : List ℕ) :
    st.takePromises others = .error .misuse ∨ ∃ promises st',
      st.takePromises others = .ok (promises, st') ∧ Ready (lambdasAll promises) ∧
      withResult lost (lambdasAll promises) = (st.ledger.takeAll others).1 ∧
      st'.ledger = (st.ledger.takeAll others).2 ∧ st'.IsReady := by
  induction others generalizing st with
  | nil => exact .inr ⟨[], st, rfl, ready_nil, rfl, rfl, hst⟩
  | cons other others ih =>
    rcases takePromise_spec hst other with h | ⟨promise, st₁, h, hready, hget, hlg, hst₁⟩
    · rw [takePromises, h]
      exact .inl rfl
    · rcases ih hst₁ with h' | ⟨promises, st₂, h', hready', hget', hlg', hst₂⟩
      · refine .inl ?_
        rw [takePromises, h]
        simp only [bind, Except.bind, h']
      · refine .inr ⟨promise :: promises, st₂, ?_, ready_append.2 ⟨hready, hready'⟩, ?_, ?_, hst₂⟩
        · rw [takePromises, h]
          simp only [bind, Except.bind, h']
          rfl
        · rw [lambdasAll, withResult_append, hget, hget', hlg]
          rfl
        · rw [hlg', hlg]
          rfl

theorem release_spec (hst : st.IsReady) (other : ℕ) :
    st.release other = .error .misuse ∨ ∃ promise result,
      st.release other = .ok (promise, st.put other (.safe none result)) ∧
      Ready promise.lambdas ∧ withResult result promise.lambdas = st.ledger.get other ∧
      (st.put other (.safe none result)).ledger = st.ledger.take other ∧
      (st.put other (.safe none result)).IsReady ∧
      (st.put other (.safe none result)).objects[other]? = some (some (.safe none result)) := by
  rcases st.getSafe_cases other with h | ⟨promise, result, h, hobj⟩
  · rw [release, h]
    exact .inl rfl
  · refine .inr ⟨promise, result, ?_, hst.get hobj, (ledger_get hobj).symm,
      ledger_put _ _ _, hst.put ready_nil, List.getElem?_set_self ?_⟩
    · rw [release, h]
      rfl
    · exact (List.getElem?_eq_some_iff.1 hobj).1

theorem assign_spec (hst : st.IsReady) (this : ℕ) {promise : Promise}
    (hready : Ready promise.lambdas) :
    st.assign this promise = .error .misuse ∨ ∃ st', st.assign this promise = .ok st' ∧
      st'.ledger = st.ledger.replace this (withResult lost promise.lambdas) ∧ st'.IsReady ∧
      this < st.ledger.owed.length := by
  rcases st.getPromise_cases this with h | ⟨old, h, hobj⟩
  · rw [assign, h]
    exact .inl rfl
  · refine .inr ⟨(st.put this (.promise promise)).call old.destroy, ?_, ?_, hst.put hready,
      lt_length hobj⟩
    · rw [assign, h]
      rfl
    · rw [Promise.destroy_of_ready old (hst.get hobj), ledger_call, ledger_put, Ledger.replace_eq,
        ledger_get hobj]
      rfl

/-- What makes an assignment of safe promises deliver what it should: it is none of an object to
itself, and none over a promise whose lambdas are owed another result than a lost promise. -/
def Meets (st : State α) : Op α → Prop
  | .safeMoveAssign this other => this ≠ other ∧ ∀ promise result,
    st.objects[this]? = some (some (.safe promise result)) → promise.lambdas = [] ∨ result = lost
  | _ => True

/-- An operation is not asked for as the source has it, or does what it means for the lambdas. -/
def Does (st : State α) (op : Op α) (r : Except Failure (State α)) : Prop :=
  r = .error .misuse ∨ ∃ st', r = .ok st' ∧ st'.ledger = st.ledger.step op ∧ st'.IsReady ∧
    st.ledger.InRange op

/-- A promise gets a result. -/
theorem does_set (hst : st.IsReady) (this : ℕ) (op : Op α) {result : Result α}
    (hop : st.ledger.step op =
      (st.ledger.take this).deliver (withResult result (st.ledger.get this)))
    (hrange : st.ledger.InRange op) {f : Promise → Except Failure (Log α × Promise)}
    (hf : ∀ promise : Promise, Ready promise.lambdas →
      f promise = .ok (withResult result promise.lambdas, none)) :
    Does st op do
      let promise ← st.getPromise this
      let (log, promise) ← f promise
      return (st.put this (.promise promise)).call log := by
  rcases st.getPromise_cases this with h | ⟨promise, h, hobj⟩
  · rw [h]
    exact .inl rfl
  · refine .inr ⟨(st.put this (.promise none)).call (withResult result promise.lambdas), ?_, ?_,
      hst.put ready_nil, hrange⟩
    · rw [h]
      simp only [bind, Except.bind, hf promise (hst.get hobj)]
      rfl
    · rw [hop, ledger_get hobj, Obj.owed, withResult_withResult, ledger_call, ledger_put]
      rfl

/-- The promises of a vector get a result. -/
theorem does_setAll (hst : st.IsReady) (this : ℕ) (op : Op α) {result : Result α}
    (hop : st.ledger.step op =
      (st.ledger.take this).deliver (withResult result (st.ledger.get this)))
    (hrange : st.ledger.InRange op) {f : List Promise → Except Failure (Log α)}
    (hf : ∀ promises : List Promise, Ready (lambdasAll promises) →
      f promises = .ok (withResult result (lambdasAll promises))) :
    Does st op do
      let promises ← st.getVector this
      let log ← f promises
      return (st.put this (.vector [])).call log := by
  rcases st.getVector_cases this with h | ⟨promises, h, hobj⟩
  · rw [h]
    exact .inl rfl
  · refine .inr ⟨(st.put this (.vector [])).call (withResult result (lambdasAll promises)), ?_, ?_,
      hst.put ready_nil, hrange⟩
    · rw [h]
      simp only [bind, Except.bind, hf promises (hst.get hobj)]
      rfl
    · rw [hop, ledger_get hobj, Obj.owed, withResult_withResult, ledger_call, ledger_put]
      rfl

/-- An object is constructed from a promise that is moved. -/
theorem does_new (hst : st.IsReady) (other : ℕ) (op : Op α) (obj : Promise → Obj α)
    (hop : ∀ promise : Promise, withResult lost promise.lambdas = st.ledger.get other →
      st.ledger.step op = (st.ledger.take other).new (obj promise).owed)
    (hrange : st.ledger.InRange op) (hobj : ∀ promise, (obj promise).lambdas = promise.lambdas) :
    Does st op do
      let (promise, st) ← st.takePromise other
      return st.new (obj promise) := by
  rcases takePromise_spec hst other with h | ⟨promise, st', h, hready, hget, hlg, hst'⟩
  · rw [h]
    exact .inl rfl
  · refine .inr ⟨st'.new (obj promise), ?_, ?_, hst'.new (hobj promise ▸ hready), hrange⟩
    · rw [h]
      rfl
    · rw [hop promise hget, ledger_new, hlg]

theorem destroyObj_of_ready (h : Ready obj.lambdas) : destroyObj obj = .ok obj.owed := by
  cases obj with
  | promise promise => exact congrArg Except.ok (Promise.destroy_of_ready promise h)
  | vector promises => exact congrArg Except.ok (destroyAll_of_ready promises h)
  | safe promise result =>
    cases promise with
    | none => rfl
    | some promise =>
      simp only [destroyObj, destroySafe, bind, Except.bind,
        Promise.setResult_of_ready h]
      exact congrArg Except.ok (List.append_nil _)

theorem does_safeMoveAssign (hst : st.IsReady) (hm : st.Meets (.safeMoveAssign this other)) :
    Does st (.safeMoveAssign this other) (st.safeMoveAssign this other) := by
  obtain ⟨hne, hm⟩ := hm
  rcases release_spec hst other with h | ⟨promise, result, h, hready, hget, hlg, hst₁, hother⟩
  · rw [safeMoveAssign, h]
    exact .inl rfl
  have hget_this : (st.put other (.safe none result)).objects[this]? = st.objects[this]? :=
    List.getElem?_set_ne hne.symm
  generalize st.put other (.safe none result) = st₁ at h hlg hst₁ hother hget_this
  rcases st₁.getSafe_cases this with h' | ⟨old, result', h', hobj⟩
  · rw [safeMoveAssign, h]
    simp only [bind, Except.bind, h']
    exact .inl rfl
  -- what was held is owed a lost promise, or there is nothing
  have howed : withResult result' old.lambdas = withResult lost old.lambdas := by
    rcases hm old result' (hget_this ▸ hobj) with hnil | rfl
    · rw [hnil]
      rfl
    · rfl
  have hset : ((st₁.put this (.safe promise result')).call old.destroy).getSafe other =
      .ok (none, result) :=
    getSafe_of_objects ((List.getElem?_set_ne hne).trans hother)
  refine .inr ⟨(((st₁.put this (.safe promise result')).call old.destroy).put this
    (.safe promise result)).put other (.safe none (.error ⟨-3, ""⟩)), ?_, ?_, ?_, ?_⟩
  · rw [safeMoveAssign, h]
    simp only [bind, Except.bind, h', if_neg hne, hset]
    rfl
  · rw [ledger_put, ledger_put, ledger_call, ledger_put, Ledger.step, Ledger.replace_eq, ← hlg,
      ledger_get hobj, Promise.destroy_of_ready old (hst₁.get hobj), ← howed]
    refine Ledger.ext ?_ rfl rfl
    change List.set (List.set (List.set st₁.ledger.owed this _) this
      (withResult result promise.lambdas)) other [] = st₁.ledger.owed.set this (st.ledger.get other)
    rw [List.set_set, List.set_comm _ _ hne, hlg, hget]
    exact congrArg (List.set · this _) (List.set_set _)
  · exact IsReady.put (IsReady.put (hst₁.put hready) hready) ready_nil
  · simpa [hlg, Ledger.InRange] using lt_length hobj

theorem step_spec (hst : st.IsReady) {op : Op α} (hm : st.Meets op) : Does st op (st.step op) := by
  cases op with
  | empty => exact .inr ⟨_, rfl, ledger_new _ _, hst.new ready_nil, trivial⟩
  | vector => exact .inr ⟨_, rfl, ledger_new _ _, hst.new ready_nil, trivial⟩
  | lambda =>
    have hready : Ready (Obj.promise (α := α) (some (.lambda st.created .ready))).lambdas := by
      simp [Obj.lambdas, Promise.lambdas, PromiseInterface.lambdas, Ready]
    refine .inr ⟨_, rfl, ?_, hst.new hready, trivial⟩
    exact congrArg (fun lg : Ledger α ↦ { lg with created := st.created + 1 }) (ledger_new st _)
  | join promises =>
    rcases takePromises_spec hst promises with h | ⟨ps, st', h, hready, hget, hlg, hst'⟩
    · rw [step, h]
      exact .inl rfl
    · refine .inr ⟨st'.new (.promise (some (.join ps))), ?_, ?_, hst'.new hready, trivial⟩
      · rw [step, h]
        rfl
      · rw [ledger_new, hlg, Ledger.step, ← hget]
        rfl
  | setValue this value =>
    exact does_set hst this (.setValue this value) rfl trivial fun _ h ↦
      Promise.setValue_of_ready h value
  | setError this error =>
    exact does_set hst this (.setError this error) rfl trivial fun _ h ↦
      Promise.setError_of_ready h error
  | setResult this result =>
    exact does_set hst this (.setResult this result) rfl trivial fun _ h ↦
      Promise.setResult_of_ready h result
  | setPromises this value =>
    exact does_setAll hst this (.setPromises this value) rfl trivial fun _ h ↦
      setPromises_of_ready h value
  | failPromises this error =>
    exact does_setAll hst this (.failPromises this error) rfl trivial fun _ h ↦
      failPromises_of_ready h error
  | moveConstruct other =>
    exact does_new hst other (.moveConstruct other) .promise (fun p h ↦ by rw [Obj.owed, h]; rfl)
      trivial fun _ ↦ rfl
  | safe promise result =>
    refine does_new hst promise (.safe promise result) (.safe · result) (fun p h ↦ ?_) trivial
      fun _ ↦ rfl
    rw [Obj.owed, ← withResult_withResult result lost, h]
    rfl
  | reset this =>
    have hready : Ready (Promise.lambdas none) := ready_nil
    rcases assign_spec hst this hready with h | ⟨st', h, hlg, hst', -⟩
    · exact .inl h
    · refine .inr ⟨st', h, ?_, hst', trivial⟩
      rw [hlg, Ledger.replace_eq]
      rfl
  | destroy this =>
    rw [step]
    split
    case h_1 obj hobj =>
      refine .inr ⟨{ st with objects := st.objects.set this none }.call obj.owed, ?_, ?_, ?_,
        trivial⟩
      · rw [destroyObj_of_ready (hst.get hobj)]
        rfl
      · rw [ledger_call, Ledger.step, ledger_get hobj]
        simp only [ledger, List.map_set]
        rfl
      · intro o ho obj' hobj'
        rcases List.mem_or_eq_of_mem_set ho with ho | rfl
        · exact hst o ho obj' hobj'
        · cases hobj'
    case h_2 => exact .inl rfl
  | safeMoveConstruct other =>
    rcases st.getSafe_cases other with h | ⟨promise, result, h, hobj⟩
    · rw [step, h]
      exact .inl rfl
    · have hready := hst.get hobj
      refine .inr ⟨(st.put other (.safe none (.error ⟨-2, ""⟩))).new (.safe promise result), ?_, ?_,
        IsReady.new (hst.put ready_nil) hready, trivial⟩
      · rw [step, h]
        rfl
      · rw [ledger_new, ledger_put, Ledger.step, ledger_get hobj]
        rfl
  | moveAssign this other =>
    rcases takePromise_spec hst other with h | ⟨promise, st₁, h, hready, hget, hlg, hst₁⟩
    · rw [step, h]
      exact .inl rfl
    · rcases assign_spec hst₁ this hready with h' | ⟨st', h', hlg', hst', hlt⟩
      · rw [step, h]
        exact .inl h'
      · refine .inr ⟨st', ?_, ?_, hst', ?_⟩
        · rw [step, h]
          exact h'
        · rw [hlg', hlg, hget]
          rfl
        · simpa [hlg, Ledger.InRange] using hlt
  | safeMoveAssign this other => exact does_safeMoveAssign hst hm
  | release other =>
    rcases release_spec hst other with h | ⟨promise, result, h, hready, hget, hlg, hst', -⟩
    · rw [step, h]
      exact .inl rfl
    · refine .inr ⟨(st.put other (.safe none result)).new (.promise promise), ?_, ?_,
        hst'.new hready, trivial⟩
      · rw [step, h]
        rfl
      · rw [ledger_new, hlg, Ledger.step, ← hget, withResult_withResult]
        rfl
  | assignSafe this other =>
    rcases release_spec hst other with h | ⟨promise, result, h, hready, hget, hlg, hst', -⟩
    · rw [step, h]
      exact .inl rfl
    · rcases assign_spec hst' this hready with h' | ⟨st₂, h', hlg', hst₂, hlt⟩
      · rw [step, h]
        exact .inl h'
      · refine .inr ⟨st₂, ?_, ?_, hst₂, ?_⟩
        · rw [step, h]
          exact h'
        · rw [hlg', hlg, Ledger.step, ← hget, withResult_withResult]
        · simpa [hlg, Ledger.InRange] using hlt
  | push this promise =>
    rcases takePromise_spec hst promise with h | ⟨p, st', h, hready, hget, hlg, hst'⟩
    · rw [step, h]
      exact .inl rfl
    · rcases st'.getVector_cases this with h' | ⟨promises, h', hobj⟩
      · rw [step, h]
        simp only [bind, Except.bind, h']
        exact .inl rfl
      · have hall : lambdasAll (promises ++ [p]) = lambdasAll promises ++ p.lambdas := by
          rw [lambdasAll_append, lambdasAll, lambdasAll, List.append_nil]
        refine .inr ⟨st'.put this (.vector (promises ++ [p])), ?_, ?_, hst'.put ?_, ?_⟩
        · rw [step, h]
          simp only [bind, Except.bind, h']
          rfl
        · rw [ledger_put, Obj.owed, hall, withResult_append, hget, hlg, Ledger.step, Ledger.add,
            ← hlg, ledger_get hobj]
          rfl
        · rw [Obj.lambdas, hall]
          exact ready_append.2 ⟨hst'.get hobj, hready⟩
        · have hlt := lt_length hobj
          simpa [hlg, Ledger.InRange] using hlt

/-! ## Runs -/

/-- Each step of a run is as `Meets` says. -/
def MeetsAll (st : State α) : List (Op α) → Prop
  | [] => True
  | op :: ops => st.Meets op ∧
    match st.step op with
    | .ok st' => st'.MeetsAll ops
    | .error _ => True

theorem run_spec (hst : st.IsReady) {ops : List (Op α)} (hm : st.MeetsAll ops)
    (hl : st.ledger.lambdas = Multiset.range st.created) :
    st.run ops = .error .misuse ∨ ∃ st', st.run ops = .ok st' ∧
      st'.ledger = ops.foldl Ledger.step st.ledger ∧
      st'.ledger.lambdas = Multiset.range st'.created := by
  induction ops generalizing st with
  | nil => exact .inr ⟨st, rfl, rfl, hl⟩
  | cons op ops ih =>
    obtain ⟨hop, hops⟩ := hm
    rcases step_spec hst hop with h | ⟨st₁, h, hlg, hst₁, hrange⟩
    · rw [run, h]
      exact .inl rfl
    · have hl₁ : st₁.ledger.lambdas = Multiset.range st₁.created := by
        rw [hlg, Ledger.lambdas_step hrange hl, ← hlg]
        rfl
      rw [h] at hops
      rw [run, h, List.foldl_cons, ← hlg]
      exact ih hst₁ hops hl₁

/-- Each lambda is called once: with the result that is set, or else with what it is owed. -/
theorem run_calls_once {ops : List (Op α)} (hm : MeetsAll {} ops) :
    (∀ text, run {} ops ≠ .error (.check text)) ∧ ∀ st, run {} ops = .ok st →
      st.log = (ops.foldl Ledger.step {}).log ∧
      (st.log.map Prod.fst ++ st.ledger.owed.flatten.map Prod.fst).Perm (List.range st.created) ∧
      ((∀ obj ∈ st.objects, obj = none) →
        (st.log.map Prod.fst).Perm (List.range st.created)) := by
  have hready : ({} : State α).IsReady := fun _ h ↦ absurd h (by simp)
  rcases run_spec hready hm rfl with h | ⟨st, h, hlg, hl⟩
  · simp [h]
  refine ⟨by simp [h], fun st' h' ↦ ?_⟩
  obtain rfl := Except.ok.inj (h.symm.trans h')
  have hperm : (st.log.map Prod.fst ++ st.ledger.owed.flatten.map Prod.fst).Perm
      (List.range st.created) := by
    rw [← List.map_append]
    exact Multiset.coe_eq_coe.1 hl
  refine ⟨congrArg Ledger.log hlg, hperm, fun hnone ↦ ?_⟩
  have howed : st.ledger.owed.flatten = [] := by
    rw [List.flatten_eq_nil_iff]
    intro l hl'
    obtain ⟨obj, hobj, rfl⟩ := List.mem_map.1 hl'
    rw [hnone obj hobj]
    rfl
  rw [howed, List.map_nil, List.append_nil] at hperm
  exact hperm

/-- A joined promise goes over to a safe one that is assigned to an empty one. -/
theorem run_calls_once_join :
    MeetsAll (α := ℕ) {} [.lambda, .lambda, .join [0, 1], .safe 2 (.ok 5), .empty, .safe 4 (.ok 7),
      .safeMoveAssign 5 3, .destroy 3, .destroy 5] ∧
    ∀ st, run (α := ℕ) {} [.lambda, .lambda, .join [0, 1], .safe 2 (.ok 5), .empty,
      .safe 4 (.ok 7), .safeMoveAssign 5 3, .destroy 3, .destroy 5] = .ok st →
      st.log = [(0, .ok 5), (1, .ok 5)] := by
  have hm : MeetsAll (α := ℕ) {} [.lambda, .lambda, .join [0, 1], .safe 2 (.ok 5), .empty,
      .safe 4 (.ok 7), .safeMoveAssign 5 3, .destroy 3, .destroy 5] := by
    refine ⟨trivial, trivial, trivial, trivial, trivial, trivial, ⟨by decide, ?_⟩, trivial,
      trivial, trivial⟩
    intro promise result h
    cases h
    exact .inl rfl
  exact ⟨hm, fun st h ↦ ((run_calls_once hm).2 st h).1⟩

/-- A safe promise that gets another one loses the result that it stored. -/
theorem run_calls_lost : ¬ ∀ (ops : List (Op ℕ)) (st : State ℕ), run {} ops = .ok st →
    st.log = (ops.foldl Ledger.step {}).log := by
  intro h
  have hlog := h [.lambda, .safe 0 (.ok 5), .lambda, .safe 2 (.ok 7), .safeMoveAssign 1 3] _ rfl
  have hfirst : (0, Except.error lostPromise) = ((0, .ok 5) : ℕ × Result ℕ) :=
    (List.cons.inj hlog).1
  cases hfirst

end State

end Promises

end PxcCore
