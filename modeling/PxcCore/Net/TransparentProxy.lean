import Mathlib

/-!
# `TransparentProxy`

`TransparentProxy.cpp`: an actor that gives a socket back when its `loop_impl` is done with it.  The
callback is told of the outcome by whichever of `on_error` and `tear_down` comes first.
-/

namespace PxcCore

/-- An error `Status`. -/
structure TransparentProxy.Error where
  code : ℤ := 0
  message : String
deriving DecidableEq, Repr

/-- What the proxy uses of a `BufferedFd<SocketFd>`, whose state includes what the operating system
does to the socket. -/
structure TransparentProxy.Socket (FdT : Type) where
  /-- `sync_with_poll` -/
  syncWithPoll : FdT → FdT
  /-- `can_write_local` -/
  canWriteLocal : FdT → Bool
  /-- `can_close_local` -/
  canCloseLocal : FdT → Bool
  /-- `flush_read` -/
  flushRead : FdT → Except TransparentProxy.Error ℕ × FdT
  /-- `flush_write` -/
  flushWrite : FdT → Except TransparentProxy.Error ℕ × FdT
  /-- The size of `input_buffer` -/
  inputSize : FdT → ℕ

/-- What `loop_impl` of a derived class does: it returns a status, it may call `stop`, and it leaves
the buffers and the members of the class behind. -/
structure TransparentProxy.LoopResult (FdT DerivedT : Type) where
  status : Except TransparentProxy.Error Unit
  stops : Bool
  fd : FdT
  derived : DerivedT

/-- `TransparentProxy`, with the calls of `set_result` and the errors that `on_error` receives. -/
structure TransparentProxy (FdT DerivedT : Type) where
  fd : FdT
  derived : DerivedT
  hasCallback : Bool := true
  isSubscribed : Bool := false
  timeoutIn : Option ℚ := none
  isStopped : Bool := false
  results : List (Except TransparentProxy.Error FdT) := []
  received : List TransparentProxy.Error := []

namespace TransparentProxy

/-! ## Operations -/

section Operations

variable {FdT DerivedT : Type} (socket : Socket FdT)
  (loopImpl : FdT → DerivedT → LoopResult FdT DerivedT)

/-- `set_result` of the callback, which is reset afterwards. -/
def setResult (result : Except Error FdT) (p : TransparentProxy FdT DerivedT) :
    TransparentProxy FdT DerivedT :=
  { p with results := p.results ++ [result], hasCallback := false }

/-- `on_error` -/
def onError (status : Error) (p : TransparentProxy FdT DerivedT) : TransparentProxy FdT DerivedT :=
  let p := { p with received := p.received ++ [status] }
  let p := if p.hasCallback then p.setResult (.error status) else p
  { p with isStopped := true }

/-- `tear_down` -/
def tearDown (p : TransparentProxy FdT DerivedT) : TransparentProxy FdT DerivedT :=
  let p := { p with isSubscribed := false }
  if p.hasCallback then
    if socket.inputSize p.fd ≠ 0 then
      p.setResult (.error { message := "Proxy has sent too many data" })
    else p.setResult (.ok p.fd)
  else p

/-- `hangup` -/
def hangup (p : TransparentProxy FdT DerivedT) : TransparentProxy FdT DerivedT :=
  p.onError { message := "Canceled" }

/-- What may fail in `loop`. -/
abbrev Loop (FdT DerivedT : Type) := ExceptT Error (StateM (TransparentProxy FdT DerivedT))

/-- A method of the socket. -/
def onFd (method : FdT → Except Error ℕ × FdT) : Loop FdT DerivedT ℕ := fun p ↦
  ((method p.fd).1, { p with fd := (method p.fd).2 })

/-- `loop_impl` -/
def callLoopImpl : Loop FdT DerivedT Unit := fun p ↦
  let result := loopImpl p.fd p.derived
  (result.status, { p with
    fd := result.fd, derived := result.derived, isStopped := p.isStopped || result.stops })

/-- What `loop` does up to the first error. -/
def loopStatus : Loop FdT DerivedT Unit := do
  let _ ← onFd socket.flushRead
  callLoopImpl loopImpl
  let _ ← onFd socket.flushWrite
  if socket.canCloseLocal (← get).fd then throw { message := "Connection closed" }

/-- `loop` -/
def loop (p : TransparentProxy FdT DerivedT) : TransparentProxy FdT DerivedT :=
  match loopStatus socket loopImpl { p with fd := socket.syncWithPoll p.fd } with
  | (.error status, p) => p.onError status
  | (.ok (), p) => p

/-- `start_up` -/
def startUp (p : TransparentProxy FdT DerivedT) : TransparentProxy FdT DerivedT :=
  let p := { p with isSubscribed := true, timeoutIn := some 10 }
  let p := { p with fd := socket.syncWithPoll p.fd }
  if socket.canWriteLocal p.fd then p.loop socket loopImpl else p

/-- `timeout_expired` -/
def timeoutExpired (p : TransparentProxy FdT DerivedT) : TransparentProxy FdT DerivedT :=
  p.onError { message := "Connection timeout expired" }

/-- What the scheduler calls between `start_up` and `tear_down`.  Each event may come at any time,
also after `stop`. -/
inductive Event where
  | loop
  | hangup
  | timeoutExpired
deriving DecidableEq, Repr

def step (p : TransparentProxy FdT DerivedT) : Event → TransparentProxy FdT DerivedT
  | .loop => p.loop socket loopImpl
  | .hangup => p.hangup
  | .timeoutExpired => p.timeoutExpired

/-- The life of a new proxy up to `tear_down`. -/
def live (fd : FdT) (derived : DerivedT) (events : List Event) : TransparentProxy FdT DerivedT :=
  events.foldl (step socket loopImpl) (startUp socket loopImpl { fd, derived })

end Operations

/-! ## The callback -/

variable {FdT DerivedT : Type} {socket : Socket FdT}
  {loopImpl : FdT → DerivedT → LoopResult FdT DerivedT} {p p' p'' : TransparentProxy FdT DerivedT}

/-- What does not concern the callback. -/
structure Kept (p p' : TransparentProxy FdT DerivedT) : Prop where
  hasCallback : p'.hasCallback = p.hasCallback
  results : p'.results = p.results
  received : p'.received = p.received
  isStopped : p.isStopped = true → p'.isStopped = true

theorem Kept.trans (h : Kept p p') (h' : Kept p' p'') : Kept p p'' where
  hasCallback := h'.hasCallback.trans h.hasCallback
  results := h'.results.trans h.results
  received := h'.received.trans h.received
  isStopped hstopped := h'.isStopped (h.isStopped hstopped)

/-- A part of `loop` that does not concern the callback. -/
def Keeps {α : Type} (x : Loop FdT DerivedT α) : Prop := ∀ p, Kept p (x p).2

theorem bind_ok {α β : Type} {x : Loop FdT DerivedT α} {a : α} (f : α → Loop FdT DerivedT β)
    (h : x p = (.ok a, p')) : (x >>= f) p = f a p' := by
  simp only [bind, ExceptT.bind, ExceptT.mk, StateT.bind, h]
  rfl

theorem bind_error {α β : Type} {x : Loop FdT DerivedT α} {status : Error}
    (f : α → Loop FdT DerivedT β) (h : x p = (.error status, p')) :
    (x >>= f) p = (.error status, p') := by
  simp only [bind, ExceptT.bind, ExceptT.mk, StateT.bind, h]
  rfl

theorem Keeps.bind {α β : Type} {x : Loop FdT DerivedT α} {f : α → Loop FdT DerivedT β}
    (hx : Keeps x) (hf : ∀ a, Keeps (f a)) : Keeps (x >>= f) := by
  intro p
  have hfirst := hx p
  cases h : x p with
  | mk result p' =>
    rw [h] at hfirst
    cases result with
    | error status =>
      rw [bind_error f h]
      exact hfirst
    | ok a =>
      rw [bind_ok f h]
      exact hfirst.trans (hf a p')

theorem keeps_onFd (method : FdT → Except Error ℕ × FdT) :
    Keeps (onFd method : Loop FdT DerivedT ℕ) := fun _ ↦ ⟨rfl, rfl, rfl, id⟩

theorem keeps_callLoopImpl : Keeps (callLoopImpl loopImpl) := fun p ↦
  ⟨rfl, rfl, rfl, fun hstopped ↦ by rw [callLoopImpl, hstopped, Bool.true_or]⟩

theorem keeps_loopStatus : Keeps (loopStatus socket loopImpl) := by
  refine (keeps_onFd _).bind fun _ ↦ keeps_callLoopImpl.bind fun _ ↦ (keeps_onFd _).bind fun _ ↦ ?_
  refine Keeps.bind (fun _ ↦ ⟨rfl, rfl, rfl, id⟩) fun p ↦ ?_
  split_ifs <;> exact fun _ ↦ ⟨rfl, rfl, rfl, id⟩

/-- The callback is there as long as no error has come, it has been told of the first one, and after
an error the actor is stopped. -/
structure Inv (p : TransparentProxy FdT DerivedT) : Prop where
  hasCallback : p.hasCallback = p.received.isEmpty
  results : p.results = (p.received.take 1).map .error
  isStopped : p.received ≠ [] → p.isStopped = true

theorem Inv.of_kept (h : Inv p) (hkept : Kept p p') : Inv p' where
  hasCallback := by rw [hkept.hasCallback, hkept.received, h.hasCallback]
  results := by rw [hkept.results, hkept.received, h.results]
  isStopped hne := hkept.isStopped (h.isStopped (hkept.received ▸ hne))

/-- Only the first error is told. -/
theorem Inv.onError (h : Inv p) (status : Error) : Inv (p.onError status) := by
  cases hreceived : p.received with
  | nil =>
    have hcallback : p.hasCallback = true := by rw [h.hasCallback, hreceived]; rfl
    have hresults : p.results = [] := by rw [h.results, hreceived]; rfl
    constructor <;> simp [TransparentProxy.onError, hcallback, setResult, hreceived, hresults]
  | cons first rest =>
    have hcallback : p.hasCallback = false := by rw [h.hasCallback, hreceived]; rfl
    constructor <;> simp [TransparentProxy.onError, hcallback, hreceived, h.results]

theorem Inv.loop (h : Inv p) : Inv (p.loop socket loopImpl) := by
  have hsync : Kept p { p with fd := socket.syncWithPoll p.fd } := ⟨rfl, rfl, rfl, id⟩
  have hkept := hsync.trans (@keeps_loopStatus _ _ socket loopImpl _)
  rw [TransparentProxy.loop]
  split <;> rename_i heq
  · rw [heq] at hkept
    exact (h.of_kept hkept).onError _
  · rw [heq] at hkept
    exact h.of_kept hkept

theorem Inv.startUp (h : Inv p) : Inv (p.startUp socket loopImpl) := by
  have hkept : Kept p { p with
    isSubscribed := true, timeoutIn := some 10, fd := socket.syncWithPoll p.fd } :=
    ⟨rfl, rfl, rfl, id⟩
  rw [TransparentProxy.startUp]
  split_ifs
  · exact (h.of_kept hkept).loop
  · exact h.of_kept hkept

theorem Inv.step (h : Inv p) (event : Event) : Inv (step socket loopImpl p event) := by
  cases event with
  | loop => exact h.loop
  | hangup => exact h.onError _
  | timeoutExpired => exact h.onError _

/-- Whatever happens before the end. -/
theorem inv_live (fd : FdT) (derived : DerivedT) (events : List Event) :
    Inv (live socket loopImpl fd derived events) := by
  have hnew : Inv ({ fd, derived } : TransparentProxy FdT DerivedT) := ⟨rfl, rfl, by simp⟩
  have hstart : Inv (TransparentProxy.startUp socket loopImpl { fd, derived }) := hnew.startUp
  rw [live]
  generalize TransparentProxy.startUp socket loopImpl { fd, derived } = p at hstart
  induction events generalizing p with
  | nil => exact hstart
  | cons event events ih => exact ih _ (hstart.step event)

end TransparentProxy

end PxcCore
