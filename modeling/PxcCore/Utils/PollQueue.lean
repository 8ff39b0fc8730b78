import PxcCore.Lib.LinkedList
import PxcCore.Lib.RingBuffer
import PxcCore.Lib.Traces

/-!
# PollQueue

`PollQueue` of `queue.h`, with `BackoffQueue`, `SPSCChainQueue` and `SPSCBlockQueue`: one thread
puts values into the last block of a chain, another one takes them from the first block, and sleeps
on an event fd when there are none.  Each access to what both threads share is a step of its own.
-/

namespace PxcCore.PollQueue

open PxcCore.Lib

/-! ## Blocks -/

/-- The difference of two numbers of type `uint32`. -/
def sub32 (i j : ℕ) : ℕ := (i % 2 ^ 32 + 2 ^ 32 - j % 2 ^ 32) % 2 ^ 32

/-- `Node`, with its `SPSCBlockQueue`: the numbers are counted on behind `2 ^ 32`, and read as
`uint32`. -/
structure Node (T : Type) where
  writerI : ℕ := 0
  writerLocalWriterI : ℕ := 0
  writerLocalReaderI : ℕ := 0
  readerI : ℕ := 0
  readerLocalWriterI : ℕ := 0
  readerLocalReaderI : ℕ := 0
  data : ℕ → Option T := fun _ ↦ none
  isClosed : Bool := false
  next : Option ℕ := none

namespace Node

variable {T : Type}

/-- `fix_i` -/
def fixI (p i : ℕ) : ℕ := i % 2 ^ 32 &&& (2 ^ p - 1)

def writerSize (p : ℕ) (node : Node T) : ℕ :=
  sub32 (node.writerLocalReaderI + 2 ^ p) node.writerLocalWriterI

def writerEmpty (p : ℕ) (node : Node T) : Bool :=
  (node.writerLocalReaderI + 2 ^ p) % 2 ^ 32 == node.writerLocalWriterI % 2 ^ 32

def writerPutUnsafe (p : ℕ) (node : Node T) (value : T) : Node T :=
  { node with
    data := Function.update node.data (fixI p node.writerLocalWriterI) (some value)
    writerLocalWriterI := node.writerLocalWriterI + 1 }

/-- The load in `writer_update`. -/
def writerUpdate (node : Node T) : Node T := { node with writerLocalReaderI := node.readerI }

def writerFlush (node : Node T) : Node T := { node with writerI := node.writerLocalWriterI }

def readerSize (node : Node T) : ℕ := sub32 node.readerLocalWriterI node.readerLocalReaderI

/-- The load in `reader_update`. -/
def readerUpdate (node : Node T) : Node T := { node with readerLocalWriterI := node.writerI }

def readerFlush (node : Node T) : Node T := { node with readerI := node.readerLocalReaderI }

/-- `reader_get_unsafe`: the value, and the node behind it. -/
def readerGetUnsafe (p : ℕ) (node : Node T) : Option (T × Node T) :=
  (node.data (fixI p node.readerLocalReaderI)).map
    (·, { node with readerLocalReaderI := node.readerLocalReaderI + 1 })

end Node

/-! ## Chains of blocks -/

/-- Where the writer is: outside of the calls, or before an access in `writer_put` or, with the
local variable, in `writer_flush`. -/
inductive Writer (T : Type) where
  | outside
  | update (value : T)
  | flush (value : T)
  | newNode (value : T)
  | close (value : T) (newTail : ℕ)
  | updateNew (value : T)
  | put (value : T)
  | flushStore (oldWaitState : ℕ)
  | flushCheck (oldWaitState : ℕ)
  | flushRelease (oldWaitState : ℕ)
  deriving DecidableEq, Repr

/-- Which call of `reader_update` it is: one of `reader_wait`, with the count of its `Backoff`, or
the one before or behind `event_fd_.acquire()`. -/
inductive Attempt where
  | backoff (cnt : ℕ)
  | armed
  | acquired
  deriving DecidableEq, Repr

/-- The accesses of `reader_update`. -/
inductive Stage where
  | first
  | closed
  | again
  | advance
  | last
  deriving DecidableEq, Repr

/-- Where the reader is: outside of `reader_wait_nonblock`, the last call of which has returned this
number, or before an access in it. -/
inductive Reader where
  | outside (last : Option ℕ)
  | update (attempt : Attempt) (stage : Stage)
  | arm
  | acquire
  | disarm (res : ℕ)
  deriving DecidableEq, Repr

/-- `PollQueue`, with the nodes at their addresses, all values that `writer_put` has put and
`reader_get_unsafe` has got, and how many were there at the last `writer_flush`. -/
structure Queue (T : Type) where
  nodes : ℕ → Node T := fun _ ↦ {}
  allocated : List ℕ
  head : ℕ
  tail : ℕ
  waitState : ℕ := 0
  eventFd : ℕ := 0
  writerWaitState : ℕ := 0
  writer : Writer T := .outside
  reader : Reader := .outside none
  put : List T := []
  got : List T := []
  flushed : ℕ := 0

/-- `writerNew` is the step in which the writer creates a node, at an address that is free; `writer`
and `reader` are the other accesses of the calls. -/
inductive Step (T : Type) where
  | writerPut (value : T)
  | writerFlush
  | writerNew (node : ℕ)
  | writer
  | readerWaitNonblock
  | readerGetUnsafe
  | readerFlush
  | reader
  deriving DecidableEq, Repr

/-- Why a step is not made. -/
inductive Stop where
  | disabled
  | useAfterDelete
  | nullPointer
  | uninitialized
  | check
  deriving DecidableEq, Repr

/-- `Backoff::next`, with the count before the call. -/
def backoffNext (cnt : ℕ) : Bool :=
  let cnt := cnt + 1
  if cnt < 1 then true else cnt < 3

namespace Queue

variable {T : Type}

/-- `init`, with the address of the first node. -/
def init (T : Type) (node : ℕ) : Queue T := { allocated := [node], head := node, tail := node }

def setNode (q : Queue T) (address : ℕ) (node : Node T) : Queue T :=
  { q with nodes := Function.update q.nodes address node }

/-- An access to a node. -/
def access (q : Queue T) (address : ℕ) (f : Node T → Except Stop (Queue T)) :
    Except Stop (Queue T) :=
  if address ∈ q.allocated then f (q.nodes address) else .error .useAfterDelete

/-- The next access of the writer. -/
def writerStep (p : ℕ) (q : Queue T) : Except Stop (Queue T) :=
  match q.writer with
  | .outside => .error .disabled
  | .update value =>
    q.access q.tail fun node ↦
      .ok { q.setNode q.tail node.writerUpdate with
        writer := if node.writerUpdate.writerSize p = 0 then .flush value else .put value }
  | .flush value =>
    q.access q.tail fun node ↦
      .ok { q.setNode q.tail node.writerFlush with writer := .newNode value }
  | .newNode _ => .error .disabled
  | .close value newTail =>
    q.access q.tail fun node ↦
      .ok { q.setNode q.tail { node with isClosed := true } with
        tail := newTail
        writer := .updateNew value }
  | .updateNew value =>
    q.access q.tail fun node ↦
      if node.writerUpdate.writerSize p = 0 then .error .check
      else .ok { q.setNode q.tail node.writerUpdate with writer := .put value }
  | .put value =>
    q.access q.tail fun node ↦
      .ok { q.setNode q.tail (node.writerPutUnsafe p value) with
        put := q.put ++ [value]
        writer := .outside }
  | .flushStore old =>
    q.access q.tail fun node ↦
      .ok { q.setNode q.tail node.writerFlush with
        flushed := q.put.length
        writer := .flushCheck old }
  | .flushCheck old =>
    if q.waitState % 2 = 1 ∧ q.waitState ≠ q.writerWaitState then
      .ok { q with writer := .flushRelease old }
    else .ok { q with writer := .outside }
  | .flushRelease old =>
    .ok { q with eventFd := q.eventFd + 1, writerWaitState := old, writer := .outside }

/-- `create_node`, and the store of `next_`. -/
def createNode (q : Queue T) (newTail : ℕ) : Queue T :=
  { (q.setNode newTail {}).setNode q.tail { q.nodes q.tail with next := some newTail } with
    allocated := newTail :: q.allocated }

def writerNew (q : Queue T) (newTail : ℕ) : Except Stop (Queue T) :=
  match q.writer with
  | .newNode value =>
    if newTail ∈ q.allocated then .error .disabled
    else q.access q.tail fun _ ↦ .ok { q.createNode newTail with writer := .close value newTail }
  | _ => .error .disabled

/-- What follows when `reader_update` returns this number. -/
def returns (res : ℕ) : Attempt → Reader
  | .backoff cnt =>
    if res ≠ 0 then .outside (some res)
    else if backoffNext cnt then .update (.backoff (cnt + 1)) .first
    else .arm
  | .armed => if res ≠ 0 then .disarm res else .acquire
  | .acquired => if res ≠ 0 then .disarm res else .outside (some 0)

/-- The load of `writer_.i`, with what follows if there are no values. -/
def load (q : Queue T) (attempt : Attempt) (empty : Reader) : Except Stop (Queue T) :=
  q.access q.head fun node ↦
    let node := node.readerUpdate
    .ok { q.setNode q.head node with
      reader := if node.readerSize ≠ 0 then returns node.readerSize attempt else empty }

/-- The next access of the reader. -/
def readerStep (q : Queue T) : Except Stop (Queue T) :=
  match q.reader with
  | .outside _ => .error .disabled
  | .update attempt .first => q.load attempt (.update attempt .closed)
  | .update attempt .closed =>
    q.access q.head fun node ↦
      .ok { q with reader := if node.isClosed then .update attempt .again else returns 0 attempt }
  | .update attempt .again => q.load attempt (.update attempt .advance)
  | .update attempt .advance =>
    q.access q.head fun node ↦
      match node.next with
      | none => .error .nullPointer
      | some next =>
        .ok { q with
          head := next
          allocated := q.allocated.erase q.head
          reader := .update attempt .last }
  | .update attempt .last => q.load attempt (returns 0 attempt)
  | .arm => .ok { q with waitState := q.waitState + 1, reader := .update .armed .first }
  | .acquire => .ok { q with eventFd := 0, reader := .update .acquired .first }
  | .disarm res => .ok { q with waitState := q.waitState + 1, reader := .outside (some res) }

def step (p : ℕ) (q : Queue T) : Step T → Except Stop (Queue T)
  | .writerPut value =>
    match q.writer with
    | .outside =>
      q.access q.tail fun node ↦
        .ok { q with writer := if node.writerEmpty p then .update value else .put value }
    | _ => .error .disabled
  | .writerFlush =>
    match q.writer with
    | .outside => .ok { q with writer := .flushStore q.waitState }
    | _ => .error .disabled
  | .writerNew newTail => q.writerNew newTail
  | .writer => q.writerStep p
  | .readerWaitNonblock =>
    match q.reader with
    | .outside _ =>
      .ok { q with
        reader := if q.waitState % 2 = 0 then .update (.backoff 0) .first else .acquire }
    | _ => .error .disabled
  | .readerGetUnsafe =>
    match q.reader with
    | .outside _ =>
      q.access q.head fun node ↦
        if node.readerSize = 0 then .error .disabled
        else match node.readerGetUnsafe p with
          | none => .error .uninitialized
          | some (value, node) => .ok { q.setNode q.head node with got := q.got ++ [value] }
    | _ => .error .disabled
  | .readerFlush =>
    match q.reader with
    | .outside _ =>
      q.access q.head fun node ↦ .ok (q.setNode q.head node.readerFlush)
    | _ => .error .disabled
  | .reader => q.readerStep

/-- `writer_flush` is called only if something has been put since the last time. -/
def Meets (q : Queue T) : Step T → Prop
  | .writerFlush => q.flushed < q.put.length
  | _ => True

instance (q : Queue T) (x : Step T) : Decidable (q.Meets x) := by
  unfold Meets
  split <;> infer_instance

def meetStep (p : ℕ) (q : Queue T) (x : Step T) : Except Stop (Queue T) :=
  if q.Meets x then q.step p x else .error .disabled

end Queue

/-! ## One block -/

theorem sub32_eq {i j : ℕ} (hle : j ≤ i) (hlt : i < j + 2 ^ 32) : sub32 i j = i - j := by
  unfold sub32
  omega

namespace Node

variable {T : Type} {p : ℕ} {node : Node T}

theorem fixI_eq (hp : p ≤ 20) (i : ℕ) : fixI p i = i % 2 ^ p := by
  unfold fixI
  rw [Nat.and_two_pow_sub_one_eq_mod]
  exact Nat.mod_mod_of_dvd i (Nat.pow_dvd_pow 2 (by omega))

/-- The numbers of a block are in this order, and it is not larger than its buffer. -/
structure Holds (p : ℕ) (node : Node T) : Prop where
  known : node.writerLocalReaderI ≤ node.readerI
  freed : node.readerI ≤ node.readerLocalReaderI
  read : node.readerLocalReaderI ≤ node.readerLocalWriterI
  seen : node.readerLocalWriterI ≤ node.writerI
  written : node.writerI ≤ node.writerLocalWriterI
  size : node.writerLocalWriterI ≤ node.writerLocalReaderI + 2 ^ p

/-- The values that have not been got yet. -/
def pending (p : ℕ) (node : Node T) : List (Option T) :=
  ringSlice (2 ^ p) node.data node.readerLocalReaderI
    (node.writerLocalWriterI - node.readerLocalReaderI)

theorem two_pow_lt (hp : p ≤ 20) : 2 ^ p < 2 ^ 31 :=
  Nat.pow_lt_pow_right (by omega) (by omega)

theorem writerSize_eq (h : node.Holds p) (hp : p ≤ 20) :
    node.writerSize p = node.writerLocalReaderI + 2 ^ p - node.writerLocalWriterI := by
  obtain ⟨hknown, hfreed, hread, hseen, hwritten, hsize⟩ := h
  have hlt := two_pow_lt hp
  exact sub32_eq hsize (by omega)

theorem writerEmpty_iff (h : node.Holds p) (hp : p ≤ 20) :
    node.writerEmpty p ↔ node.writerLocalWriterI = node.writerLocalReaderI + 2 ^ p := by
  obtain ⟨hknown, hfreed, hread, hseen, hwritten, hsize⟩ := h
  have hlt := two_pow_lt hp
  unfold writerEmpty
  rw [beq_iff_eq]
  omega

theorem readerSize_eq (h : node.Holds p) (hp : p ≤ 20) :
    node.readerSize = node.readerLocalWriterI - node.readerLocalReaderI := by
  obtain ⟨hknown, hfreed, hread, hseen, hwritten, hsize⟩ := h
  have hlt := two_pow_lt hp
  exact sub32_eq hread (by omega)

theorem holds_new (p : ℕ) : ({} : Node T).Holds p :=
  ⟨le_rfl, le_rfl, le_rfl, le_rfl, le_rfl, by simp⟩

theorem holds_writerUpdate (h : node.Holds p) : node.writerUpdate.Holds p :=
  { h with known := le_rfl, size := h.size.trans (Nat.add_le_add_right h.known _) }

theorem holds_writerFlush (h : node.Holds p) : node.writerFlush.Holds p :=
  { h with seen := h.seen.trans h.written, written := le_rfl }

theorem holds_readerUpdate (h : node.Holds p) : node.readerUpdate.Holds p :=
  { h with read := h.read.trans h.seen, seen := le_rfl }

/-- The reader has seen everything. -/
theorem readerUpdate_eq (h : node.writerI = node.readerLocalWriterI) :
    node.readerUpdate = node :=
  congrArg (fun i ↦ { node with readerLocalWriterI := i }) h

theorem holds_readerFlush (h : node.Holds p) : node.readerFlush.Holds p :=
  { h with known := h.known.trans h.freed, freed := le_rfl }

theorem holds_writerPutUnsafe (h : node.Holds p)
    (hroom : node.writerLocalWriterI < node.writerLocalReaderI + 2 ^ p) (value : T) :
    (node.writerPutUnsafe p value).Holds p :=
  { h with written := h.written.trans (Nat.le_succ _), size := hroom }

/-- The new value is behind the others. -/
theorem pending_writerPutUnsafe (h : node.Holds p) (hp : p ≤ 20)
    (hroom : node.writerLocalWriterI < node.writerLocalReaderI + 2 ^ p) (value : T) :
    (node.writerPutUnsafe p value).pending p = node.pending p ++ [some value] := by
  obtain ⟨hknown, hfreed, hread, hseen, hwritten, hsize⟩ := h
  have hcount : node.writerLocalWriterI + 1 - node.readerLocalReaderI =
      (node.writerLocalWriterI - node.readerLocalReaderI) + 1 := by omega
  have hend : node.readerLocalReaderI + (node.writerLocalWriterI - node.readerLocalReaderI) =
      node.writerLocalWriterI := by omega
  have hroom' : node.writerLocalWriterI - node.readerLocalReaderI < 2 ^ p := by omega
  have hnew := @ringSlice_update_succ _ _ node.readerLocalReaderI _ node.data (some value) hroom'
  rw [hend] at hnew
  unfold pending writerPutUnsafe
  dsimp only
  rw [fixI_eq hp, hcount]
  exact hnew

/-- What the reader gets is the first value. -/
theorem readerGetUnsafe_eq (h : node.Holds p) (hp : p ≤ 20)
    (hlt : node.readerLocalReaderI < node.readerLocalWriterI) :
    node.pending p = node.data (fixI p node.readerLocalReaderI) ::
      { node with readerLocalReaderI := node.readerLocalReaderI + 1 }.pending p := by
  obtain ⟨hknown, hfreed, hread, hseen, hwritten, hsize⟩ := h
  have hcount : node.writerLocalWriterI - node.readerLocalReaderI =
      (node.writerLocalWriterI - (node.readerLocalReaderI + 1)) + 1 := by omega
  unfold pending
  dsimp only
  rw [fixI_eq hp, hcount, ringSlice_cons]

theorem length_pending : (node.pending p).length =
    node.writerLocalWriterI - node.readerLocalReaderI := length_ringSlice

end Node

/-! ## Chains -/

variable {T : Type} {p : ℕ} {allocated chain : List ℕ} {nodes : ℕ → Node T} {head tail a : ℕ}
  {node : Node T}

/-- The nodes from `head_` to `tail_`: the writer has filled and closed all but the last one, and
the reader has not seen what is in those behind the first one. -/
structure Shape (p : ℕ) (allocated : List ℕ) (nodes : ℕ → Node T) (head tail : ℕ)
    (chain : List ℕ) : Prop where
  linked : Linked (fun a ↦ if (nodes a).isClosed then (nodes a).next else none) (some head) chain
  last : chain.getLast? = some tail
  nodup : chain.Nodup
  allocated : ∀ a ∈ chain, a ∈ allocated
  holds : ∀ a ∈ chain, (nodes a).Holds p
  closed : ∀ a ∈ chain, a ≠ tail → (nodes a).isClosed ∧
    (nodes a).writerI = (nodes a).writerLocalWriterI ∧ 2 ^ p ≤ (nodes a).writerI
  opened : (nodes tail).isClosed = false
  fresh : ∀ a ∈ chain, a ≠ head → (nodes a).readerLocalWriterI = 0

/-- The values that have not been got yet, in all nodes. -/
def pending (p : ℕ) (nodes : ℕ → Node T) (chain : List ℕ) : List (Option T) :=
  chain.flatMap fun a ↦ (nodes a).pending p

/-- How many values the reader might see, but has not. -/
def unseen (nodes : ℕ → Node T) (chain : List ℕ) : ℕ :=
  (chain.map fun a ↦ (nodes a).writerI - (nodes a).readerLocalWriterI).sum

namespace Shape

theorem mem_head (h : Shape p allocated nodes head tail chain) : head ∈ chain := by
  cases h.linked with
  | cons _ => exact List.mem_cons_self

theorem mem_tail (h : Shape p allocated nodes head tail chain) : tail ∈ chain :=
  List.mem_of_getLast? h.last

/-- A node changes, but not its links, nor what the other thread has done to it. -/
theorem setNode (h : Shape p allocated nodes head tail chain) (ha : a ∈ chain)
    (hclosed : node.isClosed = (nodes a).isClosed)
    (hnext : node.isClosed → node.next = (nodes a).next) (hholds : node.Holds p)
    (hwriter : a ≠ tail → node.writerI = (nodes a).writerI ∧
      node.writerLocalWriterI = (nodes a).writerLocalWriterI)
    (hreader : a ≠ head → node.readerLocalWriterI = (nodes a).readerLocalWriterI) :
    Shape p allocated (Function.update nodes a node) head tail chain := by
  have hsame : ∀ b, (Function.update nodes a node b).isClosed = (nodes b).isClosed := by
    intro b
    rcases eq_or_ne b a with rfl | hne
    · rw [Function.update_self]
      exact hclosed
    · rw [Function.update_of_ne hne]
  refine { h with linked := ?_, holds := ?_, closed := ?_, opened := ?_, fresh := ?_ }
  · refine h.linked.congr fun b _ ↦ ?_
    rw [← hsame b]
    split_ifs with hb
    · rcases eq_or_ne b a with rfl | hne
      · rw [Function.update_self] at hb ⊢
        exact hnext hb
      · rw [Function.update_of_ne hne]
    · rfl
  · intro b hb
    rcases eq_or_ne b a with rfl | hne
    · rwa [Function.update_self]
    · rw [Function.update_of_ne hne]
      exact h.holds b hb
  · intro b hb hne
    rw [hsame b]
    rcases eq_or_ne b a with rfl | hne'
    · rw [Function.update_self, (hwriter hne).1, (hwriter hne).2]
      exact h.closed b hb hne
    · rw [Function.update_of_ne hne']
      exact h.closed b hb hne
  · rw [hsame tail]
    exact h.opened
  · intro b hb hne
    rcases eq_or_ne b a with rfl | hne'
    · rw [Function.update_self, hreader hne]
      exact h.fresh b hb hne
    · rw [Function.update_of_ne hne']
      exact h.fresh b hb hne

/-- A node that is not in the chain changes. -/
theorem update_of_notMem (h : Shape p allocated nodes head tail chain) (ha : a ∉ chain)
    (node : Node T) : Shape p allocated (Function.update nodes a node) head tail chain := by
  have hsame : ∀ b ∈ chain, Function.update nodes a node b = nodes b := fun b hb ↦
    Function.update_of_ne (ne_of_mem_of_not_mem hb ha) _ _
  refine { h with linked := ?_, holds := ?_, closed := ?_, opened := ?_, fresh := ?_ }
  · exact h.linked.congr fun b hb ↦ by rw [hsame b hb]
  · exact fun b hb ↦ by
      rw [hsame b hb]
      exact h.holds b hb
  · exact fun b hb ↦ by
      rw [hsame b hb]
      exact h.closed b hb
  · rw [hsame tail h.mem_tail]
    exact h.opened
  · exact fun b hb ↦ by
      rw [hsame b hb]
      exact h.fresh b hb

/-- The last node is closed, and a new one is behind it. -/
theorem close (h : Shape p allocated nodes head tail chain) {newTail : ℕ}
    (hwritten : (nodes tail).writerI = (nodes tail).writerLocalWriterI)
    (hfull : 2 ^ p ≤ (nodes tail).writerI) (hnext : (nodes tail).next = some newTail)
    (hnew : newTail ∉ chain) (hnode : nodes newTail = {}) (hallocated : newTail ∈ allocated) :
    Shape p allocated (Function.update nodes tail { nodes tail with isClosed := true }) head newTail
      (chain ++ [newTail]) := by
  have hne : tail ≠ newTail := ne_of_mem_of_not_mem h.mem_tail hnew
  have hnewNode : Function.update nodes tail { nodes tail with isClosed := true } newTail = {} := by
    rw [Function.update_of_ne hne.symm, hnode]
  have hnodup : (chain ++ [newTail]).Nodup :=
    h.nodup.append (List.nodup_singleton _) (by simpa using hnew)
  refine ⟨?_, List.getLast?_concat, hnodup, ?_, ?_, ?_, ?_, ?_⟩
  · have hnewLinked : Linked (fun a ↦ if (nodes a).isClosed then (nodes a).next else none)
        (some newTail) [newTail] := .cons (by
      rw [hnode]
      exact .nil)
    convert h.linked.append h.last hnewLinked hnodup using 1
    funext b
    rcases eq_or_ne b tail with rfl | hb
    · rw [Function.update_self, Function.update_self]
      exact hnext
    · rw [Function.update_of_ne hb, Function.update_of_ne hb]
  · intro b hb
    rcases List.mem_append.mp hb with hb | hb
    · exact h.allocated b hb
    · rwa [List.mem_singleton.mp hb]
  · intro b hb
    rcases List.mem_append.mp hb with hb | hb
    · rcases eq_or_ne b tail with rfl | hbt
      · rw [Function.update_self]
        have hholds := h.holds b hb
        exact { hholds with }
      · rw [Function.update_of_ne hbt]
        exact h.holds b hb
    · rw [List.mem_singleton.mp hb, hnewNode]
      exact Node.holds_new p
  · intro b hb hbn
    have hb : b ∈ chain := (List.mem_append.mp hb).resolve_right fun hb ↦
      hbn (List.mem_singleton.mp hb)
    rcases eq_or_ne b tail with rfl | hbt
    · rw [Function.update_self]
      exact ⟨rfl, hwritten, hfull⟩
    · rw [Function.update_of_ne hbt]
      exact h.closed b hb hbt
  · rw [hnewNode]
  · intro b hb hbh
    rcases List.mem_append.mp hb with hb | hb
    · rcases eq_or_ne b tail with rfl | hbt
      · rw [Function.update_self]
        exact h.fresh b hb hbh
      · rw [Function.update_of_ne hbt]
        exact h.fresh b hb hbh
    · rw [List.mem_singleton.mp hb, hnewNode]

/-- The first node is deleted. -/
theorem advance (h : Shape p allocated nodes head tail chain) (hclosed : (nodes head).isClosed)
    (hallocated : allocated.Nodup) : ∃ next rest, (nodes head).next = some next ∧
      chain = head :: rest ∧ Shape p (allocated.erase head) nodes next tail rest := by
  obtain ⟨rest, rfl⟩ : ∃ rest, chain = head :: rest := by
    cases h.linked with
    | cons _ => exact ⟨_, rfl⟩
  obtain ⟨-, hlinked⟩ := h.linked.of_cons
  rw [if_pos hclosed] at hlinked
  have hne : head ≠ tail := by
    rintro rfl
    rw [h.opened] at hclosed
    cases hclosed
  have hnotMem : head ∉ rest := (List.nodup_cons.mp h.nodup).1
  have hlast := h.last
  cases hnext : (nodes head).next with
  | none =>
    rw [hnext] at hlinked
    cases hlinked
    exact absurd (Option.some.inj hlast) hne
  | some next =>
    rw [hnext] at hlinked
    refine ⟨next, rest, rfl, rfl, hlinked, ?_, (List.nodup_cons.mp h.nodup).2, ?_, ?_, ?_, h.opened,
      ?_⟩
    · cases hlinked with
      | cons _ => simpa using hlast
    · intro a ha
      exact (hallocated.mem_erase_iff).mpr
        ⟨ne_of_mem_of_not_mem ha hnotMem, h.allocated a (List.mem_cons_of_mem _ ha)⟩
    · exact fun a ha ↦ h.holds a (List.mem_cons_of_mem _ ha)
    · exact fun a ha ↦ h.closed a (List.mem_cons_of_mem _ ha)
    · exact fun a ha _ ↦ h.fresh a (List.mem_cons_of_mem _ ha) (ne_of_mem_of_not_mem ha hnotMem)

/-- If the reader has seen what is in the first node, but not all, the node is closed. -/
theorem isClosed_of_unseen (h : Shape p allocated nodes head tail chain)
    (hseen : (nodes head).writerI = (nodes head).readerLocalWriterI)
    (hunseen : 0 < unseen nodes chain) : (nodes head).isClosed := by
  refine (h.closed head h.mem_head ?_).1
  rintro rfl
  have hlast := h.last
  have hnodup := h.nodup
  cases h.linked with
  | @cons _ rest _ =>
    rcases rest.eq_nil_or_concat with rfl | ⟨rest', b, rfl⟩
    · simp [unseen, hseen] at hunseen
    · rw [List.concat_eq_append, ← List.cons_append, List.getLast?_concat] at hlast
      obtain rfl := Option.some.inj hlast
      simp at hnodup

/-- If the first node is new to the reader, and there is something to be seen, it is there. -/
theorem lt_of_unseen (h : Shape p allocated nodes head tail chain)
    (hnew : (nodes head).readerLocalWriterI = 0) (hunseen : 0 < unseen nodes chain) :
    0 < (nodes head).writerI := by
  by_contra hzero
  have hzero : (nodes head).writerI = 0 := by omega
  have hclosed := h.isClosed_of_unseen (hzero.trans hnew.symm) hunseen
  have hne : head ≠ tail := by
    rintro rfl
    rw [h.opened] at hclosed
    cases hclosed
  have hfull := (h.closed head h.mem_head hne).2.2
  have hpos := Nat.two_pow_pos p
  omega

theorem pending_update (ha : node.pending p = (nodes a).pending p) :
    pending p (Function.update nodes a node) chain = pending p nodes chain := by
  refine List.flatMap_congr fun b _ ↦ ?_
  rcases eq_or_ne b a with rfl | hne
  · rw [Function.update_self, ha]
  · rw [Function.update_of_ne hne]

/-- A node that is not in the chain does not matter. -/
theorem pending_update_of_notMem (ha : a ∉ chain) :
    pending p (Function.update nodes a node) chain = pending p nodes chain :=
  List.flatMap_congr fun b hb ↦ by rw [Function.update_of_ne (ne_of_mem_of_not_mem hb ha)]

theorem unseen_update_of_notMem (ha : a ∉ chain) :
    unseen (Function.update nodes a node) chain = unseen nodes chain := by
  unfold unseen
  congr 1
  exact List.map_congr_left fun b hb ↦ by
    rw [Function.update_of_ne (ne_of_mem_of_not_mem hb ha)]

theorem unseen_update (h : Shape p allocated nodes head tail chain) (ha : a ∈ chain)
    (node : Node T) : unseen (Function.update nodes a node) chain +
      ((nodes a).writerI - (nodes a).readerLocalWriterI) =
        unseen nodes chain + (node.writerI - node.readerLocalWriterI) :=
  sum_map_update (fun node ↦ node.writerI - node.readerLocalWriterI) nodes h.nodup ha node

/-- What is put into the last node comes last. -/
theorem pending_update_tail (h : Shape p allocated nodes head tail chain) {values : List (Option T)}
    (hnode : node.pending p = (nodes tail).pending p ++ values) :
    pending p (Function.update nodes tail node) chain = pending p nodes chain ++ values := by
  obtain ⟨init, rfl⟩ := List.getLast?_eq_some_iff.mp h.last
  have hnotMem : tail ∉ init := fun hmem ↦
    (List.nodup_append.mp h.nodup).2.2 tail hmem tail (List.mem_singleton_self _) rfl
  have hinit : pending p (Function.update nodes tail node) init = pending p nodes init :=
    pending_update_of_notMem hnotMem
  simp only [pending, List.flatMap_append, List.flatMap_singleton, Function.update_self, hnode]
    at hinit ⊢
  rw [hinit, List.append_assoc]

/-- What comes first is taken out of the first node. -/
theorem pending_update_head (h : Shape p allocated nodes head tail chain) {value : Option T}
    (hnode : (nodes head).pending p = value :: node.pending p) :
    pending p nodes chain = value :: pending p (Function.update nodes head node) chain := by
  have hnodup := h.nodup
  cases h.linked with
  | @cons _ rest _ =>
    have hrest : pending p (Function.update nodes head node) rest = pending p nodes rest :=
      pending_update_of_notMem (List.nodup_cons.mp hnodup).1
    simp only [pending, List.flatMap_cons, Function.update_self, hnode] at hrest ⊢
    rw [hrest, List.cons_append]

/-- If the writer has published everything, the values that are left are those that the reader has
seen and those that it has not. -/
theorem length_pending (h : Shape p allocated nodes head tail chain)
    (hflushed : (nodes tail).writerI = (nodes tail).writerLocalWriterI) :
    (pending p nodes chain).length = unseen nodes chain +
      ((nodes head).readerLocalWriterI - (nodes head).readerLocalReaderI) := by
  have hwritten : ∀ b ∈ chain, (nodes b).writerI = (nodes b).writerLocalWriterI := by
    intro b hb
    rcases eq_or_ne b tail with rfl | hne
    · exact hflushed
    · exact (h.closed b hb hne).2.1
  have hfresh := h.fresh
  have hholds := h.holds
  have hnodup := h.nodup
  cases h.linked with
  | @cons _ rest _ =>
    have hhead := hholds head List.mem_cons_self
    have hrest : (pending p nodes rest).length = unseen nodes rest := by
      unfold pending unseen
      rw [List.length_flatMap]
      congr 1
      refine List.map_congr_left fun b hb ↦ ?_
      have hmem := List.mem_cons_of_mem head hb
      have hne : b ≠ head := ne_of_mem_of_not_mem hb (List.nodup_cons.mp hnodup).1
      have hnew := hfresh b hmem hne
      have hread := (hholds b hmem).read
      rw [Node.length_pending, hwritten b hmem]
      omega
    have hread := hhead.read
    have hseen := hhead.seen
    have hend := hwritten head List.mem_cons_self
    simp only [pending, unseen, List.flatMap_cons, List.length_append, Node.length_pending,
      List.map_cons, List.sum_cons] at hrest ⊢
    omega

end Shape

/-! ## The two threads -/

/-- `writer_flush` has published the values, and has not yet released the event fd if it must. -/
def Writer.Flushes : Writer T → Prop
  | .flushCheck _ | .flushRelease _ => True
  | _ => False

/-- The writer is in `writer_flush`. -/
def Writer.InFlush : Writer T → Prop
  | .flushStore _ | .flushCheck _ | .flushRelease _ => True
  | _ => False

/-- What the writer knows of its node; `new` says that something has been put since the last
`writer_flush`. -/
def Writer.Fits (p : ℕ) (allocated chain : List ℕ) (nodes : ℕ → Node T) (node : Node T)
    (new : Prop) : Writer T → Prop
  | .outside => new → node.writerI < node.writerLocalWriterI
  | .update _ | .flushCheck _ | .flushRelease _ => True
  | .flush _ => 2 ^ p ≤ node.writerLocalWriterI
  | .newNode _ => node.writerI = node.writerLocalWriterI ∧ 2 ^ p ≤ node.writerI
  | .close _ newTail => node.writerI = node.writerLocalWriterI ∧ 2 ^ p ≤ node.writerI ∧
    node.next = some newTail ∧ newTail ∉ chain ∧ nodes newTail = {} ∧ newTail ∈ allocated
  | .updateNew _ => node.writerLocalWriterI = 0
  | .put _ => node.writerLocalWriterI < node.writerLocalReaderI + 2 ^ p
  | .flushStore _ => node.writerI < node.writerLocalWriterI

namespace Reader

/-- The reader has said that it waits, and has not found a value since. -/
def Waits : Reader → Prop
  | .outside last => last = some 0
  | .update (.backoff _) _ | .arm | .disarm _ => False
  | .update _ _ | .acquire => True

/-- The number in `wait_state_` is odd. -/
def IsArmed (reader : Reader) : Prop := reader.Waits ∨ ∃ res, reader = .disarm res

/-- What the reader knows of its node. -/
def Fits (node : Node T) : Reader → Prop
  | .outside last => last = some 0 → node.readerLocalReaderI = node.readerLocalWriterI
  | .update (.backoff _) .first => True
  | .update _ .first | .update _ .closed | .arm | .acquire =>
    node.readerLocalReaderI = node.readerLocalWriterI
  | .update _ .again => node.isClosed ∧ node.readerLocalReaderI = node.readerLocalWriterI
  | .update _ .advance => node.isClosed ∧ node.readerLocalReaderI = node.readerLocalWriterI ∧
    node.writerI = node.readerLocalWriterI
  | .update _ .last => node.readerLocalWriterI = 0
  | .disarm res => res ≠ 0

/-- The reader waits, and will find a value in the call of `reader_update` that goes on. -/
def Sees (closed : Bool) (unseen : ℕ) : Reader → Prop
  | .update (.backoff _) _ => False
  | .update _ .closed => closed ∧ 0 < unseen
  | .update _ _ => 0 < unseen
  | _ => False

variable {reader : Reader}

theorem Sees.mono {closed closed' : Bool} {n n' : ℕ} (h : reader.Sees closed n)
    (hclosed : closed → closed') (hle : n ≤ n') : reader.Sees closed' n' := by
  unfold Sees at h ⊢
  split at h
  · exact h
  · exact ⟨hclosed h.1, h.2.trans_le hle⟩
  · exact h.trans_le hle
  · exact h

theorem Fits.mono {node' : Node T} (h : reader.Fits node)
    (hreader : node'.readerLocalReaderI = node.readerLocalReaderI)
    (hwriter : node'.readerLocalWriterI = node.readerLocalWriterI)
    (hclosed : node.isClosed → node' = node) : reader.Fits node' := by
  unfold Fits at h ⊢
  split at h
  all_goals grind

end Reader

/-- The reader has said that it waits. -/
def Attempt.Waits : Attempt → Prop
  | .backoff _ => False
  | _ => True

theorem Reader.waits_update {attempt : Attempt} {stage : Stage} :
    (Reader.update attempt stage).Waits ↔ attempt.Waits := by cases attempt <;> rfl

theorem Reader.isArmed_update {attempt : Attempt} {stage : Stage} :
    (Reader.update attempt stage).IsArmed ↔ attempt.Waits := by
  simp [Reader.IsArmed, Reader.waits_update]

namespace Queue

variable {q q' : Queue T} {writer : Writer T}

theorem isArmed_returns {res : ℕ} {attempt : Attempt} :
    (returns res attempt).IsArmed ↔ attempt.Waits := by
  cases attempt with
  | backoff cnt =>
    simp only [returns]
    split_ifs with hres
    · simp [Reader.IsArmed, Reader.Waits, Attempt.Waits, hres]
    · simp [Reader.isArmed_update, Attempt.Waits]
    · simp [Reader.IsArmed, Reader.Waits, Attempt.Waits]
  | armed => unfold returns; split_ifs <;> simp [Reader.IsArmed, Reader.Waits, Attempt.Waits]
  | acquired => unfold returns; split_ifs <;> simp [Reader.IsArmed, Reader.Waits, Attempt.Waits]

/-- A reader that has found values does not wait. -/
theorem not_waits_returns {res : ℕ} (hres : res ≠ 0) (attempt : Attempt) :
    ¬(returns res attempt).Waits := by
  cases attempt <;> simp [returns, hres, Reader.Waits]

theorem waits_returns_zero {attempt : Attempt} (h : (returns 0 attempt).Waits) :
    attempt.Waits := isArmed_returns.mp (.inl h)

theorem fits_returns {res : ℕ} (hres : res ≠ 0) (attempt : Attempt) (node : Node T) :
    (returns res attempt).Fits node := by
  cases attempt <;> simp [returns, hres, Reader.Fits]

theorem fits_returns_zero (attempt : Attempt) {node : Node T}
    (hread : node.readerLocalReaderI = node.readerLocalWriterI) :
    (returns 0 attempt).Fits node := by
  cases attempt with
  | backoff cnt =>
    simp only [returns]
    rw [if_neg (not_not.mpr rfl)]
    split_ifs
    · trivial
    · exact hread
  | armed => exact hread
  | acquired => exact fun _ ↦ hread

/-- How many values the reader has seen. -/
def seen (q : Queue T) : ℕ :=
  q.got.length +
    ((q.nodes q.head).readerLocalWriterI - (q.nodes q.head).readerLocalReaderI)

/-- The reader is about to be woken up, or to find a value without that. -/
def Alarm (q : Queue T) (chain : List ℕ) : Prop :=
  0 < q.eventFd ∨ q.reader.Sees (q.nodes q.head).isClosed (unseen q.nodes chain)

structure Holds (p : ℕ) (q : Queue T) (chain : List ℕ) : Prop where
  shape : Shape p q.allocated q.nodes q.head q.tail chain
  nodup : q.allocated.Nodup
  order : q.put.map some = q.got.map some ++ pending p q.nodes chain
  writer : q.writer.Fits p q.allocated chain q.nodes (q.nodes q.tail) (q.flushed < q.put.length)
  reader : q.reader.Fits (q.nodes q.head)
  parity : q.waitState % 2 = 1 ↔ q.reader.IsArmed
  published : q.flushed ≤ q.seen + unseen q.nodes chain
  le : q.writerWaitState ≤ q.waitState
  storing : ∀ old, q.writer = .flushStore old → old ≤ q.waitState
  flushing : ∀ old, q.writer = .flushCheck old ∨ q.writer = .flushRelease old →
    q.flushed = q.put.length ∧ old ≤ q.waitState ∧
      (q.reader.Waits → old = q.waitState → 0 < unseen q.nodes chain)
  told : q.reader.Waits → q.writerWaitState = q.waitState →
    0 < unseen q.nodes chain ∧ q.Alarm chain
  wakes : q.reader.Waits → q.seen < q.flushed → q.Alarm chain ∨ q.writer.Flushes

/-! ### Steps of the writer -/

/-- The writer has made a step: what the reader has done is as before. -/
structure KeepsReader (q q' : Queue T) : Prop where
  reader : q'.reader = q.reader
  waitState : q'.waitState = q.waitState
  got : q'.got = q.got
  head : q'.head = q.head
  eventFd : q'.eventFd = q.eventFd
  writerWaitState : q'.writerWaitState = q.writerWaitState
  read : (q'.nodes q.head).readerLocalReaderI = (q.nodes q.head).readerLocalReaderI
  saw : (q'.nodes q.head).readerLocalWriterI = (q.nodes q.head).readerLocalWriterI
  closed : (q.nodes q.head).isClosed → q'.nodes q.head = q.nodes q.head

theorem KeepsReader.seen_eq (h : q.KeepsReader q') : q'.seen = q.seen := by
  unfold seen
  rw [h.got, h.head, h.read, h.saw]

theorem KeepsReader.alarm {chain' : List ℕ} (h : q.KeepsReader q') (halarm : q.Alarm chain)
    (hunseen : unseen q.nodes chain ≤ unseen q'.nodes chain') : q'.Alarm chain' := by
  unfold Alarm at halarm ⊢
  rw [h.eventFd, h.reader, h.head]
  exact halarm.imp_right fun hsees ↦
    hsees.mono (fun hclosed ↦ by rw [h.closed hclosed, hclosed]) hunseen

theorem Holds.ofWriter {chain' : List ℕ} (h : q.Holds p chain) (hkeeps : q.KeepsReader q')
    (hunseen : unseen q.nodes chain ≤ unseen q'.nodes chain')
    (hshape : Shape p q'.allocated q'.nodes q.head q'.tail chain') (hnodup : q'.allocated.Nodup)
    (horder : q'.put.map some = q.got.map some ++ pending p q'.nodes chain')
    (hwriter : q'.writer.Fits p q'.allocated chain' q'.nodes (q'.nodes q'.tail)
      (q'.flushed < q'.put.length))
    (hpublished : q'.flushed ≤ q.seen + unseen q'.nodes chain')
    (hstoring : ∀ old, q'.writer = .flushStore old → old ≤ q.waitState)
    (hflushing : ∀ old, q'.writer = .flushCheck old ∨ q'.writer = .flushRelease old →
      q'.flushed = q'.put.length ∧ old ≤ q.waitState ∧
        (q.reader.Waits → old = q.waitState → 0 < unseen q'.nodes chain'))
    (hwakes : q.reader.Waits → q.seen < q'.flushed → q.Alarm chain ∨ q'.writer.Flushes) :
    q'.Holds p chain' where
  shape := hkeeps.head ▸ hshape
  nodup := hnodup
  order := hkeeps.got ▸ horder
  writer := hwriter
  reader := by
    rw [hkeeps.reader, hkeeps.head]
    exact h.reader.mono hkeeps.read hkeeps.saw hkeeps.closed
  parity := by
    rw [hkeeps.reader, hkeeps.waitState]
    exact h.parity
  published := hkeeps.seen_eq ▸ hpublished
  le := by
    rw [hkeeps.writerWaitState, hkeeps.waitState]
    exact h.le
  storing old := hkeeps.waitState ▸ hstoring old
  flushing old := by
    rw [hkeeps.waitState, hkeeps.reader]
    exact hflushing old
  told := by
    rw [hkeeps.reader, hkeeps.writerWaitState, hkeeps.waitState]
    intro hwaits heq
    obtain ⟨hpos, halarm⟩ := h.told hwaits heq
    exact ⟨hpos.trans_le hunseen, hkeeps.alarm halarm hunseen⟩
  wakes := by
    rw [hkeeps.reader, hkeeps.seen_eq]
    intro hwaits hlt
    exact (hwakes hwaits hlt).imp_left fun halarm ↦ hkeeps.alarm halarm hunseen

/-- The writer changes the last node, but not what the reader has done to it. -/
theorem Holds.setTail (h : q.Holds p chain) {node : Node T} (put : List T) (flushed : ℕ)
    (writer : Writer T)
    (hread : node.readerLocalReaderI = (q.nodes q.tail).readerLocalReaderI)
    (hsaw : node.readerLocalWriterI = (q.nodes q.tail).readerLocalWriterI) :
    q.KeepsReader { q.setNode q.tail node with
      put := put, flushed := flushed, writer := writer } := by
  constructor
  case read =>
    change (Function.update q.nodes q.tail node q.head).readerLocalReaderI = _
    rcases eq_or_ne q.head q.tail with heq | hne
    · rw [heq, Function.update_self, hread]
    · rw [Function.update_of_ne hne]
  case saw =>
    change (Function.update q.nodes q.tail node q.head).readerLocalWriterI = _
    rcases eq_or_ne q.head q.tail with heq | hne
    · rw [heq, Function.update_self, hsaw]
    · rw [Function.update_of_ne hne]
  case closed =>
    intro hclosed
    change Function.update q.nodes q.tail node q.head = _
    rw [Function.update_of_ne]
    intro heq
    rw [heq, h.shape.opened] at hclosed
    cases hclosed
  all_goals rfl

theorem unseen_le (h : q.Holds p chain) {node : Node T}
    (hsaw : node.readerLocalWriterI = (q.nodes q.tail).readerLocalWriterI)
    (hle : (q.nodes q.tail).writerI ≤ node.writerI) :
    unseen q.nodes chain ≤ unseen (Function.update q.nodes q.tail node) chain := by
  have hupdate := h.shape.unseen_update h.shape.mem_tail node
  omega

/-- No value is put or got. -/
theorem Holds.order_update (h : q.Holds p chain) {node : Node T}
    (hnode : node.pending p = (q.nodes a).pending p) :
    q.put.map some = q.got.map some ++ pending p (Function.update q.nodes a node) chain := by
  rw [Shape.pending_update hnode]
  exact h.order

/-- The writer changes its node in `writer_put`. -/
theorem Holds.writes (h : q.Holds p chain) {node : Node T} (put : List T)
    (hread : node.readerLocalReaderI = (q.nodes q.tail).readerLocalReaderI)
    (hsaw : node.readerLocalWriterI = (q.nodes q.tail).readerLocalWriterI)
    (hclosed : node.isClosed = (q.nodes q.tail).isClosed) (hholds : node.Holds p)
    (hle : (q.nodes q.tail).writerI ≤ node.writerI)
    (horder : put.map some =
      q.got.map some ++ pending p (Function.update q.nodes q.tail node) chain)
    (hwriter : writer.Fits p q.allocated chain (Function.update q.nodes q.tail node) node
      (q.flushed < put.length))
    (hout : ¬writer.InFlush) (hold : ¬q.writer.Flushes) :
    Holds p { q.setNode q.tail node with put := put, writer := writer } chain := by
  have hunseen := unseen_le h hsaw hle
  refine h.ofWriter (h.setTail _ _ _ hread hsaw) hunseen ?_ h.nodup horder ?_
    (h.published.trans (Nat.add_le_add_left hunseen _)) ?_ ?_ ?_
  · refine h.shape.setNode h.shape.mem_tail hclosed (fun hnode ↦ ?_) hholds (absurd rfl)
      fun _ ↦ hsaw
    rw [hclosed, h.shape.opened] at hnode
    cases hnode
  · change writer.Fits p _ _ _ (Function.update q.nodes q.tail node q.tail) _
    rwa [Function.update_self]
  · rintro old (rfl : writer = _)
    exact absurd trivial hout
  · rintro old (heq | heq)
    · obtain rfl : writer = _ := heq
      exact absurd trivial hout
    · obtain rfl : writer = _ := heq
      exact absurd trivial hout
  · intro hwaits hlt
    exact .inl ((h.wakes hwaits hlt).resolve_right hold)

theorem holds_update (h : q.Holds p chain) (hp : p ≤ 20) {value : T}
    (hposition : q.writer = .update value) :
    Holds p { q.setNode q.tail (q.nodes q.tail).writerUpdate with
      writer := if (q.nodes q.tail).writerUpdate.writerSize p = 0 then .flush value
        else .put value } chain := by
  have hnode := Node.holds_writerUpdate (h.shape.holds _ h.shape.mem_tail)
  have hsize := Node.writerSize_eq hnode hp
  refine h.writes q.put rfl rfl rfl hnode le_rfl
    (h.order_update rfl) ?_ ?_ ?_
  · split_ifs with hfull
    · change 2 ^ p ≤ (q.nodes q.tail).writerUpdate.writerLocalWriterI
      omega
    · change (q.nodes q.tail).writerUpdate.writerLocalWriterI < _
      omega
  · split_ifs <;> exact id
  · rw [hposition]
    exact id

theorem holds_flush (h : q.Holds p chain) {value : T} (hposition : q.writer = .flush value) :
    Holds p { q.setNode q.tail (q.nodes q.tail).writerFlush with writer := .newNode value }
      chain := by
  have hnode := h.shape.holds _ h.shape.mem_tail
  have hwriter := h.writer
  rw [hposition] at hwriter
  exact h.writes q.put rfl rfl rfl (Node.holds_writerFlush hnode) hnode.written
    (h.order_update rfl) ⟨rfl, hwriter⟩ id
    (by rw [hposition]; exact id)

theorem writerSize_new (h : q.Holds p chain) (hp : p ≤ 20) {value : T}
    (hposition : q.writer = .updateNew value) :
    (q.nodes q.tail).writerUpdate.writerSize p ≠ 0 := by
  have hnode := Node.holds_writerUpdate (h.shape.holds _ h.shape.mem_tail)
  have hwriter := h.writer
  have hpos := Nat.two_pow_pos p
  rw [hposition] at hwriter
  rw [Node.writerSize_eq hnode hp]
  change (q.nodes q.tail).writerUpdate.writerLocalWriterI = 0 at hwriter
  omega

theorem holds_updateNew (h : q.Holds p chain) (hp : p ≤ 20) {value : T}
    (hposition : q.writer = .updateNew value) :
    Holds p { q.setNode q.tail (q.nodes q.tail).writerUpdate with writer := .put value }
      chain := by
  have hnode := Node.holds_writerUpdate (h.shape.holds _ h.shape.mem_tail)
  have hsize := writerSize_new h hp hposition
  rw [Node.writerSize_eq hnode hp] at hsize
  refine h.writes q.put rfl rfl rfl hnode le_rfl
    (h.order_update rfl) ?_ id
    (by rw [hposition]; exact id)
  change (q.nodes q.tail).writerUpdate.writerLocalWriterI < _
  omega

theorem holds_put (h : q.Holds p chain) (hp : p ≤ 20) {value : T}
    (hposition : q.writer = .put value) :
    Holds p { q.setNode q.tail ((q.nodes q.tail).writerPutUnsafe p value) with
      put := q.put ++ [value]
      writer := .outside } chain := by
  have hnode := h.shape.holds _ h.shape.mem_tail
  have hwriter := h.writer
  rw [hposition] at hwriter
  have hpending := h.shape.pending_update_tail
    (Node.pending_writerPutUnsafe hnode hp hwriter value)
  refine h.writes _ rfl rfl rfl (Node.holds_writerPutUnsafe hnode hwriter value) le_rfl ?_ ?_ id
    (by rw [hposition]; exact id)
  · rw [hpending, List.map_append, h.order, List.append_assoc]
    rfl
  · exact fun _ ↦ Nat.lt_succ_of_le hnode.written

theorem nodes_createNode_tail (q : Queue T) (newTail : ℕ) :
    (q.createNode newTail).nodes q.tail = { q.nodes q.tail with next := some newTail } :=
  Function.update_self ..

theorem nodes_createNode_new {newTail : ℕ} (hne : newTail ≠ q.tail) :
    (q.createNode newTail).nodes newTail = {} :=
  (Function.update_of_ne hne ..).trans (Function.update_self ..)

theorem nodes_createNode_of_ne {newTail : ℕ} (hnew : a ≠ newTail) (htail : a ≠ q.tail) :
    (q.createNode newTail).nodes a = q.nodes a :=
  (Function.update_of_ne htail ..).trans (Function.update_of_ne hnew ..)

theorem holds_newNode (h : q.Holds p chain) {value : T} (hposition : q.writer = .newNode value)
    {newTail : ℕ} (hnew : newTail ∉ q.allocated) :
    Holds p { q.createNode newTail with writer := .close value newTail } chain := by
  have hwriter := h.writer
  rw [hposition] at hwriter
  have hnotMem : newTail ∉ chain := fun hmem ↦ hnew (h.shape.allocated _ hmem)
  have htail : newTail ≠ q.tail := (ne_of_mem_of_not_mem h.shape.mem_tail hnotMem).symm
  have hhead : q.head ≠ newTail := ne_of_mem_of_not_mem h.shape.mem_head hnotMem
  have hshape := h.shape.update_of_notMem hnotMem {}
  have hnode : Function.update q.nodes newTail {} q.tail = q.nodes q.tail :=
    Function.update_of_ne htail.symm ..
  have hunseen : unseen (q.createNode newTail).nodes chain = unseen q.nodes chain := by
    have hupdate := hshape.unseen_update h.shape.mem_tail
      { q.nodes q.tail with next := some newTail }
    rw [hnode, Shape.unseen_update_of_notMem hnotMem] at hupdate
    exact Nat.add_right_cancel hupdate
  have hsame : ({ q.nodes q.tail with next := some newTail } : Node T).pending p =
      (Function.update q.nodes newTail {} q.tail).pending p :=
    (congrArg (Node.pending p) hnode).symm
  have hpending : pending p (q.createNode newTail).nodes chain = pending p q.nodes chain :=
    (Shape.pending_update hsame).trans (Shape.pending_update_of_notMem hnotMem)
  have hkeeps : q.KeepsReader { q.createNode newTail with writer := .close value newTail } := by
    constructor
    case read =>
      rcases eq_or_ne q.head q.tail with heq | hne
      · have hsame := congrArg Node.readerLocalReaderI (nodes_createNode_tail q newTail)
        rwa [← heq] at hsame
      · exact congrArg Node.readerLocalReaderI (nodes_createNode_of_ne hhead hne)
    case saw =>
      rcases eq_or_ne q.head q.tail with heq | hne
      · have hsame := congrArg Node.readerLocalWriterI (nodes_createNode_tail q newTail)
        rwa [← heq] at hsame
      · exact congrArg Node.readerLocalWriterI (nodes_createNode_of_ne hhead hne)
    case closed =>
      intro hclosed
      refine nodes_createNode_of_ne hhead fun heq ↦ ?_
      rw [heq, h.shape.opened] at hclosed
      cases hclosed
    all_goals rfl
  refine h.ofWriter hkeeps hunseen.ge ?_ (List.nodup_cons.mpr ⟨hnew, h.nodup⟩)
    (h.order.trans (congrArg _ hpending.symm)) ?_
    (h.published.trans_eq (congrArg _ hunseen.symm)) nofun (by rintro old (heq | heq) <;> cases heq)
    fun hwaits hlt ↦ .inl ((h.wakes hwaits hlt).resolve_right (by rw [hposition]; exact id))
  · have hnext : Shape p q.allocated (q.createNode newTail).nodes q.head q.tail chain := by
      refine hshape.setNode h.shape.mem_tail (by rw [hnode]) (fun hclosed ↦ ?_) ?_ (absurd rfl)
        fun _ ↦ by rw [hnode]
      · rw [h.shape.opened] at hclosed
        cases hclosed
      · exact { h.shape.holds _ h.shape.mem_tail with }
    exact { hnext with
      allocated := fun a ha ↦ List.mem_cons_of_mem _ (h.shape.allocated a ha) }
  · have hnode := nodes_createNode_tail q newTail
    change Writer.Fits p _ _ _ ((q.createNode newTail).nodes q.tail) _ (.close value newTail)
    rw [hnode]
    exact ⟨hwriter.1, hwriter.2, rfl, hnotMem, nodes_createNode_new htail, List.mem_cons_self⟩

/-- The node behind the one that is closed is empty. -/
theorem holds_close (h : q.Holds p chain) {value : T} {newTail : ℕ}
    (hposition : q.writer = .close value newTail) :
    Holds p { q.setNode q.tail { q.nodes q.tail with isClosed := true } with
      tail := newTail
      writer := .updateNew value } (chain ++ [newTail]) := by
  have hwriter := h.writer
  rw [hposition] at hwriter
  obtain ⟨hwritten, hfull, hnext, hnew, hnode, hallocated⟩ := hwriter
  have hne : newTail ≠ q.tail := (ne_of_mem_of_not_mem h.shape.mem_tail hnew).symm
  have hnewNode : Function.update q.nodes q.tail { q.nodes q.tail with isClosed := true } newTail =
      {} := (Function.update_of_ne hne ..).trans hnode
  have hunseen : unseen (Function.update q.nodes q.tail { q.nodes q.tail with isClosed := true })
      (chain ++ [newTail]) = unseen q.nodes chain := by
    have hupdate := h.shape.unseen_update h.shape.mem_tail
      { q.nodes q.tail with isClosed := true }
    simp only [unseen, List.map_append, List.sum_append, List.map_singleton, List.sum_singleton,
      hnewNode] at hupdate ⊢
    omega
  have hpending : pending p
      (Function.update q.nodes q.tail { q.nodes q.tail with isClosed := true })
      (chain ++ [newTail]) = pending p q.nodes chain := by
    have hupdate : pending p
        (Function.update q.nodes q.tail { q.nodes q.tail with isClosed := true }) chain =
          pending p q.nodes chain := Shape.pending_update rfl
    simp only [pending, List.flatMap_append, List.flatMap_singleton, hnewNode] at hupdate ⊢
    rw [hupdate]
    exact List.append_nil _
  have hkeeps : q.KeepsReader { q.setNode q.tail { q.nodes q.tail with isClosed := true } with
      put := q.put, flushed := q.flushed, writer := .updateNew value } :=
    h.setTail q.put q.flushed (.updateNew value) rfl rfl
  have hkeeps' : q.KeepsReader { q.setNode q.tail { q.nodes q.tail with isClosed := true } with
      tail := newTail, writer := .updateNew value } := { hkeeps with }
  refine h.ofWriter hkeeps' hunseen.ge
    (h.shape.close hwritten hfull hnext hnew hnode hallocated) h.nodup
    (h.order.trans (congrArg _ hpending.symm)) ?_
    (h.published.trans_eq (congrArg _ hunseen.symm)) nofun (by rintro old (heq | heq) <;> cases heq)
    fun hwaits hlt ↦ .inl ((h.wakes hwaits hlt).resolve_right (by rw [hposition]; exact id))
  exact congrArg Node.writerLocalWriterI hnewNode

theorem holds_flushStore (h : q.Holds p chain) {old : ℕ} (hposition : q.writer = .flushStore old) :
    Holds p { q.setNode q.tail (q.nodes q.tail).writerFlush with
      flushed := q.put.length
      writer := .flushCheck old } chain := by
  have hnode := h.shape.holds _ h.shape.mem_tail
  have hnew := h.writer
  have hold := h.storing old hposition
  rw [hposition] at hnew
  change (q.nodes q.tail).writerI < (q.nodes q.tail).writerLocalWriterI at hnew
  have hunseen : unseen q.nodes chain ≤
      unseen (Function.update q.nodes q.tail (q.nodes q.tail).writerFlush) chain :=
    unseen_le h rfl hnode.written
  have hshape : Shape p q.allocated (Function.update q.nodes q.tail (q.nodes q.tail).writerFlush)
      q.head q.tail chain :=
    h.shape.setNode h.shape.mem_tail rfl (fun _ ↦ rfl) (Node.holds_writerFlush hnode) (absurd rfl)
      fun _ ↦ rfl
  have hkeeps : q.KeepsReader { q.setNode q.tail (q.nodes q.tail).writerFlush with
      put := q.put, flushed := q.put.length, writer := .flushCheck old } :=
    h.setTail q.put q.put.length (.flushCheck old) rfl rfl
  have horder : q.put.map some = q.got.map some ++
      pending p (Function.update q.nodes q.tail (q.nodes q.tail).writerFlush) chain :=
    h.order_update rfl
  refine h.ofWriter hkeeps hunseen hshape h.nodup horder ?_ ?_ nofun ?_ fun _ _ ↦ .inr trivial
  · trivial
  · have hlength := hshape.length_pending (by rw [Function.update_self]; rfl)
    have hput := congrArg List.length horder
    have hread := hkeeps.read
    have hsaw := hkeeps.saw
    simp only [List.length_append, List.length_map] at hput
    change q.put.length ≤ q.seen + unseen (Function.update q.nodes q.tail _) chain
    change (Function.update q.nodes q.tail _ q.head).readerLocalReaderI = _ at hread
    change (Function.update q.nodes q.tail _ q.head).readerLocalWriterI = _ at hsaw
    rw [hread, hsaw] at hlength
    unfold seen
    omega
  · rintro old' (heq | heq)
    · obtain rfl := Writer.flushCheck.inj heq
      refine ⟨rfl, hold, fun _ _ ↦ ?_⟩
      have hupdate := h.shape.unseen_update h.shape.mem_tail (q.nodes q.tail).writerFlush
      have hsaw := hnode.seen
      change 0 < unseen (Function.update q.nodes q.tail (q.nodes q.tail).writerFlush) chain
      simp only [Node.writerFlush] at hupdate ⊢
      omega
    · cases heq

theorem Holds.setWriter (h : q.Holds p chain)
    (hwriter : writer.Fits p q.allocated chain q.nodes (q.nodes q.tail) (q.flushed < q.put.length))
    (hstoring : ∀ old, writer = .flushStore old → old ≤ q.waitState)
    (hflushing : ∀ old, writer = .flushCheck old ∨ writer = .flushRelease old →
      q.flushed = q.put.length ∧ old ≤ q.waitState ∧
        (q.reader.Waits → old = q.waitState → 0 < unseen q.nodes chain))
    (hwakes : q.reader.Waits → q.seen < q.flushed → q.Alarm chain ∨ writer.Flushes) :
    Holds p { q with writer := writer } chain :=
  h.ofWriter ⟨rfl, rfl, rfl, rfl, rfl, rfl, rfl, rfl, fun _ ↦ rfl⟩ le_rfl h.shape h.nodup h.order
    hwriter h.published hstoring hflushing hwakes

theorem holds_flushCheck (h : q.Holds p chain) {old : ℕ} (hposition : q.writer = .flushCheck old) :
    Holds p { q with
      writer := if q.waitState % 2 = 1 ∧ q.waitState ≠ q.writerWaitState then .flushRelease old
        else .outside } chain := by
  have hold := h.flushing old (.inl hposition)
  split_ifs with hrelease
  · refine h.setWriter trivial nofun ?_ fun _ _ ↦ .inr trivial
    rintro old' (heq | heq)
    · cases heq
    · obtain rfl := Writer.flushRelease.inj heq
      exact hold
  · refine h.setWriter (fun hnew ↦ absurd hold.1 hnew.ne) nofun
      (by rintro old' (heq | heq) <;> cases heq) fun hwaits hlt ↦ ?_
    have hodd := h.parity.mpr (.inl hwaits)
    exact .inl (h.told hwaits (not_not.mp fun hne ↦ hrelease ⟨hodd, Ne.symm hne⟩)).2

theorem holds_flushRelease (h : q.Holds p chain) {old : ℕ}
    (hposition : q.writer = .flushRelease old) :
    Holds p { q with eventFd := q.eventFd + 1, writerWaitState := old, writer := .outside }
      chain := by
  obtain ⟨hflushed, hle, hold⟩ := h.flushing old (.inr hposition)
  exact
    { h with
      writer := fun hnew ↦ absurd hflushed hnew.ne
      le := hle
      storing := nofun
      flushing := by rintro old' (heq | heq) <;> cases heq
      told := fun hwaits heq ↦ ⟨hold hwaits heq, .inl (Nat.succ_pos _)⟩
      wakes := fun _ _ ↦ .inl (.inl (Nat.succ_pos _)) }

theorem holds_writerPut (h : q.Holds p chain) (hp : p ≤ 20) (hposition : q.writer = .outside)
    (value : T) :
    Holds p { q with
      writer := if (q.nodes q.tail).writerEmpty p then .update value else .put value } chain := by
  have hnode := h.shape.holds _ h.shape.mem_tail
  have hwakes : q.reader.Waits → q.seen < q.flushed → q.Alarm chain := fun hwaits hlt ↦
    (h.wakes hwaits hlt).resolve_right (by rw [hposition]; exact id)
  split_ifs with hempty
  · exact h.setWriter trivial nofun (by rintro old (heq | heq) <;> cases heq)
      fun hwaits hlt ↦ .inl (hwakes hwaits hlt)
  · rw [Node.writerEmpty_iff hnode hp] at hempty
    exact h.setWriter (lt_of_le_of_ne hnode.size hempty) nofun
      (by rintro old (heq | heq) <;> cases heq) fun hwaits hlt ↦ .inl (hwakes hwaits hlt)

theorem holds_writerFlush (h : q.Holds p chain) (hposition : q.writer = .outside)
    (hnew : q.flushed < q.put.length) :
    Holds p { q with writer := .flushStore q.waitState } chain := by
  have hwriter := h.writer
  rw [hposition] at hwriter
  refine h.setWriter (hwriter hnew) ?_ (by rintro old (heq | heq) <;> cases heq)
    fun hwaits hlt ↦ .inl ((h.wakes hwaits hlt).resolve_right (by rw [hposition]; exact id))
  rintro old heq
  obtain rfl := Writer.flushStore.inj heq
  exact le_rfl

/-! ### Steps of the reader -/

/-- The reader has made a step: what the writer has done is as before. -/
structure KeepsWriter (q q' : Queue T) (chain chain' : List ℕ) : Prop where
  writer : q'.writer = q.writer
  put : q'.put = q.put
  tail : q'.tail = q.tail
  flushed : q'.flushed = q.flushed
  writerWaitState : q'.writerWaitState = q.writerWaitState
  written : (q'.nodes q.tail).writerLocalWriterI = (q.nodes q.tail).writerLocalWriterI
  published : (q'.nodes q.tail).writerI = (q.nodes q.tail).writerI
  known : (q'.nodes q.tail).writerLocalReaderI = (q.nodes q.tail).writerLocalReaderI
  next : (q'.nodes q.tail).next = (q.nodes q.tail).next
  others : ∀ a ∉ chain, a ∉ chain' ∧ q'.nodes a = q.nodes a ∧
    (a ∈ q.allocated → a ∈ q'.allocated)

theorem KeepsWriter.fits {chain' : List ℕ} (h : q.KeepsWriter q' chain chain')
    (hwriter : q.writer.Fits p q.allocated chain q.nodes (q.nodes q.tail)
      (q.flushed < q.put.length)) :
    q'.writer.Fits p q'.allocated chain' q'.nodes (q'.nodes q'.tail)
      (q'.flushed < q'.put.length) := by
  rw [h.writer, h.put, h.tail, h.flushed]
  unfold Writer.Fits at hwriter ⊢
  rw [h.written, h.published, h.known, h.next]
  split at hwriter
  case h_7 newTail =>
    obtain ⟨hwritten, hfull, hnext, hnew, hnode, hallocated⟩ := hwriter
    obtain ⟨hnew', hnode', hallocated'⟩ := h.others _ hnew
    exact ⟨hwritten, hfull, hnext, hnew', hnode'.trans hnode, hallocated' hallocated⟩
  all_goals exact hwriter

theorem Holds.ofReader {chain' : List ℕ} (h : q.Holds p chain)
    (hkeeps : q.KeepsWriter q' chain chain')
    (hshape : Shape p q'.allocated q'.nodes q'.head q.tail chain') (hnodup : q'.allocated.Nodup)
    (horder : q.put.map some = q'.got.map some ++ pending p q'.nodes chain')
    (hreader : q'.reader.Fits (q'.nodes q'.head))
    (hparity : q'.waitState % 2 = 1 ↔ q'.reader.IsArmed) (hle : q.waitState ≤ q'.waitState)
    (htotal : q'.seen + unseen q'.nodes chain' = q.seen + unseen q.nodes chain)
    (hwaits : q'.reader.Waits → q'.waitState = q.waitState ∧ q.reader.Waits ∧ q'.seen = q.seen ∧
      (q.Alarm chain → 0 < unseen q.nodes chain → q'.Alarm chain')) :
    q'.Holds p chain' where
  shape := hkeeps.tail ▸ hshape
  nodup := hnodup
  order := hkeeps.put ▸ horder
  writer := hkeeps.fits h.writer
  reader := hreader
  parity := hparity
  published := by
    rw [htotal, hkeeps.flushed]
    exact h.published
  le := by
    rw [hkeeps.writerWaitState]
    exact h.le.trans hle
  storing old := by
    rw [hkeeps.writer]
    exact fun heq ↦ (h.storing old heq).trans hle
  flushing old := by
    rw [hkeeps.writer, hkeeps.flushed, hkeeps.put]
    intro heq
    obtain ⟨hflushed, hold, hunseen⟩ := h.flushing old heq
    refine ⟨hflushed, hold.trans hle, fun hwaits' hstate ↦ ?_⟩
    obtain ⟨hsame, hwaited, hseen, -⟩ := hwaits hwaits'
    have hpos := hunseen hwaited (hstate.trans hsame)
    omega
  told := by
    rw [hkeeps.writerWaitState]
    intro hwaits' hstate
    obtain ⟨hsame, hwaited, hseen, halarm⟩ := hwaits hwaits'
    obtain ⟨hpos, halarmed⟩ := h.told hwaited (hstate.trans hsame)
    exact ⟨by omega, halarm halarmed hpos⟩
  wakes := by
    rw [hkeeps.writer, hkeeps.flushed]
    intro hwaits' hlt
    obtain ⟨hsame, hwaited, hseen, halarm⟩ := hwaits hwaits'
    have hpublished := h.published
    exact (h.wakes hwaited (hseen ▸ hlt)).imp_left fun halarmed ↦ halarm halarmed (by omega)

/-- The reader changes its node. -/
theorem Holds.setHead (h : q.Holds p chain) {node : Node T} (got : List T) (reader : Reader)
    (waitState : ℕ) (hwritten : node.writerLocalWriterI = (q.nodes q.head).writerLocalWriterI)
    (hpublished : node.writerI = (q.nodes q.head).writerI)
    (hknown : node.writerLocalReaderI = (q.nodes q.head).writerLocalReaderI)
    (hnext : node.next = (q.nodes q.head).next) :
    q.KeepsWriter { q.setNode q.head node with
      got := got, reader := reader, waitState := waitState } chain chain := by
  constructor
  case others =>
    intro a ha
    exact ⟨ha, Function.update_of_ne (ne_of_mem_of_not_mem h.shape.mem_head ha).symm .., id⟩
  case written =>
    change (Function.update q.nodes q.head node q.tail).writerLocalWriterI = _
    rcases eq_or_ne q.tail q.head with heq | hne
    · rw [heq, Function.update_self, hwritten]
    · rw [Function.update_of_ne hne]
  case published =>
    change (Function.update q.nodes q.head node q.tail).writerI = _
    rcases eq_or_ne q.tail q.head with heq | hne
    · rw [heq, Function.update_self, hpublished]
    · rw [Function.update_of_ne hne]
  case known =>
    change (Function.update q.nodes q.head node q.tail).writerLocalReaderI = _
    rcases eq_or_ne q.tail q.head with heq | hne
    · rw [heq, Function.update_self, hknown]
    · rw [Function.update_of_ne hne]
  case next =>
    change (Function.update q.nodes q.head node q.tail).next = _
    rcases eq_or_ne q.tail q.head with heq | hne
    · rw [heq, Function.update_self, hnext]
    · rw [Function.update_of_ne hne]
  all_goals rfl

/-- Nothing changes but where the reader is. -/
theorem Holds.setReader (h : q.Holds p chain) {reader : Reader}
    (hreader : reader.Fits (q.nodes q.head)) (harmed : reader.IsArmed ↔ q.reader.IsArmed)
    (hwaits : reader.Waits → q.reader.Waits)
    (halarm : q.reader.Sees (q.nodes q.head).isClosed (unseen q.nodes chain) →
      reader.Sees (q.nodes q.head).isClosed (unseen q.nodes chain)) :
    Holds p { q with reader := reader } chain :=
  h.ofReader ⟨rfl, rfl, rfl, rfl, rfl, rfl, rfl, rfl, rfl, fun _ ha ↦ ⟨ha, rfl, id⟩⟩ h.shape h.nodup
    h.order hreader (h.parity.trans harmed.symm) le_rfl rfl fun hwaits' ↦
      ⟨rfl, hwaits hwaits', rfl, fun halarmed _ ↦ halarmed.imp_right halarm⟩

/-- A load of `writer_.i`: `empty` is what follows if there is nothing. -/
theorem holds_load (h : q.Holds p chain) (hp : p ≤ 20) {attempt : Attempt} {stage : Stage}
    (hposition : q.reader = .update attempt stage) {empty : Reader}
    (hempty : (q.nodes q.head).writerI = (q.nodes q.head).readerLocalReaderI →
      Holds p { q with reader := empty } chain) :
    Holds p { q.setNode q.head (q.nodes q.head).readerUpdate with
      reader := if (q.nodes q.head).readerUpdate.readerSize ≠ 0 then
        returns (q.nodes q.head).readerUpdate.readerSize attempt else empty } chain := by
  have hnode := h.shape.holds _ h.shape.mem_head
  have hnode' := Node.holds_readerUpdate hnode
  have hsize := Node.readerSize_eq hnode' hp
  have hread := hnode.read
  have hseen := hnode.seen
  have hparity := h.parity
  rw [hposition, Reader.isArmed_update] at hparity
  split_ifs with hsome
  · refine h.ofReader (h.setHead _ _ _ rfl rfl rfl rfl)
      (h.shape.setNode h.shape.mem_head rfl (fun _ ↦ rfl) hnode' (fun _ ↦ ⟨rfl, rfl⟩) (absurd rfl))
      h.nodup (h.order_update rfl) (fits_returns hsome attempt _)
      (hparity.trans isArmed_returns.symm) le_rfl ?_
      fun hwaits ↦ absurd hwaits (not_waits_returns hsome attempt)
    have hupdate := h.shape.unseen_update h.shape.mem_head (q.nodes q.head).readerUpdate
    change q.got.length + ((Function.update q.nodes q.head _ q.head).readerLocalWriterI -
      (Function.update q.nodes q.head _ q.head).readerLocalReaderI) +
        unseen (Function.update q.nodes q.head _) chain = _
    rw [Function.update_self]
    unfold seen
    simp only [Node.readerUpdate] at hupdate ⊢
    omega
  · have hzero : (q.nodes q.head).writerI = (q.nodes q.head).readerLocalReaderI := by
      simp only [Node.readerUpdate] at hsome hsize
      omega
    have hsame : (q.nodes q.head).readerUpdate = q.nodes q.head :=
      Node.readerUpdate_eq (by omega)
    rw [hsame, setNode, Function.update_eq_self]
    exact hempty hzero

theorem holds_first (h : q.Holds p chain) {attempt : Attempt}
    (hposition : q.reader = .update attempt .first)
    (hzero : (q.nodes q.head).writerI = (q.nodes q.head).readerLocalReaderI) :
    Holds p { q with reader := .update attempt .closed } chain := by
  have hread := (h.shape.holds _ h.shape.mem_head).read
  have hseen := (h.shape.holds _ h.shape.mem_head).seen
  have hread' : (q.nodes q.head).readerLocalReaderI = (q.nodes q.head).readerLocalWriterI := by
    omega
  refine h.setReader (by cases attempt <;> exact hread') ?_ ?_ fun hsees ↦ ?_
  · rw [hposition, Reader.isArmed_update, Reader.isArmed_update]
  · rw [hposition, Reader.waits_update, Reader.waits_update]
    exact id
  · rw [hposition] at hsees
    have hclosed := h.shape.isClosed_of_unseen (by omega)
    cases attempt with
    | backoff cnt => exact hsees
    | armed => exact ⟨hclosed hsees, hsees⟩
    | acquired => exact ⟨hclosed hsees, hsees⟩

theorem holds_again (h : q.Holds p chain) {attempt : Attempt}
    (hposition : q.reader = .update attempt .again)
    (hzero : (q.nodes q.head).writerI = (q.nodes q.head).readerLocalReaderI) :
    Holds p { q with reader := .update attempt .advance } chain := by
  have hreader := h.reader
  rw [hposition] at hreader
  obtain ⟨hclosed, hread⟩ : (q.nodes q.head).isClosed ∧
      (q.nodes q.head).readerLocalReaderI = (q.nodes q.head).readerLocalWriterI := by
    cases attempt <;> exact hreader
  refine h.setReader (by cases attempt <;> exact ⟨hclosed, hread, hzero.trans hread⟩) ?_ ?_
    fun hsees ↦ ?_
  · rw [hposition, Reader.isArmed_update, Reader.isArmed_update]
  · rw [hposition, Reader.waits_update, Reader.waits_update]
    exact id
  · rw [hposition] at hsees
    cases attempt <;> exact hsees

/-- In the node that follows there is nothing. -/
theorem holds_last (h : q.Holds p chain) {attempt : Attempt}
    (hposition : q.reader = .update attempt .last)
    (hzero : (q.nodes q.head).writerI = (q.nodes q.head).readerLocalReaderI) :
    Holds p { q with reader := returns 0 attempt } chain := by
  have hnode := h.shape.holds _ h.shape.mem_head
  have hread := hnode.read
  have hseen := hnode.seen
  have hreader := h.reader
  rw [hposition] at hreader
  have hnew : (q.nodes q.head).readerLocalWriterI = 0 := by
    cases attempt <;> exact hreader
  refine h.setReader (fits_returns_zero attempt (by omega)) ?_ ?_ fun hsees ↦ ?_
  · rw [hposition, isArmed_returns, Reader.isArmed_update]
  · rw [hposition, Reader.waits_update]
    exact waits_returns_zero
  · rw [hposition] at hsees
    have hpos : 0 < unseen q.nodes chain := by
      cases attempt with
      | backoff cnt => exact hsees.elim
      | armed => exact hsees
      | acquired => exact hsees
    have hlt := h.shape.lt_of_unseen hnew hpos
    omega

theorem holds_closed (h : q.Holds p chain) {attempt : Attempt}
    (hposition : q.reader = .update attempt .closed) :
    Holds p { q with
      reader := if (q.nodes q.head).isClosed then .update attempt .again else returns 0 attempt }
      chain := by
  have hreader := h.reader
  rw [hposition] at hreader
  have hread : (q.nodes q.head).readerLocalReaderI = (q.nodes q.head).readerLocalWriterI := by
    cases attempt <;> exact hreader
  split_ifs with hclosed
  · refine h.setReader (by cases attempt <;> exact ⟨hclosed, hread⟩) ?_ ?_ fun hsees ↦ ?_
    · rw [hposition, Reader.isArmed_update, Reader.isArmed_update]
    · rw [hposition, Reader.waits_update, Reader.waits_update]
      exact id
    · rw [hposition] at hsees
      cases attempt with
      | backoff cnt => exact hsees
      | armed => exact hsees.2
      | acquired => exact hsees.2
  · refine h.setReader (fits_returns_zero attempt hread) ?_ ?_ fun hsees ↦ ?_
    · rw [hposition, isArmed_returns, Reader.isArmed_update]
    · rw [hposition, Reader.waits_update]
      exact waits_returns_zero
    · rw [hposition] at hsees
      cases attempt with
      | backoff cnt => exact hsees.elim
      | armed => exact absurd hsees.1 hclosed
      | acquired => exact absurd hsees.1 hclosed

/-- The reader goes on to the next node, which is there. -/
theorem holds_advance (h : q.Holds p chain) {attempt : Attempt}
    (hposition : q.reader = .update attempt .advance) :
    ∃ next rest, (q.nodes q.head).next = some next ∧
      Holds p { q with
        head := next
        allocated := q.allocated.erase q.head
        reader := .update attempt .last } rest := by
  have hreader := h.reader
  rw [hposition] at hreader
  obtain ⟨hclosed, hread, hsaw⟩ : (q.nodes q.head).isClosed ∧
      (q.nodes q.head).readerLocalReaderI = (q.nodes q.head).readerLocalWriterI ∧
      (q.nodes q.head).writerI = (q.nodes q.head).readerLocalWriterI := by
    cases attempt <;> exact hreader
  have hne : q.head ≠ q.tail := by
    intro heq
    rw [heq, h.shape.opened] at hclosed
    cases hclosed
  have hend := (h.shape.closed _ h.shape.mem_head hne).2.1
  obtain ⟨next, rest, hnext, rfl, hshape⟩ := h.shape.advance hclosed h.nodup
  have hfresh := h.shape.fresh next (List.mem_cons_of_mem _ hshape.mem_head)
    (ne_of_mem_of_not_mem hshape.mem_head (List.nodup_cons.mp h.shape.nodup).1)
  have hempty : (q.nodes q.head).pending p = [] := by
    rw [Node.pending, ← hend, hsaw, hread, Nat.sub_self]
    rfl
  have hunseen : unseen q.nodes (q.head :: rest) = unseen q.nodes rest := by
    simp [unseen, hsaw]
  refine ⟨next, rest, hnext, h.ofReader ⟨rfl, rfl, rfl, rfl, rfl, rfl, rfl, rfl, rfl, ?_⟩ hshape
    (h.nodup.erase _) ?_ (by cases attempt <;> exact hfresh) ?_ le_rfl ?_ fun hwaits ↦ ?_⟩
  · intro a ha
    obtain ⟨hhead, hrest⟩ := not_or.mp (mt List.mem_cons.mpr ha)
    exact ⟨hrest, rfl, fun hmem ↦ (h.nodup.mem_erase_iff).mpr ⟨hhead, hmem⟩⟩
  · have horder := h.order
    simp only [pending, List.flatMap_cons, hempty, List.nil_append] at horder ⊢
    exact horder
  · have hparity := h.parity
    rw [hposition, Reader.isArmed_update] at hparity
    exact hparity.trans Reader.isArmed_update.symm
  · rw [hunseen]
    unfold seen
    rw [hread, hfresh]
    simp
  · rw [Reader.waits_update] at hwaits
    refine ⟨rfl, ?_, ?_, ?_⟩
    · rw [hposition, Reader.waits_update]
      exact hwaits
    · unfold seen
      rw [hread, hfresh]
      simp
    · unfold Alarm
      rw [hposition, hunseen]
      refine fun halarm _ ↦ halarm.imp_right fun hsees ↦ ?_
      cases attempt <;> exact hsees

/-- A reader that says that it waits has not been told so before. -/
theorem holds_arm (h : q.Holds p chain) (hposition : q.reader = .arm) :
    Holds p { q with waitState := q.waitState + 1, reader := .update .armed .first } chain := by
  have hreader := h.reader
  have hparity := h.parity
  have hle := h.le
  have hpublished := h.published
  rw [hposition] at hreader hparity
  have heven : ¬q.waitState % 2 = 1 := by
    rw [hparity]
    simp [Reader.IsArmed, Reader.Waits]
  exact
    { h with
      reader := hreader
      parity := by
        rw [Reader.isArmed_update]
        exact iff_of_true (by dsimp only; omega) trivial
      le := hle.trans (Nat.le_succ _)
      storing := fun old heq ↦ (h.storing old heq).trans (Nat.le_succ _)
      flushing := fun old heq ↦ by
        obtain ⟨hflushed, hold, -⟩ := h.flushing old heq
        exact ⟨hflushed, hold.trans (Nat.le_succ _), fun _ hstate ↦
          absurd hstate (Nat.lt_succ_of_le hold).ne⟩
      told := fun _ hstate ↦ absurd hstate (Nat.lt_succ_of_le hle).ne
      wakes := fun _ hlt ↦ .inl (.inr (by
        change 0 < unseen q.nodes chain
        change q.seen < q.flushed at hlt
        omega)) }

theorem holds_acquire (h : q.Holds p chain) (hposition : q.reader = .acquire) :
    Holds p { q with eventFd := 0, reader := .update .acquired .first } chain := by
  have hreader := h.reader
  have hparity := h.parity
  rw [hposition] at hreader hparity
  refine h.ofReader ⟨rfl, rfl, rfl, rfl, rfl, rfl, rfl, rfl, rfl, fun _ ha ↦ ⟨ha, rfl, id⟩⟩ h.shape
    h.nodup h.order hreader ?_ le_rfl rfl fun _ ↦ ⟨rfl, ?_, rfl, fun _ hpos ↦ .inr hpos⟩
  · exact hparity.trans (iff_of_true (.inl trivial) (.inl trivial))
  · rw [hposition]
    trivial

theorem holds_disarm (h : q.Holds p chain) {res : ℕ} (hposition : q.reader = .disarm res) :
    Holds p { q with waitState := q.waitState + 1, reader := .outside (some res) } chain := by
  have hres := h.reader
  have hparity := h.parity
  rw [hposition] at hres hparity
  have hodd := hparity.mpr (.inr ⟨res, rfl⟩)
  have hsome : some res ≠ some 0 := fun heq ↦ hres (Option.some.inj heq)
  refine h.ofReader ⟨rfl, rfl, rfl, rfl, rfl, rfl, rfl, rfl, rfl, fun _ ha ↦ ⟨ha, rfl, id⟩⟩ h.shape
    h.nodup h.order (fun heq ↦ absurd heq hsome) ?_ (Nat.le_succ _) rfl fun hwaits ↦
      absurd hwaits hsome
  refine iff_of_false (by dsimp only; omega) ?_
  rintro (hwaits | ⟨res', heq⟩)
  · exact hsome hwaits
  · cases heq

theorem holds_readerWaitNonblock (h : q.Holds p chain) {last : Option ℕ}
    (hposition : q.reader = .outside last) :
    Holds p { q with
      reader := if q.waitState % 2 = 0 then .update (.backoff 0) .first else .acquire }
      chain := by
  have hreader := h.reader
  have hparity := h.parity
  rw [hposition] at hreader hparity
  split_ifs with heven
  · refine h.setReader trivial ?_ False.elim ?_
    · rw [hposition, ← hparity]
      refine iff_of_false ?_ (by omega)
      rw [Reader.isArmed_update]
      exact id
    · rw [hposition]
      exact False.elim
  · have hodd : q.waitState % 2 = 1 := by omega
    obtain hwaits | ⟨res, heq⟩ := hparity.mp hodd
    · refine h.setReader (hreader hwaits) ?_ ?_ ?_
      · rw [hposition]
        exact iff_of_true (.inl trivial) (.inl hwaits)
      · rw [hposition]
        exact fun _ ↦ hwaits
      · rw [hposition]
        exact False.elim
    · cases heq

theorem holds_readerFlush (h : q.Holds p chain) :
    Holds p (q.setNode q.head (q.nodes q.head).readerFlush) chain := by
  have hnode := h.shape.holds _ h.shape.mem_head
  have hupdate := h.shape.unseen_update h.shape.mem_head (q.nodes q.head).readerFlush
  have hunseen : unseen (Function.update q.nodes q.head (q.nodes q.head).readerFlush) chain =
      unseen q.nodes chain := Nat.add_right_cancel hupdate
  have hseen : (q.setNode q.head (q.nodes q.head).readerFlush).seen = q.seen := by
    unfold seen setNode
    dsimp only
    rw [Function.update_self]
    rfl
  refine h.ofReader (h.setHead q.got q.reader q.waitState rfl rfl rfl rfl)
    (h.shape.setNode h.shape.mem_head rfl (fun _ ↦ rfl) (Node.holds_readerFlush hnode)
      (fun _ ↦ ⟨rfl, rfl⟩) fun _ ↦ rfl) h.nodup (h.order_update rfl) ?_ h.parity le_rfl
    (congrArg₂ _ hseen hunseen) fun hwaits ↦ ⟨rfl, hwaits, hseen, fun halarm _ ↦ ?_⟩
  · change q.reader.Fits (Function.update q.nodes q.head _ q.head)
    rw [Function.update_self]
    exact h.reader
  · unfold Alarm at halarm ⊢
    rw [← hunseen] at halarm
    dsimp only [setNode]
    rw [Function.update_self]
    exact halarm

/-- What is got is the value that has been put first. -/
theorem holds_readerGetUnsafe (h : q.Holds p chain) (hp : p ≤ 20) {last : Option ℕ}
    (hposition : q.reader = .outside last) (hsize : (q.nodes q.head).readerSize ≠ 0) :
    ∃ value node, (q.nodes q.head).readerGetUnsafe p = some (value, node) ∧
      Holds p { q.setNode q.head node with got := q.got ++ [value] } chain := by
  have hnode := h.shape.holds _ h.shape.mem_head
  have hreader := h.reader
  have horder := h.order
  rw [hposition] at hreader
  rw [Node.readerSize_eq hnode hp] at hsize
  have hlt : (q.nodes q.head).readerLocalReaderI < (q.nodes q.head).readerLocalWriterI := by omega
  have hpending := h.shape.pending_update_head (Node.readerGetUnsafe_eq hnode hp hlt)
  rw [hpending] at horder
  obtain ⟨value, hvalue⟩ : ∃ value,
      (q.nodes q.head).data (Node.fixI p (q.nodes q.head).readerLocalReaderI) = some value := by
    have hmem : (q.nodes q.head).data (Node.fixI p (q.nodes q.head).readerLocalReaderI) ∈
        q.put.map some := by
      rw [horder]
      simp
    obtain ⟨value, -, hvalue⟩ := List.mem_map.mp hmem
    exact ⟨value, hvalue.symm⟩
  refine ⟨value, { q.nodes q.head with
    readerLocalReaderI := (q.nodes q.head).readerLocalReaderI + 1 }, ?_, ?_⟩
  · unfold Node.readerGetUnsafe
    rw [hvalue]
    rfl
  · have hupdate := h.shape.unseen_update h.shape.mem_head { q.nodes q.head with
      readerLocalReaderI := (q.nodes q.head).readerLocalReaderI + 1 }
    refine h.ofReader (h.setHead (q.got ++ [value]) q.reader q.waitState rfl rfl rfl rfl)
      (h.shape.setNode h.shape.mem_head rfl (fun _ ↦ rfl) ?_ (fun _ ↦ ⟨rfl, rfl⟩) fun _ ↦ rfl)
      h.nodup ?_ ?_ h.parity le_rfl ?_ fun hwaits ↦ ?_
    · exact { hnode with freed := hnode.freed.trans (Nat.le_succ _), read := hlt }
    · rw [horder, hvalue]
      simp [setNode]
    · change q.reader.Fits (Function.update q.nodes q.head _ q.head)
      rw [Function.update_self, hposition]
      rintro rfl
      exact absurd (hreader rfl) hlt.ne
    · change (q.got ++ [value]).length +
        ((Function.update q.nodes q.head _ q.head).readerLocalWriterI -
          (Function.update q.nodes q.head _ q.head).readerLocalReaderI) +
            unseen (Function.update q.nodes q.head _) chain = _
      rw [Function.update_self, Nat.add_right_cancel hupdate, List.length_append]
      unfold seen
      simp only [List.length_singleton]
      omega
    · change q.reader.Waits at hwaits
      rw [hposition] at hwaits
      obtain rfl : last = some 0 := hwaits
      exact absurd (hreader rfl) hlt.ne

/-! ### Runs -/

/-- A step that is made keeps what holds, and no step stops the program. -/
def Sound (p : ℕ) (result : Except Stop (Queue T)) : Prop :=
  (∀ q', result = .ok q' → ∃ chain, q'.Holds p chain) ∧ ∀ e, result = .error e → e = .disabled

theorem sound_disabled : Sound p (.error .disabled : Except Stop (Queue T)) :=
  ⟨nofun, fun _ heq ↦ (Except.error.inj heq).symm⟩

theorem Holds.sound (h : q.Holds p chain) : Sound p (.ok q) :=
  ⟨fun _ heq ↦ ⟨chain, Except.ok.inj heq ▸ h⟩, nofun⟩

theorem sound_access (h : q.Holds p chain) (ha : a ∈ chain) {f : Node T → Except Stop (Queue T)}
    (hf : Sound p (f (q.nodes a))) : Sound p (q.access a f) := by
  unfold access
  rwa [if_pos (h.shape.allocated a ha)]

theorem sound_writerStep (h : q.Holds p chain) (hp : p ≤ 20) : Sound p (q.writerStep p) := by
  unfold writerStep
  cases hposition : q.writer with
  | outside => exact sound_disabled
  | update value => exact sound_access h h.shape.mem_tail (holds_update h hp hposition).sound
  | flush value => exact sound_access h h.shape.mem_tail (holds_flush h hposition).sound
  | newNode value => exact sound_disabled
  | close value newTail => exact sound_access h h.shape.mem_tail (holds_close h hposition).sound
  | updateNew value =>
    refine sound_access h h.shape.mem_tail ?_
    rw [if_neg (writerSize_new h hp hposition)]
    exact (holds_updateNew h hp hposition).sound
  | put value => exact sound_access h h.shape.mem_tail (holds_put h hp hposition).sound
  | flushStore old => exact sound_access h h.shape.mem_tail (holds_flushStore h hposition).sound
  | flushCheck old =>
    have hnext := holds_flushCheck h hposition
    dsimp only
    split_ifs at hnext ⊢
    · exact hnext.sound
    · exact hnext.sound
  | flushRelease old => exact (holds_flushRelease h hposition).sound

theorem sound_readerStep (h : q.Holds p chain) (hp : p ≤ 20) : Sound p q.readerStep := by
  unfold readerStep
  split
  case h_1 => exact sound_disabled
  case h_2 attempt hposition =>
    exact sound_access h h.shape.mem_head
      (holds_load h hp hposition (holds_first h hposition)).sound
  case h_3 attempt hposition =>
    exact sound_access h h.shape.mem_head (holds_closed h hposition).sound
  case h_4 attempt hposition =>
    exact sound_access h h.shape.mem_head
      (holds_load h hp hposition (holds_again h hposition)).sound
  case h_5 attempt hposition =>
    refine sound_access h h.shape.mem_head ?_
    obtain ⟨next, rest, hnext, hholds⟩ := holds_advance h hposition
    rw [hnext]
    exact hholds.sound
  case h_6 attempt hposition =>
    exact sound_access h h.shape.mem_head
      (holds_load h hp hposition (holds_last h hposition)).sound
  case h_7 hposition => exact (holds_arm h hposition).sound
  case h_8 hposition => exact (holds_acquire h hposition).sound
  case h_9 res hposition => exact (holds_disarm h hposition).sound

theorem sound_step (h : q.Holds p chain) (hp : p ≤ 20) {x : Step T} (hmeets : q.Meets x) :
    Sound p (q.step p x) := by
  cases x with
  | writerPut value =>
    rw [step]
    split
    · next hposition =>
      exact sound_access h h.shape.mem_tail (holds_writerPut h hp hposition value).sound
    · exact sound_disabled
  | writerFlush =>
    rw [step]
    split
    · next hposition => exact (holds_writerFlush h hposition hmeets).sound
    · exact sound_disabled
  | writerNew newTail =>
    rw [step, writerNew]
    split
    · next value hposition =>
      split_ifs with hnew
      · exact sound_disabled
      · exact sound_access h h.shape.mem_tail (holds_newNode h hposition hnew).sound
    · exact sound_disabled
  | writer => exact sound_writerStep h hp
  | readerWaitNonblock =>
    rw [step]
    split
    · next hposition => exact (holds_readerWaitNonblock h hposition).sound
    · exact sound_disabled
  | readerGetUnsafe =>
    rw [step]
    split
    · next hposition =>
      refine sound_access h h.shape.mem_head ?_
      split_ifs with hsize
      · exact sound_disabled
      · obtain ⟨value, node, hget, hholds⟩ := holds_readerGetUnsafe h hp hposition hsize
        rw [hget]
        exact hholds.sound
    · exact sound_disabled
  | readerFlush =>
    rw [step]
    split
    · exact sound_access h h.shape.mem_head (holds_readerFlush h).sound
    · exact sound_disabled
  | reader => exact sound_readerStep h hp

theorem sound_meetStep (h : q.Holds p chain) (hp : p ≤ 20) (x : Step T) :
    Sound p (q.meetStep p x) := by
  unfold meetStep
  split_ifs with hmeets
  · exact sound_step h hp hmeets
  · exact sound_disabled

theorem holds_init (node : ℕ) : (init T node).Holds p [node] where
  shape :=
    { linked := .cons .nil
      last := rfl
      nodup := List.nodup_singleton node
      allocated := fun _ ha ↦ ha
      holds := fun _ _ ↦ Node.holds_new p
      closed := fun a ha hne ↦ absurd (List.mem_singleton.mp ha) hne
      opened := rfl
      fresh := fun _ _ _ ↦ rfl }
  nodup := List.nodup_singleton node
  order := rfl
  writer := nofun
  reader := nofun
  parity := by simp [init, Reader.IsArmed, Reader.Waits]
  published := Nat.zero_le _
  le := le_rfl
  storing := nofun
  flushing := by rintro old (heq | heq) <;> cases heq
  told := nofun
  wakes := nofun

/-- The values come out in the order in which they were put in, and a reader that sleeps while there
are values is woken up. -/
structure Delivers (q : Queue T) : Prop where
  order : q.got <+: q.put
  wakes : q.reader = .outside (some 0) → q.got.length < q.flushed →
    0 < q.eventFd ∨ q.writer.Flushes

theorem Holds.delivers_in_order (h : q.Holds p chain) : q.Delivers where
  order := by
    obtain ⟨l, hprefix, heq⟩ := List.prefix_map_iff.mp ⟨_, h.order.symm⟩
    rwa [List.map_injective_iff.mpr (Option.some_injective T) heq]
  wakes := by
    intro hposition hlt
    have hreader := h.reader
    have hwakes := h.wakes
    rw [hposition] at hreader hwakes
    have hseen : q.seen = q.got.length := by
      unfold seen
      rw [hreader rfl]
      simp
    refine (hwakes rfl (hseen ▸ hlt)).imp_left fun halarm ↦ ?_
    unfold Alarm at halarm
    rw [hposition] at halarm
    exact halarm.resolve_right id

/-- The reader sleeps, and is woken up by two values; a third one is in a new node. -/
def deliverSteps : List (Step ℕ) :=
  [.readerWaitNonblock, .reader, .reader, .reader, .reader, .reader, .reader, .reader, .reader,
    .reader, .reader, .reader, .reader, .writerPut 1, .writer, .writerPut 2, .writer, .writerFlush,
    .writer, .writer, .writer, .writerPut 3, .writer, .writer, .writerNew 7, .writer, .writer,
    .writer, .writerFlush, .writer, .writer, .readerWaitNonblock, .reader, .reader, .reader,
    .readerGetUnsafe, .readerGetUnsafe, .readerFlush, .readerWaitNonblock, .reader, .reader,
    .reader, .reader, .reader, .readerGetUnsafe]

/-- The writer flushes without a value, and the reader sleeps again. -/
def lostSteps : List (Step ℕ) :=
  [.readerWaitNonblock, .reader, .reader, .reader, .reader, .reader, .reader, .reader, .reader,
    .reader, .reader, .reader, .reader, .writerFlush, .writer, .writer, .writer,
    .readerWaitNonblock, .reader, .reader, .reader, .writerPut 5, .writer, .writerFlush, .writer,
    .writer]

/-- The next value does not wake the reader up. -/
theorem exists_not_delivers : ∃ q, lostSteps.foldlM (step 1) (init ℕ 0) = .ok q ∧
    ¬q.Delivers := by
  have hrun : (lostSteps.foldlM (step 1) (init ℕ 0)).toOption.map
      (fun q ↦ (q.reader, q.got, q.flushed, q.eventFd, q.writer)) =
        some (.outside (some 0), [], 1, 0, .outside) := by decide +kernel
  cases hq : lostSteps.foldlM (step 1) (init ℕ 0) with
  | error e =>
    rw [hq] at hrun
    cases hrun
  | ok q =>
    rw [hq] at hrun
    have heq := Option.some.inj hrun
    simp only [Prod.mk.injEq] at heq
    obtain ⟨hreader, hgot, hflushed, hevent, hwriter⟩ := heq
    refine ⟨q, rfl, fun hdelivers ↦ ?_⟩
    have hwakes := hdelivers.wakes hreader (by rw [hgot, hflushed]; decide)
    rw [hevent, hwriter] at hwakes
    exact hwakes.elim (Nat.lt_irrefl 0) id

end Queue

end PxcCore.PollQueue
