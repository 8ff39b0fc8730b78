import PxcCore.Lib.LinkedList
import PxcCore.Lib.Result
import PxcCore.Utils.HazardPointers

/-!
# MpmcQueue

`MpmcQueue` of `MpmcQueue.h`: many threads put values into the blocks of a list and take them out,
each at a position of its own, and delete the blocks that have been passed, as the hazard pointers
allow it.  Each access to what several threads share is a step of its own.  A position has one
writer and one reader, so that the value of a `OneValue` is written and read together with its
state.  A block of the source has 1024 positions.
-/

namespace PxcCore.MpmcQueue

open PxcCore.Lib

/-! ## Definitions -/

/-- `OneValue` -/
inductive OneValue (V : Type) where
  | empty
  | taken
  | value (value : V)
  deriving DecidableEq, Repr

/-- `Node`, with its `Block`. -/
structure Node (size : ℕ) (V : Type) where
  writePos : ℕ := 0
  readPos : ℕ := 0
  data : Fin size → OneValue V := fun _ ↦ .empty
  next : Option ℕ := none

/-- The pointers that are protected. -/
inductive Root where
  | writePos
  | readPos
  deriving DecidableEq, Repr

instance : Fintype Root := ⟨{.writePos, .readPos}, fun r ↦ by cases r <;> decide⟩

/-- Where a thread is: outside of the calls, or before an access.  `start` is the call of `protect`,
and `leave` the one of `clear` at the end. -/
inductive Position (size : ℕ) (V : Type) where
  | outside
  | pushStart (value : V)
  | pushFetch (value : V)
  | pushNext (value : V)
  | pushNew (value : V)
  | pushLink (newNode : ℕ)
  | pushAdvance (value : Option V) (next : ℕ)
  | pushSet (value : V) (pos : Fin size)
  | popStart
  | popWrite
  | popRead (writePos : ℕ)
  | popCheck
  | popFetch
  | popNext
  | popAdvance (next : ℕ)
  | popClear (node : ℕ)
  | popRetire (node : ℕ)
  | popGet (pos : Fin size)
  | leave
  deriving DecidableEq, Repr

/-- `MpmcQueue`, with the nodes at their addresses, the values of all calls of `push` and the ones
that `try_pop` has got. -/
structure Queue (n size : ℕ) (V : Type) where
  pointers : HazardPointers.State n 1 Root ℕ
  nodes : ℕ → Node size V := fun _ ↦ {}
  positions : Fin n → Position size V := fun _ ↦ .outside
  pushed : List V := []
  popped : List V := []

/-- `newNode` is the step in which a thread allocates a node, at an address that is free; `next` is
each other access. -/
inductive Step (n : ℕ) (V : Type) where
  | push (t : Fin n) (value : V)
  | tryPop (t : Fin n)
  | gc (t : Fin n)
  | newNode (t : Fin n) (node : ℕ)
  | next (t : Fin n)
  deriving DecidableEq, Repr

/-- Why a step is not made. -/
inductive Stop where
  | disabled
  | useAfterDelete
  deriving DecidableEq, Repr

namespace Queue

variable {n size : ℕ} {V : Type}

/-- The constructor. -/
def init (n size : ℕ) (V : Type) : Queue n size V :=
  { pointers := { roots := fun _ ↦ some 0, allocated := [0] } }

def setPosition (q : Queue n size V) (t : Fin n) (position : Position size V) : Queue n size V :=
  { q with positions := Function.update q.positions t position }

def setNode (q : Queue n size V) (node : ℕ) (value : Node size V) : Queue n size V :=
  { q with nodes := Function.update q.nodes node value }

/-- The node that `protect` has returned last. -/
def node (q : Queue n size V) (t : Fin n) : Option ℕ := (q.pointers.threads t).held 0

/-- A step of the hazard pointers. -/
def point (q : Queue n size V) (x : HazardPointers.Step n 1 Root ℕ) :
    Except Stop (Queue n size V) :=
  match q.pointers.step x with
  | .ok pointers => .ok { q with pointers := pointers }
  | .error _ => .error .disabled

/-- An access to the node. -/
def access (q : Queue n size V) (t : Fin n) (f : ℕ → Node size V → Queue n size V) :
    Except Stop (Queue n size V) :=
  match q.node t with
  | none => .error .disabled
  | some node =>
    if node ∈ q.pointers.allocated then .ok (f node (q.nodes node)) else .error .useAfterDelete

variable [NeZero size]

/-- The next access of the thread, if `protect` and `retire` have returned. -/
def advance (q : Queue n size V) (t : Fin n) : Except Stop (Queue n size V) :=
  match q.positions t with
  | .outside => .error .disabled
  | .pushStart value =>
    (q.setPosition t (.pushFetch value)).point (.protect t 0 .writePos)
  | .pushFetch value =>
    q.access t fun node block ↦
      (q.setNode node { block with writePos := block.writePos + 1 }).setPosition t
        (if h : block.writePos < size then .pushSet value ⟨block.writePos, h⟩ else .pushNext value)
  | .pushNext value =>
    q.access t fun _ block ↦
      q.setPosition t (block.next.elim (.pushNew value) (.pushAdvance (some value)))
  | .pushNew _ => .error .disabled
  | .pushLink newNode =>
    match q.node t with
    | none => .error .disabled
    | some node =>
      if node ∉ q.pointers.allocated then .error .useAfterDelete
      else if (q.nodes node).next = none then
        .ok ((q.setNode node { q.nodes node with next := some newNode }).setPosition t
          (.pushAdvance none newNode))
      else match (q.nodes newNode).data 0 with
        | .value value => (q.setPosition t (.pushStart value)).point (.delete newNode)
        | _ => .error .disabled
  | .pushAdvance value next =>
    let q' := q.setPosition t (value.elim .leave .pushStart)
    if q.pointers.roots .writePos = q.node t then q'.point (.write .writePos (some next))
    else .ok q'
  | .pushSet value pos =>
    q.access t fun node block ↦
      match block.data pos with
      | .empty =>
        (q.setNode node { block with
          data := Function.update block.data pos (.value value) }).setPosition t .leave
      | _ => q.setPosition t (.pushStart value)
  | .popStart => (q.setPosition t .popWrite).point (.protect t 0 .readPos)
  | .popWrite => q.access t fun _ block ↦ q.setPosition t (.popRead block.writePos)
  | .popRead writePos =>
    q.access t fun _ block ↦
      q.setPosition t (if writePos ≤ block.readPos then .popCheck else .popFetch)
  | .popCheck =>
    q.access t fun _ block ↦ q.setPosition t (if block.next = none then .leave else .popFetch)
  | .popFetch =>
    q.access t fun node block ↦
      (q.setNode node { block with readPos := block.readPos + 1 }).setPosition t
        (if h : block.readPos < size then .popGet ⟨block.readPos, h⟩ else .popNext)
  | .popNext => q.access t fun _ block ↦ q.setPosition t (block.next.elim .leave .popAdvance)
  | .popAdvance next =>
    match q.node t with
    | none => .error .disabled
    | some node =>
      if q.pointers.roots .readPos = some node then
        (q.setPosition t (.popClear node)).point (.write .readPos (some next))
      else .ok (q.setPosition t .popStart)
  | .popClear node => (q.setPosition t (.popRetire node)).point (.clear t 0)
  | .popRetire node => (q.setPosition t .popStart).point (.retire t (some node))
  | .popGet pos =>
    q.access t fun node block ↦
      let q' := q.setNode node { block with data := Function.update block.data pos .taken }
      match block.data pos with
      | .value value => { q' with popped := q.popped ++ [value] }.setPosition t .leave
      | _ => q'.setPosition t .popStart
  | .leave => (q.setPosition t .outside).point (.clear t 0)

/-- The thread is in no call. -/
def isIdle (q : Queue n size V) (t : Fin n) : Bool :=
  match q.positions t, (q.pointers.threads t).position with
  | .outside, .outside => true
  | _, _ => false

/-- A node with its first value. -/
def newNode (value : V) : Node size V :=
  { writePos := 1, data := Function.update (fun _ ↦ .empty) 0 (.value value) }

def step (q : Queue n size V) : Step n V → Except Stop (Queue n size V)
  | .push t value =>
    if q.isIdle t then
      .ok ({ q with pushed := q.pushed ++ [value] }.setPosition t (.pushStart value))
    else .error .disabled
  | .tryPop t => if q.isIdle t then .ok (q.setPosition t .popStart) else .error .disabled
  | .gc t => if q.isIdle t then q.point (.retire t none) else .error .disabled
  | .newNode t node =>
    match q.positions t with
    | .pushNew value =>
      ((q.setNode node (newNode value)).setPosition t (.pushLink node)).point (.alloc node)
    | _ => .error .disabled
  | .next t =>
    match (q.pointers.threads t).position with
    | .outside => q.advance t
    | _ => q.point (.next t)

/-- The readers do not leave a node before the writers do. -/
def Meets (q : Queue n size V) : Step n V → Prop
  | .next t =>
    match q.positions t with
    | .popAdvance _ =>
      q.pointers.roots .readPos = q.node t → q.pointers.roots .writePos ≠ q.node t
    | _ => True
  | _ => True

instance (q : Queue n size V) (x : Step n V) : Decidable (q.Meets x) := by
  unfold Meets
  split
  · split <;> infer_instance
  · infer_instance

def meetStep (q : Queue n size V) (x : Step n V) : Except Stop (Queue n size V) :=
  if q.Meets x then q.step x else .error .disabled

end Queue

/-! ## The nodes -/

namespace Position

variable {size : ℕ} {V : Type}

/-- `protect` or `retire` may not have returned yet. -/
def Waits : Position size V → Prop
  | .outside | .pushFetch _ | .popWrite | .popStart => True
  | _ => False

/-- The thread still needs the node that `protect` has returned. -/
def Uses : Position size V → Prop
  | .pushAdvance .. | .popNext | .popAdvance _ | .popGet _ => True
  | _ => False

/-- The thread is not about to link a node, nor to take a value. -/
def Free : Position size V → Prop
  | .pushLink _ | .popGet _ => False
  | _ => True

/-- Nothing is asked of a thread that comes here. -/
def Plain : Position size V → Prop
  | .pushLink _ | .pushAdvance .. | .popNext | .popAdvance _ | .popClear _ | .popRetire _ => False
  | _ => True

/-- The thread is about to retire the node. -/
def Leaves (position : Position size V) (node : ℕ) : Prop :=
  position = .popClear node ∨ position = .popRetire node

end Position

variable {n size : ℕ} {V : Type} [NeZero size]

/-- What holds of the nodes: those from `read_pos_` on are a list, and the others are those that
nobody has linked yet, and those that all readers have passed. -/
structure Shape (allocated : List ℕ) (held : Fin n → Option ℕ) (retired : ℕ → Prop)
    (busy : Fin n → Prop) (readPos writePos : Option ℕ) (nodes : ℕ → Node size V)
    (positions : Fin n → Position size V) (chain : List ℕ) : Prop where
  linked : Linked (fun x ↦ (nodes x).next) readPos chain
  nodup : chain.Nodup
  writer : ∃ x ∈ chain, writePos = some x
  live : ∀ x ∈ chain, x ∈ allocated ∧ ¬retired x ∧ ∀ t, positions t ≠ .pushLink x
  holders : ∀ t x, held t = some x → x ∈ allocated ∧ ∀ t', positions t' ≠ .pushLink x
  done : ∀ x ∈ allocated, x ∉ chain → (∀ t, positions t ≠ .pushLink x) →
    (nodes x).next ≠ none ∧ size ≤ (nodes x).readPos
  fresh : ∀ t x, positions t = .pushLink x → x ∈ allocated ∧ ¬retired x ∧
    (∃ value, nodes x = Queue.newNode value) ∧ ∀ t', positions t' = .pushLink x → t' = t
  leaving : ∀ t x, (positions t).Leaves x → x ∈ allocated ∧ ¬retired x ∧ x ∉ chain ∧
    (∀ t', positions t' ≠ .pushLink x) ∧ ∀ t', (positions t').Leaves x → t' = t
  waits : ∀ t, busy t → (positions t).Waits
  pushing : ∀ t value next, positions t = .pushAdvance value next →
    ∃ x, held t = some x ∧ (nodes x).next = some next
  passing : ∀ t, positions t = .popNext → ∃ x, held t = some x ∧ size ≤ (nodes x).readPos
  popping : ∀ t next, positions t = .popAdvance next →
    ∃ x, held t = some x ∧ (nodes x).next = some next ∧ size ≤ (nodes x).readPos
  taken : ∀ x ∈ allocated, ∀ pos : Fin size, pos < (nodes x).readPos →
    (nodes x).data pos = .taken ∨ ∃ t, held t = some x ∧ positions t = .popGet pos

namespace Shape

variable {allocated chain : List ℕ} {held : Fin n → Option ℕ} {retired : ℕ → Prop}
  {busy : Fin n → Prop} {readPos writePos : Option ℕ} {nodes : ℕ → Node size V}
  {positions : Fin n → Position size V} {t : Fin n} {x : ℕ}

theorem waits_update
    (h : Shape allocated held retired busy readPos writePos nodes positions chain)
    {position : Position size V} (hwaits : ¬(positions t).Waits ∨ ¬busy t ∨ position.Waits) (t') :
    busy t' → (Function.update positions t position t').Waits := by
  intro hbusy
  rcases eq_or_ne t' t with rfl | hne
  · rw [Function.update_self]
    exact (hwaits.resolve_left (not_not.mpr (h.waits t' hbusy))).resolve_left (not_not.mpr hbusy)
  · rw [Function.update_of_ne hne]
    exact h.waits t' hbusy

omit [NeZero size] in
/-- Another thread is the one that is about to take the value at a position. -/
theorem exists_get_update {pos : Fin size} {position : Position size V}
    (h : ∃ t, held t = some x ∧ positions t = .popGet pos) (hne : positions t ≠ .popGet pos) :
    ∃ t', held t' = some x ∧ Function.update positions t position t' = .popGet pos := by
  obtain ⟨t', hx, hget⟩ := h
  refine ⟨t', hx, ?_⟩
  rwa [Function.update_of_ne (by rintro rfl; exact hne hget)]

/-- A thread goes on, and has not been about to link a node. -/
theorem setPosition
    (h : Shape allocated held retired busy readPos writePos nodes positions chain)
    (position : Position size V) (hlink : ∀ x, positions t ≠ .pushLink x)
    (hget : ∀ pos x, positions t = .popGet pos → held t = some x → (nodes x).data pos = .taken)
    (hlink' : ∀ x, position ≠ .pushLink x)
    (hleave : ∀ x, position.Leaves x → (positions t).Leaves x)
    (hwaits : ¬(positions t).Waits ∨ ¬busy t ∨ position.Waits)
    (hpush : ∀ value next, position = .pushAdvance value next →
      ∃ x, held t = some x ∧ (nodes x).next = some next)
    (hpass : position = .popNext → ∃ x, held t = some x ∧ size ≤ (nodes x).readPos)
    (hpop : ∀ next, position = .popAdvance next →
      ∃ x, held t = some x ∧ (nodes x).next = some next ∧ size ≤ (nodes x).readPos) :
    Shape allocated held retired busy readPos writePos nodes
      (Function.update positions t position) chain := by
  have hself : Function.update positions t position t = position := Function.update_self ..
  have hother (t') (hne : t' ≠ t) : Function.update positions t position t' = positions t' :=
    Function.update_of_ne hne ..
  have hlinks (t' x) : Function.update positions t position t' = .pushLink x ↔
      positions t' = .pushLink x := by
    rcases eq_or_ne t' t with rfl | hne
    · rw [hself]
      exact iff_of_false (hlink' x) (hlink x)
    · rw [hother t' hne]
  have hleaves (t' x) (hleaves : (Function.update positions t position t').Leaves x) :
      (positions t').Leaves x := by
    rcases eq_or_ne t' t with rfl | hne
    · rw [hself] at hleaves
      exact hleave x hleaves
    · rwa [hother t' hne] at hleaves
  refine ⟨h.linked, h.nodup, h.writer, ?_, ?_, ?_, ?_, ?_, ?_, ?_, ?_, ?_, ?_⟩
  · simpa only [ne_eq, hlinks] using h.live
  · simpa only [ne_eq, hlinks] using h.holders
  · simpa only [ne_eq, hlinks] using h.done
  · simpa only [hlinks] using h.fresh
  · intro t' x hx
    obtain ⟨hallocated, hretired, hchain, hnew, honly⟩ := h.leaving t' x (hleaves t' x hx)
    refine ⟨hallocated, hretired, hchain, ?_, fun t'' hx' ↦ honly t'' (hleaves t'' x hx')⟩
    simpa only [ne_eq, hlinks] using hnew
  · exact h.waits_update hwaits
  · grind [h.pushing]
  · grind [h.passing]
  · grind [h.popping]
  · grind [h.taken]

/-- A node that has been linked goes on, and stays linked to the same one. -/
theorem setNode (h : Shape allocated held retired busy readPos writePos nodes positions chain)
    {node : ℕ} (value : Node size V) (hnode : ∀ t, positions t ≠ .pushLink node)
    (hnext : value.next = (nodes node).next) (hread : (nodes node).readPos ≤ value.readPos)
    (htaken : ∀ pos : Fin size, pos < value.readPos → value.data pos = .taken ∨
      ∃ t, held t = some node ∧ positions t = .popGet pos) :
    Shape allocated held retired busy readPos writePos (Function.update nodes node value) positions
      chain := by
  have hnexts (x) : (Function.update nodes node value x).next = (nodes x).next := by
    rcases eq_or_ne x node with rfl | hne
    · rw [Function.update_self, hnext]
    · rw [Function.update_of_ne hne]
  have hreads (x) : (nodes x).readPos ≤ (Function.update nodes node value x).readPos := by
    rcases eq_or_ne x node with rfl | hne
    · rwa [Function.update_self]
    · rw [Function.update_of_ne hne]
  refine ⟨?_, h.nodup, h.writer, h.live, h.holders, ?_, ?_, h.leaving, h.waits, ?_, ?_, ?_, ?_⟩
  · simpa only [hnexts] using h.linked
  · intro x hx hchain hnew
    obtain ⟨hnone, hpassed⟩ := h.done x hx hchain hnew
    exact ⟨(hnexts x).symm ▸ hnone, hpassed.trans (hreads x)⟩
  · intro t x hx
    rw [Function.update_of_ne (by rintro rfl; exact hnode t hx)]
    exact h.fresh t x hx
  · simpa only [hnexts] using h.pushing
  · intro t ht
    obtain ⟨x, hx, hpassed⟩ := h.passing t ht
    exact ⟨x, hx, hpassed.trans (hreads x)⟩
  · intro t next ht
    obtain ⟨x, hx, hlink, hpassed⟩ := h.popping t next ht
    exact ⟨x, hx, (hnexts x).trans hlink, hpassed.trans (hreads x)⟩
  · intro x hx pos hlt
    rcases eq_or_ne x node with rfl | hne
    · rw [Function.update_self] at hlt ⊢
      exact htaken pos hlt
    · rw [Function.update_of_ne hne] at hlt ⊢
      exact h.taken x hx pos hlt

/-- The node that a thread holds is in the list, if it is linked to nothing. -/
theorem mem_chain (h : Shape allocated held retired busy readPos writePos nodes positions chain)
    (hx : held t = some x) (hnone : (nodes x).next = none) : x ∈ chain := by
  obtain ⟨hallocated, hnew⟩ := h.holders t x hx
  by_contra hchain
  exact (h.done x hallocated hchain hnew).1 hnone

/-- A new node is linked. -/
theorem link (h : Shape allocated held retired busy readPos writePos nodes positions chain)
    {newNode : ℕ} (hposition : positions t = .pushLink newNode) (hx : held t = some x)
    (hnone : (nodes x).next = none) :
    Shape allocated held retired busy readPos writePos
      (Function.update nodes x { nodes x with next := some newNode })
      (Function.update positions t (.pushAdvance none newNode)) (chain ++ [newNode]) := by
  have hchain := h.mem_chain hx hnone
  obtain ⟨hallocated, hretired, ⟨value, hvalue⟩, honly⟩ := h.fresh t newNode hposition
  have hnew : newNode ∉ chain := fun hmem ↦ (h.live newNode hmem).2.2 t hposition
  have hnodup : (chain ++ [newNode]).Nodup :=
    List.nodup_append.mpr ⟨h.nodup, List.nodup_singleton _, by grind⟩
  have hnexts : (fun y ↦ (Function.update nodes x { nodes x with next := some newNode } y).next) =
      Function.update (fun y ↦ (nodes y).next) x (some newNode) := by
    funext y
    rcases eq_or_ne y x with rfl | hne
    · rw [Function.update_self, Function.update_self]
    · rw [Function.update_of_ne hne, Function.update_of_ne hne]
  refine ⟨?_, hnodup, ?_, ?_, ?_, ?_, ?_, ?_, ?_, ?_, ?_, ?_, ?_⟩
  · rw [hnexts]
    refine h.linked.append (h.linked.getLast?_eq hchain hnone) (.cons ?_) hnodup
    rw [hvalue]
    exact .nil
  · obtain ⟨y, hy, hwriter⟩ := h.writer
    exact ⟨y, List.mem_append_left _ hy, hwriter⟩
  · grind [h.live]
  · grind [h.holders]
  · intro y hy hchain' hpositions
    have hne : y ≠ x := by grind
    rw [Function.update_of_ne hne]
    refine h.done y hy (by grind) fun t' ht' ↦ ?_
    have hother : t' ≠ t := by grind
    exact hpositions t' (by rwa [Function.update_of_ne hother])
  · grind [h.fresh, h.live]
  · grind [h.leaving, Position.Leaves]
  · exact h.waits_update (.inl (by simp [hposition, Position.Waits]))
  · grind [h.pushing]
  · grind [h.passing]
  · grind [h.popping]
  · intro y hy pos hlt
    have hsame : (Function.update nodes x { nodes x with next := some newNode } y).readPos =
        (nodes y).readPos ∧ (Function.update nodes x { nodes x with next := some newNode } y).data =
          (nodes y).data := by
      grind
    rw [hsame.1] at hlt
    rw [hsame.2]
    exact (h.taken y hy pos hlt).imp_right fun hget ↦ exists_get_update hget (by simp [hposition])

/-- A new node is allocated. -/
theorem alloc (h : Shape allocated held retired busy readPos writePos nodes positions chain)
    {node : ℕ} (value : V) (hfree : node ∉ allocated)
    (hretired : ∀ y, retired y → y ∈ allocated) (hposition : ∀ pos, positions t ≠ .popGet pos)
    (hlink : ∀ y, positions t ≠ .pushLink y) (hbusy : ¬busy t) :
    Shape (node :: allocated) held retired busy readPos writePos
      (Function.update nodes node (Queue.newNode value))
      (Function.update positions t (.pushLink node)) chain := by
  have hnew : node ∉ chain := fun hmem ↦ hfree (h.live node hmem).1
  refine ⟨?_, h.nodup, h.writer, ?_, ?_, ?_, ?_, ?_, ?_, ?_, ?_, ?_, ?_⟩
  · refine h.linked.congr fun y hy ↦ ?_
    rw [Function.update_of_ne (ne_of_mem_of_not_mem hy hnew)]
  · grind [h.live]
  · grind [h.holders]
  · intro y hy hchain' hpositions
    have hne : y ≠ node := by
      rintro rfl
      exact hpositions t (Function.update_self ..)
    rw [Function.update_of_ne hne]
    refine h.done y (by grind) hchain' fun t' ht' ↦ ?_
    have hother : t' ≠ t := by grind
    exact hpositions t' (by rwa [Function.update_of_ne hother])
  · intro t' x hx
    rcases eq_or_ne t' t with rfl | hne
    · rw [Function.update_self] at hx
      obtain rfl := Position.pushLink.inj hx
      refine ⟨List.mem_cons_self, fun hr ↦ hfree (hretired _ hr), ⟨value, Function.update_self ..⟩,
        fun t'' ht'' ↦ ?_⟩
      by_contra hne
      rw [Function.update_of_ne hne] at ht''
      exact hfree (h.fresh t'' _ ht'').1
    · rw [Function.update_of_ne hne] at hx
      obtain ⟨hallocated, hretired', ⟨value', hvalue⟩, honly⟩ := h.fresh t' x hx
      have hne' : x ≠ node := ne_of_mem_of_not_mem hallocated hfree
      refine ⟨List.mem_cons_of_mem _ hallocated, hretired', ⟨value', ?_⟩, fun t'' ht'' ↦ ?_⟩
      · rwa [Function.update_of_ne hne']
      · grind
  · grind [h.leaving, Position.Leaves]
  · exact h.waits_update (.inr (.inl hbusy))
  · grind [h.pushing, h.holders]
  · grind [h.passing, h.holders]
  · grind [h.popping, h.holders]
  · intro x hx pos hlt
    rcases eq_or_ne x node with rfl | hne
    · rw [Function.update_self] at hlt
      exact absurd hlt (Nat.not_lt_zero _)
    · rw [Function.update_of_ne hne] at hlt ⊢
      refine (h.taken x ((List.mem_cons.mp hx).resolve_left hne) pos hlt).imp_right fun hget ↦ ?_
      exact exists_get_update hget (hposition pos)

/-- A new node that is not linked is deleted. -/
theorem unlink (h : Shape allocated held retired busy readPos writePos nodes positions chain)
    {newNode : ℕ} (hposition : positions t = .pushLink newNode) (value : V)
    (hnodup : allocated.Nodup) :
    Shape (allocated.erase newNode) held retired busy readPos writePos nodes
      (Function.update positions t (.pushStart value)) chain := by
  obtain ⟨hallocated, hretired, -, honly⟩ := h.fresh t newNode hposition
  have herase (y) : y ∈ allocated.erase newNode ↔ y ≠ newNode ∧ y ∈ allocated :=
    hnodup.mem_erase_iff
  refine ⟨h.linked, h.nodup, h.writer, ?_, ?_, ?_, ?_, ?_, ?_, ?_, ?_, ?_, ?_⟩
  · grind [h.live]
  · grind [h.holders]
  · intro y hy hchain' hpositions
    refine h.done y (by grind) hchain' fun t' ht' ↦ ?_
    have hother : t' ≠ t := by grind
    exact hpositions t' (by rwa [Function.update_of_ne hother])
  · grind [h.fresh]
  · grind [h.leaving, Position.Leaves]
  · exact h.waits_update (.inl (by simp [hposition, Position.Waits]))
  · grind [h.pushing]
  · grind [h.passing]
  · grind [h.popping]
  · grind [h.taken]

/-- The writers go on to the next node. -/
theorem write (h : Shape allocated held retired busy readPos writePos nodes positions chain)
    {next : ℕ} (hwriter : writePos = some x) (hnext : (nodes x).next = some next) :
    Shape allocated held retired busy readPos (some next) nodes positions chain := by
  obtain ⟨y, hy, hwriter'⟩ := h.writer
  obtain rfl := Option.some.inj (hwriter.symm.trans hwriter')
  exact { h with writer := ⟨next, h.linked.mem_next hy hnext, rfl⟩ }

/-- The readers go on to the next node, after the writers. -/
theorem read (h : Shape allocated held retired busy readPos writePos nodes positions chain)
    {next : ℕ} (hposition : positions t = .popAdvance next) (hx : held t = some x)
    (hread : readPos = some x) (hwriter : writePos ≠ some x) :
    Shape allocated held retired busy (some next) writePos nodes
      (Function.update positions t (.popClear x)) chain.tail := by
  obtain ⟨y, hy, hnext, hpassed⟩ := h.popping t next hposition
  obtain rfl := Option.some.inj (hx.symm.trans hy)
  subst hread
  have hlinked := h.linked
  have hnodup := h.nodup
  cases chain with
  | nil => cases hlinked
  | cons x' chain =>
    obtain ⟨heq, hrest⟩ := hlinked.of_cons
    obtain rfl := Option.some.inj heq
    rw [List.tail_cons]
    obtain ⟨hx', hnodup'⟩ := List.nodup_cons.mp hnodup
    rw [hnext] at hrest
    refine ⟨hrest, hnodup', ?_, ?_, ?_, ?_, ?_, ?_, ?_, ?_, ?_, ?_, ?_⟩
    · obtain ⟨y, hy, hwriter'⟩ := h.writer
      exact ⟨y, by grind, hwriter'⟩
    · grind [h.live]
    · grind [h.holders]
    · intro y hy hchain' hpositions
      rcases eq_or_ne y x with rfl | hne
      · exact ⟨by simp [hnext], hpassed⟩
      · refine h.done y hy (by grind) fun t' ht' ↦ ?_
        have hother : t' ≠ t := by grind
        exact hpositions t' (by rwa [Function.update_of_ne hother])
    · grind [h.fresh]
    · grind [h.leaving, h.live, Position.Leaves]
    · exact h.waits_update (.inl (by simp [hposition, Position.Waits]))
    · grind [h.pushing]
    · grind [h.passing]
    · grind [h.popping]
    · grind [h.taken]

/-- A thread gets another node, or none. -/
theorem setHeld (h : Shape allocated held retired busy readPos writePos nodes positions chain)
    (node : Option ℕ) (hnode : ∀ x ∈ node, x ∈ allocated ∧ ∀ t', positions t' ≠ .pushLink x)
    (huses : ¬(positions t).Uses) :
    Shape allocated (Function.update held t node) retired busy readPos writePos nodes positions
      chain := by
  have hother {t'} (ht' : (positions t').Uses) : Function.update held t node t' = held t' :=
    Function.update_of_ne (by rintro rfl; exact huses ht') ..
  refine ⟨h.linked, h.nodup, h.writer, h.live, ?_, h.done, h.fresh, h.leaving, h.waits, ?_, ?_, ?_,
    ?_⟩
  · intro t' x hx
    rcases eq_or_ne t' t with rfl | hne
    · rw [Function.update_self] at hx
      exact hnode x hx
    · rw [Function.update_of_ne hne] at hx
      exact h.holders t' x hx
  · intro t' value next ht'
    rw [hother (by simp [ht', Position.Uses])]
    exact h.pushing t' value next ht'
  · intro t' ht'
    rw [hother (by simp [ht', Position.Uses])]
    exact h.passing t' ht'
  · intro t' next ht'
    rw [hother (by simp [ht', Position.Uses])]
    exact h.popping t' next ht'
  · intro x hx pos hlt
    refine (h.taken x hx pos hlt).imp_right fun ⟨t', hheld, ht'⟩ ↦ ⟨t', ?_, ht'⟩
    rwa [hother (by simp [ht', Position.Uses])]

/-- Other calls of `protect` and `retire` have not returned. -/
theorem setBusy (h : Shape allocated held retired busy readPos writePos nodes positions chain)
    {busy' : Fin n → Prop} (hbusy : ∀ t, busy' t → (positions t).Waits) :
    Shape allocated held retired busy' readPos writePos nodes positions chain :=
  { h with waits := hbusy }

/-- A node that has been passed is retired. -/
theorem retire (h : Shape allocated held retired busy readPos writePos nodes positions chain)
    (hposition : positions t = .popRetire x) :
    Shape allocated held (fun y ↦ retired y ∨ y = x) busy readPos writePos nodes
      (Function.update positions t .popStart) chain := by
  obtain ⟨hallocated, hretired, hchain, hnew, honly⟩ := h.leaving t x (.inr hposition)
  have hnext := h.setPosition (t := t) .popStart (by simp [hposition]) (by simp [hposition])
    nofun (by simp [Position.Leaves]) (.inr (.inr trivial)) nofun nofun nofun
  refine { hnext with live := ?_, fresh := ?_, leaving := ?_ }
  · grind [hnext.live]
  · grind [hnext.fresh]
  · intro t' y hy
    obtain ⟨hallocated', hretired', hchain', hnew', honly'⟩ := hnext.leaving t' y hy
    refine ⟨hallocated', not_or.mpr ⟨hretired', ?_⟩, hchain', hnew', honly'⟩
    rintro rfl
    have ht' : t' ≠ t := by
      rintro rfl
      simp [Position.Leaves] at hy
    rw [Function.update_of_ne ht'] at hy
    exact ht' (honly t' hy)

/-- A node that has been retired is deleted. -/
theorem delete (h : Shape allocated held retired busy readPos writePos nodes positions chain)
    (hretired : retired x) (hheld : ∀ t, held t ≠ some x) (hnodup : allocated.Nodup) :
    Shape (allocated.erase x) held (fun y ↦ retired y ∧ y ≠ x) busy readPos writePos nodes positions
      chain := by
  have herase (y) : y ∈ allocated.erase x ↔ y ≠ x ∧ y ∈ allocated := hnodup.mem_erase_iff
  refine { h with live := ?_, holders := ?_, done := ?_, fresh := ?_, leaving := ?_, taken := ?_ }
  · grind [h.live]
  · grind [h.holders]
  · exact fun y hy ↦ h.done y ((herase y).mp hy).2
  · grind [h.fresh]
  · grind [h.leaving]
  · exact fun y hy ↦ h.taken y ((herase y).mp hy).2

/-- All values of a node that has been retired have been taken, or are about to be. -/
theorem taken_of_retired
    (h : Shape allocated held retired busy readPos writePos nodes positions chain)
    (hx : x ∈ allocated) (hretired : retired x) (hheld : ∀ t, held t ≠ some x) (pos : Fin size) :
    (nodes x).data pos = .taken := by
  have hchain : x ∉ chain := fun hmem ↦ (h.live x hmem).2.1 hretired
  have hpassed := (h.done x hx hchain fun t ht ↦ (h.fresh t x ht).2.1 hretired).2
  refine (h.taken x hx pos (pos.isLt.trans_le hpassed)).resolve_right ?_
  rintro ⟨t, ht, -⟩
  exact hheld t ht

end Shape

/-! ## The values -/

variable [DecidableEq V]

def OneValue.toList : OneValue V → List V
  | .value v => [v]
  | _ => []

/-- How often the value is in the node. -/
def Node.count (node : Node size V) (value : V) : ℕ :=
  (total fun pos ↦ (node.data pos).toList).count value

/-- The value that a thread has not put into a node yet. -/
def Position.hand : Position size V → List V
  | .pushStart value | .pushFetch value | .pushNext value | .pushNew value | .pushSet value _ =>
    [value]
  | .pushAdvance value _ => value.toList
  | _ => []

omit [NeZero size] in
theorem Node.count_update (node : Node size V) (pos : Fin size) (data : OneValue V) (value : V) :
    Node.count { node with data := Function.update node.data pos data } value +
      (node.data pos).toList.count value = node.count value + data.toList.count value := by
  have hcount := count_total_update (OneValue.toList ∘ node.data) pos data.toList value
  rw [← Function.comp_update] at hcount
  exact hcount

theorem Node.count_newNode (value v : V) :
    (Queue.newNode value : Node size V).count v = [value].count v := by
  have hcount := Node.count_update ({} : Node size V) 0 (.value value) v
  have hempty : ({} : Node size V).count v = 0 := by simp [Node.count, OneValue.toList, total]
  rw [hempty, zero_add] at hcount
  exact hcount

omit [NeZero size] in
theorem Node.count_eq_zero {node : Node size V} (htaken : ∀ pos, node.data pos = .taken)
    (value : V) : node.count value = 0 := by
  simp [Node.count, htaken, OneValue.toList, total]

namespace Queue

variable {q q' : Queue n size V} {t : Fin n} {v : V}

/-- How often the value is in a node. -/
def stored (q : Queue n size V) (v : V) : ℕ :=
  (q.pointers.allocated.map fun x ↦ (q.nodes x).count v).sum

/-- How often the value is on the way. -/
def inHand (q : Queue n size V) (v : V) : ℕ := (total fun t ↦ (q.positions t).hand).count v

omit [NeZero size] in
theorem inHand_setPosition (q : Queue n size V) (t : Fin n) (position : Position size V) (v : V) :
    (q.setPosition t position).inHand v + (q.positions t).hand.count v =
      q.inHand v + position.hand.count v := by
  have hcount := count_total_update (Position.hand ∘ q.positions) t position.hand v
  rw [← Function.comp_update] at hcount
  exact hcount

omit [NeZero size] in
theorem stored_setNode (hnodup : q.pointers.allocated.Nodup) {x : ℕ}
    (hx : x ∈ q.pointers.allocated) (node : Node size V) (v : V) :
    (q.setNode x node).stored v + (q.nodes x).count v = q.stored v + node.count v :=
  sum_map_update (Node.count · v) q.nodes hnodup hx node

/-- The state of the threads and the nodes, with the list from `read_pos_` on. -/
def Shaped (q : Queue n size V) (chain : List ℕ) : Prop :=
  Shape q.pointers.allocated q.node q.pointers.IsRetired
    (fun t ↦ (q.pointers.threads t).position ≠ .outside) (q.pointers.roots .readPos)
    (q.pointers.roots .writePos) q.nodes q.positions chain

/-- Each value of a call of `push` has been got, or is in a node, or is on the way. -/
def Balanced (q : Queue n size V) : Prop :=
  ∀ v, q.pushed.count v = q.popped.count v + q.stored v + q.inHand v

structure Holds (q : Queue n size V) : Prop where
  pointers : q.pointers.Holds
  shaped : ∃ chain, q.Shaped chain
  balanced : q.Balanced

/-- What an access does, to a node that is there. -/
theorem access_eq (h : q.Holds) {f : ℕ → Node size V → Queue n size V} :
    q.access t f = .error .disabled ∨ ∃ node, q.node t = some node ∧
      node ∈ q.pointers.allocated ∧ q.access t f = .ok (f node (q.nodes node)) := by
  unfold access
  cases hnode : q.node t with
  | none => exact .inl rfl
  | some node =>
    have hallocated := ((h.pointers.fits t).held 0 node hnode).2
    exact .inr ⟨node, rfl, hallocated, if_pos hallocated⟩

/-! ## Steps -/

/-- A thread goes on, with the same value on the way. -/
theorem Holds.setPosition (h : q.Holds) (position : Position size V)
    (hlink : ∀ x, q.positions t ≠ .pushLink x) (hget : ∀ pos, q.positions t ≠ .popGet pos)
    (hlink' : ∀ x, position ≠ .pushLink x)
    (hleave : ∀ x, position.Leaves x → (q.positions t).Leaves x)
    (hwaits : ¬(q.positions t).Waits ∨ (q.pointers.threads t).position = .outside ∨ position.Waits)
    (hpush : ∀ value next, position = .pushAdvance value next →
      ∃ x, q.node t = some x ∧ (q.nodes x).next = some next)
    (hpass : position = .popNext → ∃ x, q.node t = some x ∧ size ≤ (q.nodes x).readPos)
    (hpop : ∀ next, position = .popAdvance next →
      ∃ x, q.node t = some x ∧ (q.nodes x).next = some next ∧ size ≤ (q.nodes x).readPos)
    (hhand : position.hand = (q.positions t).hand) : (q.setPosition t position).Holds := by
  obtain ⟨chain, hshape⟩ := h.shaped
  refine ⟨h.pointers, ⟨chain, ?_⟩, fun v ↦ ?_⟩
  · exact hshape.setPosition position hlink (fun pos x hpos ↦ absurd hpos (hget pos)) hlink' hleave
      (hwaits.imp_right (Or.imp_left not_not.mpr)) hpush hpass hpop
  · have hbalance := h.balanced v
    have hcount := inHand_setPosition q t position v
    have hstored : (q.setPosition t position).stored v = q.stored v := rfl
    rw [hhand] at hcount
    rw [hstored]
    simp only [Queue.setPosition] at hcount ⊢
    omega

omit [DecidableEq V] in
theorem Shaped.of_root {chain : List ℕ} (h : q.Shaped chain) {r : Root} {x : ℕ}
    (hx : q.pointers.roots r = some x) : x ∈ chain := by
  cases r with
  | writePos =>
    obtain ⟨y, hy, hwriter⟩ := h.writer
    obtain rfl := Option.some.inj (hx.symm.trans hwriter)
    exact hy
  | readPos =>
    have hlinked := h.linked
    rw [hx] at hlinked
    cases hlinked with
    | cons _ => exact List.mem_cons_self

omit [NeZero size] [DecidableEq V] in
theorem node_setData (data : HazardPointers.ThreadData n 1 Root ℕ) :
    { q with pointers := q.pointers.setData t data }.node =
      Function.update q.node t (data.held 0) := by
  funext t'
  rcases eq_or_ne t' t with rfl | hne
  · rw [Function.update_self, node, HazardPointers.State.threads_setData_self]
  · rw [Function.update_of_ne hne, node, HazardPointers.State.threads_setData_of_ne hne]
    rfl

/-- The thread gives up its node, or `protect` goes on. -/
theorem Holds.setData (h : q.Holds) {data : HazardPointers.ThreadData n 1 Root ℕ}
    (hpointers : (q.pointers.setData t data).Holds)
    (hdelete : data.toDelete = (q.pointers.threads t).toDelete)
    (hbusy : data.position = .outside ∨ (q.positions t).Waits) (huses : ¬(q.positions t).Uses)
    (hnode : data.held 0 = none) : { q with pointers := q.pointers.setData t data }.Holds := by
  obtain ⟨chain, hshape⟩ := h.shaped
  refine ⟨hpointers, ⟨chain, ?_⟩, h.balanced⟩
  have hretired : (q.pointers.setData t data).IsRetired = q.pointers.IsRetired :=
    funext fun x ↦ propext (HazardPointers.State.isRetired_setData_of_eq hdelete x)
  unfold Shaped
  rw [node_setData]
  dsimp only
  rw [hretired, hnode]
  refine (hshape.setHeld none nofun huses).setBusy fun t' hbusy' ↦ ?_
  rcases eq_or_ne t' t with rfl | hne
  · rw [HazardPointers.State.threads_setData_self] at hbusy'
    exact hbusy.resolve_left hbusy'
  · rw [HazardPointers.State.threads_setData_of_ne hne] at hbusy'
    exact hshape.waits t' hbusy'

/-- A step that is made keeps what holds, and none is made on a node that is deleted. -/
def Sound (result : Except Stop (Queue n size V)) : Prop :=
  (∀ q', result = .ok q' → q'.Holds) ∧ result ≠ .error .useAfterDelete

theorem sound_disabled : Sound (.error .disabled : Except Stop (Queue n size V)) := ⟨nofun, nofun⟩

theorem Holds.sound (h : q.Holds) : Sound (.ok q) := ⟨fun _ heq ↦ Except.ok.inj heq ▸ h, nofun⟩

theorem sound_access (h : q.Holds) {f : ℕ → Node size V → Queue n size V}
    (hf : ∀ node, q.node t = some node → node ∈ q.pointers.allocated →
      (f node (q.nodes node)).Holds) : Sound (q.access t f) := by
  rcases access_eq h (t := t) (f := f) with heq | ⟨node, hnode, hallocated, heq⟩
  · rw [heq]
    exact sound_disabled
  · rw [heq]
    exact (hf node hnode hallocated).sound

theorem sound_point {x : HazardPointers.Step n 1 Root ℕ}
    (hx : ∀ pointers, q.pointers.step x = .ok pointers → { q with pointers := pointers }.Holds) :
    Sound (q.point x) := by
  unfold point
  split
  · next pointers heq => exact (hx pointers heq).sound
  · exact sound_disabled

theorem sound_protect (h : q.Holds) (hwaits : (q.positions t).Waits)
    (huses : ¬(q.positions t).Uses) (r : Root) : Sound (q.point (.protect t 0 r)) := by
  refine sound_point fun pointers hstep ↦ ?_
  have hpointers := HazardPointers.State.holds_step h.pointers (by trivial) hstep
  rw [HazardPointers.State.step] at hstep
  split_ifs at hstep
  obtain rfl := Except.ok.inj hstep
  refine h.setData hpointers rfl (.inr hwaits) huses ?_
  rw [HazardPointers.ThreadData.held_setHeld, Function.update_self]

theorem sound_clear (h : q.Holds) (huses : ¬(q.positions t).Uses) :
    Sound (q.point (.clear t 0)) := by
  refine sound_point fun pointers hstep ↦ ?_
  have hpointers := HazardPointers.State.holds_step h.pointers (by trivial) hstep
  rw [HazardPointers.State.step] at hstep
  split_ifs at hstep with hposition
  obtain rfl := Except.ok.inj hstep
  refine h.setData hpointers rfl (.inl hposition) huses ?_
  rw [HazardPointers.ThreadData.held_setHeld, Function.update_self]

omit [NeZero size] [DecidableEq V] in
/-- What the other threads have of their nodes is as before. -/
theorem node_update {pointers : HazardPointers.State n 1 Root ℕ}
    (hothers : ∀ t', t' ≠ t → pointers.threads t' = q.pointers.threads t') :
    { q with pointers := pointers }.node =
      Function.update q.node t ((pointers.threads t).held 0) := by
  funext t'
  rcases eq_or_ne t' t with rfl | hne
  · rw [Function.update_self, node]
  · rw [Function.update_of_ne hne, node, hothers t' hne]
    rfl

omit [DecidableEq V] in
theorem busy_update {chain : List ℕ} {pointers : HazardPointers.State n 1 Root ℕ}
    (h : q.Shaped chain) (hothers : ∀ t', t' ≠ t → pointers.threads t' = q.pointers.threads t')
    (hbusy : (q.pointers.threads t).position ≠ .outside) (t') :
    (pointers.threads t').position ≠ .outside → (q.positions t').Waits := by
  intro hbusy'
  rcases eq_or_ne t' t with rfl | hne
  · exact h.waits t' hbusy
  · rw [hothers t' hne] at hbusy'
    exact h.waits t' hbusy'

theorem sound_pointNext (h : q.Holds) (hbusy : (q.pointers.threads t).position ≠ .outside) :
    Sound (q.point (.next t)) := by
  refine sound_point fun pointers hstep ↦ ?_
  have hpointers := HazardPointers.State.holds_step h.pointers (by trivial) hstep
  obtain ⟨chain, hshape⟩ := h.shaped
  have huses : ¬(q.positions t).Uses := by
    have hwaits := hshape.waits t hbusy
    cases hposition : q.positions t <;> simp_all [Position.Waits, Position.Uses]
  obtain ⟨hroots, hothers, hcases⟩ := HazardPointers.State.next_cases h.pointers hstep
  have hnode := node_update hothers
  have hbusy' := busy_update hshape hothers hbusy
  rcases hcases with ⟨hallocated, hretired, hheld⟩ | ⟨x, hx, hnot, hallocated, hretired, hheld⟩
  · have hretired' : pointers.IsRetired = q.pointers.IsRetired :=
      funext fun x ↦ propext (hretired x)
    refine ⟨hpointers, ⟨chain, ?_⟩, fun v ↦ ?_⟩
    · unfold Shaped
      rw [hnode]
      dsimp only
      rw [hretired', hroots, hallocated]
      refine (hshape.setHeld _ ?_ huses).setBusy hbusy'
      rcases hheld with hheld | ⟨pos, r, hheld⟩
      · rw [hheld]
        exact fun x hx ↦ hshape.holders t x hx
      · rw [hheld, Subsingleton.elim pos 0, Function.update_self]
        exact fun x hx ↦ ⟨(hshape.live x (hshape.of_root hx)).1,
          (hshape.live x (hshape.of_root hx)).2.2⟩
    · have hbalance := h.balanced v
      simp only [stored, inHand, hallocated] at hbalance ⊢
      exact hbalance
  · have hretired' : pointers.IsRetired = fun y ↦ q.pointers.IsRetired y ∧ y ≠ x :=
      funext fun y ↦ propext (hretired y)
    have hmem : x ∈ q.pointers.allocated := by
      obtain ⟨t', ht'⟩ := hx
      exact ((h.pointers.fits t').retired x ht').1
    have hnodup := h.pointers.nodup
    refine ⟨hpointers, ⟨chain, ?_⟩, fun v ↦ ?_⟩
    · unfold Shaped
      rw [hnode, hheld, show (q.pointers.threads t).held 0 = q.node t from rfl,
        Function.update_eq_self]
      dsimp only
      rw [hretired', hroots, hallocated]
      exact (hshape.delete hx (fun t' ↦ hnot t' 0) hnodup).setBusy hbusy'
    · have hbalance := h.balanced v
      have hcount := List.sum_map_erase (fun y ↦ (q.nodes y).count v) hmem
      have hzero : (q.nodes x).count v = 0 :=
        Node.count_eq_zero (hshape.taken_of_retired hmem hx fun t' ↦ hnot t' 0) v
      simp only [stored, inHand, hallocated] at hbalance ⊢
      omega

omit [DecidableEq V] in
/-- The thread scans its objects from now on. -/
theorem shaped_scan {chain : List ℕ} {data : HazardPointers.ThreadData n 1 Root ℕ}
    (h : Shape q.pointers.allocated q.node (q.pointers.setData t data).IsRetired
      (fun t ↦ (q.pointers.threads t).position ≠ .outside) (q.pointers.roots .readPos)
      (q.pointers.roots .writePos) q.nodes q.positions chain)
    (hheld : data.held = (q.pointers.threads t).held) (hwaits : (q.positions t).Waits) :
    { q with pointers := q.pointers.setData t data }.Shaped chain := by
  unfold Shaped
  rw [node_setData, hheld, show (q.pointers.threads t).held 0 = q.node t from rfl,
    Function.update_eq_self]
  refine h.setBusy fun t' hbusy ↦ ?_
  rcases eq_or_ne t' t with rfl | hne
  · exact hwaits
  · rw [HazardPointers.State.threads_setData_of_ne hne] at hbusy
    exact h.waits t' hbusy

theorem sound_gc (h : q.Holds) (hposition : q.positions t = .outside) :
    Sound (q.point (.retire t none)) := by
  refine sound_point fun pointers hstep ↦ ?_
  have hpointers := HazardPointers.State.holds_step h.pointers (by trivial) hstep
  rw [HazardPointers.State.step] at hstep
  split_ifs at hstep
  obtain rfl := Except.ok.inj hstep
  obtain ⟨chain, hshape⟩ := h.shaped
  refine ⟨hpointers, ⟨chain, shaped_scan ?_ rfl ?_⟩, h.balanced⟩
  · rw [show HazardPointers.State.IsRetired _ = q.pointers.IsRetired from funext fun y ↦ propext <|
      (HazardPointers.State.isRetired_retire q.pointers t none y).trans
        (or_iff_left (Option.some_ne_none y).symm)]
    exact hshape
  · rw [hposition]
    trivial

theorem sound_retire (h : q.Holds) {x : ℕ} (hposition : q.positions t = .popRetire x) :
    Sound ((q.setPosition t .popStart).point (.retire t (some x))) := by
  refine sound_point fun pointers hstep ↦ ?_
  obtain ⟨chain, hshape⟩ := h.shaped
  obtain ⟨hallocated, hretired, hchain, hnew, honly⟩ := hshape.leaving t x (.inr hposition)
  have hmeets : q.pointers.Meets (.retire t (some x)) :=
    ⟨hallocated, hretired, fun r hr ↦ hchain (hshape.of_root hr)⟩
  have hpointers := HazardPointers.State.holds_step h.pointers hmeets hstep
  rw [HazardPointers.State.step] at hstep
  split_ifs at hstep
  obtain rfl := Except.ok.inj hstep
  refine ⟨hpointers, ⟨chain, shaped_scan (q := q.setPosition t .popStart) ?_ rfl ?_⟩, fun v ↦ ?_⟩
  · have hretired' : (q.pointers.setData t ({ q.pointers.threads t with
          toDelete := (q.pointers.threads t).toDelete ++ (some x).toList }.scan 0)).IsRetired =
        fun y ↦ q.pointers.IsRetired y ∨ y = x :=
      funext fun y ↦ propext <|
        (HazardPointers.State.isRetired_retire q.pointers t (some x) y).trans (by simp [eq_comm])
    have hnext := hshape.retire hposition
    rw [← hretired'] at hnext
    exact hnext
  · rw [show (q.setPosition t .popStart).positions t = .popStart from Function.update_self ..]
    trivial
  · have hbalance := h.balanced v
    have hcount := inHand_setPosition q t .popStart v
    rw [hposition] at hcount
    exact hbalance.trans (congrArg _ hcount.symm)

theorem sound_write {x next : ℕ} (h : q.Holds) (hwriter : q.pointers.roots .writePos = some x)
    (hnext : (q.nodes x).next = some next) :
    Sound (q.point (.write .writePos (some next))) := by
  refine sound_point fun pointers hstep ↦ ?_
  obtain ⟨chain, hshape⟩ := h.shaped
  have hmem := hshape.linked.mem_next (hshape.of_root hwriter) hnext
  have hmeets : q.pointers.Meets (.write .writePos (some next)) :=
    ⟨(hshape.live next hmem).1, (hshape.live next hmem).2.1⟩
  have hpointers := HazardPointers.State.holds_step h.pointers hmeets hstep
  obtain rfl := Except.ok.inj hstep
  exact ⟨hpointers, ⟨chain, hshape.write hwriter hnext⟩, h.balanced⟩

theorem sound_read {x next : ℕ} (h : q.Holds) (hposition : q.positions t = .popAdvance next)
    (hx : q.node t = some x) (hread : q.pointers.roots .readPos = some x)
    (hwriter : q.pointers.roots .writePos ≠ some x) :
    Sound ((q.setPosition t (.popClear x)).point (.write .readPos (some next))) := by
  refine sound_point fun pointers hstep ↦ ?_
  obtain ⟨chain, hshape⟩ := h.shaped
  obtain ⟨y, hy, hnext, -⟩ := hshape.popping t next hposition
  obtain rfl := Option.some.inj (hx.symm.trans hy)
  have hmem := hshape.linked.mem_next (hshape.of_root hread) hnext
  have hmeets : q.pointers.Meets (.write .readPos (some next)) :=
    ⟨(hshape.live next hmem).1, (hshape.live next hmem).2.1⟩
  have hpointers := HazardPointers.State.holds_step h.pointers hmeets hstep
  obtain rfl := Except.ok.inj hstep
  refine ⟨hpointers, ⟨chain.tail, hshape.read hposition hx hread hwriter⟩, fun v ↦ ?_⟩
  have hbalance := h.balanced v
  have hcount := inHand_setPosition q t (.popClear x) v
  rw [hposition] at hcount
  exact hbalance.trans (congrArg _ hcount.symm)

theorem sound_unlink (h : q.Holds) {newNode : ℕ} {value : V}
    (hposition : q.positions t = .pushLink newNode)
    (hdata : (q.nodes newNode).data 0 = .value value) :
    Sound ((q.setPosition t (.pushStart value)).point (.delete newNode)) := by
  refine sound_point fun pointers hstep ↦ ?_
  obtain ⟨chain, hshape⟩ := h.shaped
  obtain ⟨hallocated, hretired, ⟨value', hvalue⟩, honly⟩ := hshape.fresh t newNode hposition
  have hmeets : q.pointers.Meets (.delete newNode) := by
    refine ⟨hretired, fun r hr ↦ ?_, fun t' pos hheld ↦ ?_⟩
    · exact (hshape.live newNode (hshape.of_root hr)).2.2 t hposition
    · rw [Subsingleton.elim pos 0] at hheld
      exact (hshape.holders t' newNode hheld).2 t hposition
  have hpointers := HazardPointers.State.holds_step h.pointers hmeets hstep
  rw [HazardPointers.State.step] at hstep
  split_ifs at hstep
  obtain rfl := Except.ok.inj hstep
  refine ⟨hpointers, ⟨chain, hshape.unlink hposition value h.pointers.nodup⟩, fun v ↦ ?_⟩
  have hbalance := h.balanced v
  have hcount := inHand_setPosition q t (.pushStart value) v
  have hstored := List.sum_map_erase (fun y ↦ (q.nodes y).count v) hallocated
  have hnode : (q.nodes newNode).count v = [value].count v := by
    rw [hvalue] at hdata ⊢
    obtain rfl : value' = value := OneValue.value.inj hdata
    exact Node.count_newNode value' v
  rw [hposition] at hcount
  simp only [stored, inHand, setPosition, Position.hand, List.count_nil] at hbalance hcount ⊢
  omega

theorem sound_newNode (h : q.Holds) {value : V} (hposition : q.positions t = .pushNew value)
    (node : ℕ) :
    Sound (((q.setNode node (newNode value)).setPosition t (.pushLink node)).point
      (.alloc node)) := by
  refine sound_point fun pointers hstep ↦ ?_
  obtain ⟨chain, hshape⟩ := h.shaped
  have hpointers := HazardPointers.State.holds_step h.pointers (by trivial) hstep
  rw [HazardPointers.State.step] at hstep
  split_ifs at hstep with hfree
  obtain rfl := Except.ok.inj hstep
  refine ⟨hpointers, ⟨chain, hshape.alloc value hfree ?_ ?_ ?_ ?_⟩, fun v ↦ ?_⟩
  · rintro y ⟨t', ht'⟩
    exact ((h.pointers.fits t').retired y ht').1
  · simp [hposition]
  · simp [hposition]
  · exact fun hbusy ↦ absurd (hshape.waits t hbusy) (by simp [hposition, Position.Waits])
  · have hbalance := h.balanced v
    have hcount := inHand_setPosition q t (.pushLink node) v
    have hothers : q.pointers.allocated.map
          (fun y ↦ (Function.update q.nodes node (newNode value) y).count v) =
        q.pointers.allocated.map fun y ↦ (q.nodes y).count v := by
      refine List.map_congr_left fun y hy ↦ ?_
      rw [Function.update_of_ne (ne_of_mem_of_not_mem hy hfree)]
    rw [hposition] at hcount
    have hnode : (newNode value : Node size V).count v = _ := Node.count_newNode value v
    simp only [stored, inHand, setPosition, setNode, Position.hand, List.count_nil, List.map_cons,
      List.sum_cons, hothers, Function.update_self] at hbalance hcount ⊢
    omega

/-- A node that the thread holds goes on. -/
theorem Holds.setNode (h : q.Holds) {x : ℕ} (hx : q.node t = some x) (node : Node size V)
    (hnext : node.next = (q.nodes x).next) (hread : (q.nodes x).readPos ≤ node.readPos)
    (htaken : ∀ pos : Fin size, pos < node.readPos → node.data pos = .taken ∨
      ∃ t, q.node t = some x ∧ q.positions t = .popGet pos)
    (hdata : node.data = (q.nodes x).data) : (q.setNode x node).Holds := by
  obtain ⟨chain, hshape⟩ := h.shaped
  obtain ⟨hallocated, hnew⟩ := hshape.holders t x hx
  refine ⟨h.pointers, ⟨chain, hshape.setNode node hnew hnext hread htaken⟩, fun v ↦ ?_⟩
  have hbalance := h.balanced v
  have hcount := stored_setNode h.pointers.nodup hallocated node v
  have hsame : node.count v = (q.nodes x).count v := by rw [Node.count, Node.count, hdata]
  have hhand : (q.setNode x node).inHand v = q.inHand v := rfl
  rw [hhand]
  simp only [Queue.setNode] at hcount ⊢
  omega

/-- A thread goes on to a position that asks for nothing. -/
theorem Holds.goOn (h : q.Holds) {old position : Position size V} (hposition : q.positions t = old)
    (hout : (q.pointers.threads t).position = .outside) (hfree : old.Free) (hplain : position.Plain)
    (hhand : position.hand = old.hand) : (q.setPosition t position).Holds := by
  subst hposition
  apply h.setPosition
  · exact fun x heq ↦ by simp [heq, Position.Free] at hfree
  · exact fun pos heq ↦ by simp [heq, Position.Free] at hfree
  · exact fun x heq ↦ by simp [heq, Position.Plain] at hplain
  · rintro x (rfl | rfl)
    · exact hplain.elim
    · exact hplain.elim
  · exact .inr (.inl hout)
  · exact fun value next heq ↦ by simp [heq, Position.Plain] at hplain
  · exact fun heq ↦ by simp [heq, Position.Plain] at hplain
  · exact fun next heq ↦ by simp [heq, Position.Plain] at hplain
  · exact hhand

theorem sound_pushFetch (h : q.Holds) {value : V} (hposition : q.positions t = .pushFetch value)
    (hout : (q.pointers.threads t).position = .outside) : Sound (q.advance t) := by
  unfold advance
  rw [hposition]
  refine sound_access h fun node hnode hallocated ↦ ?_
  obtain ⟨chain, hshape⟩ := h.shaped
  have hset : (q.setNode node
      { q.nodes node with writePos := (q.nodes node).writePos + 1 }).Holds :=
    h.setNode hnode _ rfl le_rfl (hshape.taken node hallocated) rfl
  split_ifs
  · exact hset.goOn hposition hout trivial trivial rfl
  · exact hset.goOn hposition hout trivial trivial rfl

theorem sound_pushNext (h : q.Holds) {value : V} (hposition : q.positions t = .pushNext value)
    (hout : (q.pointers.threads t).position = .outside) : Sound (q.advance t) := by
  unfold advance
  rw [hposition]
  refine sound_access h fun node hnode hallocated ↦ ?_
  cases hnext : (q.nodes node).next with
  | none => exact h.goOn hposition hout trivial trivial rfl
  | some next =>
    apply h.setPosition
    · simp [hposition]
    · simp [hposition]
    · exact nofun
    · rintro x (heq | heq) <;> cases heq
    · exact .inr (.inl hout)
    · rintro value' next' heq
      obtain ⟨-, rfl⟩ := Position.pushAdvance.inj heq
      exact ⟨node, hnode, hnext⟩
    · exact nofun
    · exact nofun
    · rw [hposition]
      rfl

theorem sound_pushLink (h : q.Holds) {newNode : ℕ} (hposition : q.positions t = .pushLink newNode) :
    Sound (q.advance t) := by
  unfold advance
  rw [hposition]
  dsimp only
  obtain ⟨chain, hshape⟩ := h.shaped
  split
  · exact sound_disabled
  · next node hnode =>
    have hallocated := (hshape.holders t node hnode).1
    rw [if_neg (not_not.mpr hallocated)]
    split_ifs with hnone
    · refine Holds.sound ⟨h.pointers, ⟨_, hshape.link hposition hnode hnone⟩, fun v ↦ ?_⟩
      have hbalance := h.balanced v
      have hcount := inHand_setPosition q t (.pushAdvance none newNode) v
      have hstored : (q.setNode node { q.nodes node with next := some newNode }).stored v +
          (q.nodes node).count v = q.stored v + (q.nodes node).count v :=
        stored_setNode h.pointers.nodup hallocated _ v
      rw [hposition] at hcount
      simp only [stored, inHand, setPosition, setNode, Position.hand, Option.toList_none,
        List.count_nil] at hbalance hcount hstored ⊢
      omega
    · split
      · next value hvalue => exact sound_unlink h hposition hvalue
      · exact sound_disabled

theorem sound_pushAdvance (h : q.Holds) {value : Option V} {next : ℕ}
    (hposition : q.positions t = .pushAdvance value next)
    (hout : (q.pointers.threads t).position = .outside) : Sound (q.advance t) := by
  unfold advance
  rw [hposition]
  dsimp only
  obtain ⟨chain, hshape⟩ := h.shaped
  obtain ⟨x, hx, hnext⟩ := hshape.pushing t value next hposition
  have hq : (q.setPosition t (value.elim .leave .pushStart)).Holds := by
    cases value with
    | none => exact h.goOn hposition hout trivial trivial rfl
    | some value => exact h.goOn hposition hout trivial trivial rfl
  split_ifs with hwriter
  · exact sound_write hq (hwriter.trans hx) hnext
  · exact hq.sound

theorem sound_pushSet (h : q.Holds) {value : V} {pos : Fin size}
    (hposition : q.positions t = .pushSet value pos)
    (hout : (q.pointers.threads t).position = .outside) : Sound (q.advance t) := by
  unfold advance
  rw [hposition]
  refine sound_access h fun node hnode hallocated ↦ ?_
  obtain ⟨chain, hshape⟩ := h.shaped
  cases hdata : (q.nodes node).data pos with
  | taken => exact h.goOn hposition hout trivial trivial rfl
  | value _ => exact h.goOn hposition hout trivial trivial rfl
  | empty =>
    have hset := hshape.setNode { q.nodes node with
      data := Function.update (q.nodes node).data pos (.value value) }
      (hshape.holders t node hnode).2 rfl le_rfl fun pos' hlt ↦ by
        have htaken := hshape.taken node hallocated pos' hlt
        grind
    refine ⟨h.pointers, ⟨chain, hset.setPosition .leave (by simp [hposition]) (by simp [hposition])
      nofun (by simp [Position.Leaves]) (.inr (.inl (not_not.mpr hout))) nofun nofun nofun⟩,
      fun v ↦ ?_⟩
    have hbalance := h.balanced v
    have hcount := inHand_setPosition q t .leave v
    have hstored := stored_setNode h.pointers.nodup hallocated { q.nodes node with
      data := Function.update (q.nodes node).data pos (.value value) } v
    have hnode := Node.count_update (q.nodes node) pos (.value value) v
    rw [hposition] at hcount
    rw [hdata] at hnode
    simp only [stored, inHand, setPosition, setNode, Position.hand, OneValue.toList,
      List.count_nil] at hbalance hcount hstored hnode ⊢
    omega

theorem sound_popFetch (h : q.Holds) (hposition : q.positions t = .popFetch)
    (hout : (q.pointers.threads t).position = .outside) : Sound (q.advance t) := by
  unfold advance
  rw [hposition]
  refine sound_access h fun node hnode hallocated ↦ ?_
  obtain ⟨chain, hshape⟩ := h.shaped
  split_ifs with hlt
  · -- The position is the one that this thread is about to take the value at.
    have hq : (q.setPosition t (.popGet ⟨_, hlt⟩)).Holds :=
      h.goOn hposition hout trivial trivial rfl
    refine hq.setNode (t := t) hnode { q.nodes node with readPos := _ } rfl (Nat.le_succ _)
      (fun pos hpos ↦ ?_) rfl
    obtain ⟨chain, hshape⟩ := hq.shaped
    rcases Nat.lt_succ_iff_lt_or_eq.mp hpos with hpos | hpos
    · exact hshape.taken node hallocated pos hpos
    · exact .inr ⟨t, hnode,
        (Function.update_self ..).trans (congrArg Position.popGet (Fin.ext hpos.symm))⟩
  · have hset : (q.setNode node
        { q.nodes node with readPos := (q.nodes node).readPos + 1 }).Holds :=
      h.setNode hnode _ rfl (Nat.le_succ _)
        (fun pos _ ↦ hshape.taken node hallocated pos (by omega)) rfl
    apply hset.setPosition
    · exact fun x heq ↦ absurd (hposition.symm.trans heq) nofun
    · exact fun pos heq ↦ absurd (hposition.symm.trans heq) nofun
    · exact nofun
    · rintro x (heq | heq) <;> cases heq
    · exact .inr (.inl hout)
    · exact nofun
    · refine fun _ ↦ ⟨node, hnode, ?_⟩
      simp only [setNode, Function.update_self]
      omega
    · exact nofun
    · exact (congrArg Position.hand hposition).symm

theorem sound_popNext (h : q.Holds) (hposition : q.positions t = .popNext)
    (hout : (q.pointers.threads t).position = .outside) : Sound (q.advance t) := by
  unfold advance
  rw [hposition]
  refine sound_access h fun node hnode hallocated ↦ ?_
  obtain ⟨chain, hshape⟩ := h.shaped
  obtain ⟨x, hx, hpassed⟩ := hshape.passing t hposition
  obtain rfl := Option.some.inj (hnode.symm.trans hx)
  cases hnext : (q.nodes node).next with
  | none => exact h.goOn hposition hout trivial trivial rfl
  | some next =>
    apply h.setPosition
    · simp [hposition]
    · simp [hposition]
    · exact nofun
    · rintro x (heq | heq) <;> cases heq
    · exact .inr (.inl hout)
    · exact nofun
    · exact nofun
    · rintro next' heq
      obtain rfl := Position.popAdvance.inj heq
      exact ⟨node, hnode, hnext, hpassed⟩
    · rw [hposition]
      rfl

theorem sound_popAdvance (h : q.Holds) {next : ℕ} (hposition : q.positions t = .popAdvance next)
    (hout : (q.pointers.threads t).position = .outside) (hmeets : q.Meets (.next t)) :
    Sound (q.advance t) := by
  simp only [Meets, hposition] at hmeets
  unfold advance
  rw [hposition]
  dsimp only
  split
  · exact sound_disabled
  · next node hnode =>
    rw [hnode] at hmeets
    split_ifs with hread
    · exact sound_read h hposition hnode hread (hmeets hread)
    · have hq : (q.setPosition t .popStart).Holds := h.goOn hposition hout trivial trivial rfl
      exact hq.sound

theorem sound_popGet (h : q.Holds) {pos : Fin size} (hposition : q.positions t = .popGet pos)
    (hout : (q.pointers.threads t).position = .outside) : Sound (q.advance t) := by
  unfold advance
  rw [hposition]
  refine sound_access h fun node hnode hallocated ↦ ?_
  obtain ⟨chain, hshape⟩ := h.shaped
  have hset := hshape.setNode { q.nodes node with
    data := Function.update (q.nodes node).data pos .taken } (hshape.holders t node hnode).2 rfl
    le_rfl fun pos' hlt ↦ by
      have htaken := hshape.taken node hallocated pos' hlt
      grind
  have hgo (position : Position size V) (hplain : position.Plain) : Shape q.pointers.allocated
      q.node q.pointers.IsRetired (fun t ↦ (q.pointers.threads t).position ≠ .outside)
      (q.pointers.roots .readPos) (q.pointers.roots .writePos)
      (Function.update q.nodes node { q.nodes node with
        data := Function.update (q.nodes node).data pos .taken })
      (Function.update q.positions t position) chain := by
    apply hset.setPosition
    · simp [hposition]
    · rintro pos' x heq hx
      rw [hposition] at heq
      obtain rfl := Position.popGet.inj heq
      obtain rfl := Option.some.inj (hnode.symm.trans hx)
      simp only [Function.update_self]
    · exact fun x heq ↦ by simp [heq, Position.Plain] at hplain
    · rintro x (rfl | rfl)
      · exact hplain.elim
      · exact hplain.elim
    · exact .inr (.inl (not_not.mpr hout))
    · exact fun value next heq ↦ by simp [heq, Position.Plain] at hplain
    · exact fun heq ↦ by simp [heq, Position.Plain] at hplain
    · exact fun next heq ↦ by simp [heq, Position.Plain] at hplain
  have hcount (v) : (q.setNode node { q.nodes node with
        data := Function.update (q.nodes node).data pos .taken }).stored v +
      ((q.nodes node).data pos).toList.count v = q.stored v := by
    have hstored := stored_setNode h.pointers.nodup hallocated { q.nodes node with
      data := Function.update (q.nodes node).data pos .taken } v
    have hnode := Node.count_update (q.nodes node) pos .taken v
    have htaken : (OneValue.taken : OneValue V).toList.count v = 0 := rfl
    dsimp only at hstored hnode ⊢
    omega
  have hhand (position : Position size V) (v) := inHand_setPosition q t position v
  have hbalance := h.balanced
  cases hdata : (q.nodes node).data pos with
  | value value =>
    refine ⟨h.pointers, ⟨chain, hgo .leave trivial⟩, fun v ↦ ?_⟩
    have hcount := hcount v
    have hhand := hhand .leave v
    have hbalance := hbalance v
    rw [hposition] at hhand
    rw [hdata] at hcount
    simp only [stored, inHand, setPosition, setNode, Position.hand, OneValue.toList, List.count_nil,
      List.count_append] at hbalance hcount hhand ⊢
    omega
  | _ =>
    refine ⟨h.pointers, ⟨chain, hgo .popStart trivial⟩, fun v ↦ ?_⟩
    have hcount := hcount v
    have hhand := hhand .popStart v
    have hbalance := hbalance v
    rw [hposition] at hhand
    rw [hdata] at hcount
    simp only [stored, inHand, setPosition, setNode, Position.hand, OneValue.toList, List.count_nil]
      at hbalance hcount hhand ⊢
    omega

theorem sound_advance (h : q.Holds) (hout : (q.pointers.threads t).position = .outside)
    (hmeets : q.Meets (.next t)) : Sound (q.advance t) := by
  cases hposition : q.positions t
  case pushFetch value => exact sound_pushFetch h hposition hout
  case pushNext value => exact sound_pushNext h hposition hout
  case pushLink newNode => exact sound_pushLink h hposition
  case pushAdvance value next => exact sound_pushAdvance h hposition hout
  case pushSet value pos => exact sound_pushSet h hposition hout
  case popFetch => exact sound_popFetch h hposition hout
  case popNext => exact sound_popNext h hposition hout
  case popAdvance next => exact sound_popAdvance h hposition hout hmeets
  case popGet pos => exact sound_popGet h hposition hout
  all_goals
    unfold advance
    rw [hposition]
    dsimp only
  case outside => exact sound_disabled
  case pushNew value => exact sound_disabled
  case pushStart value =>
    have hq : (q.setPosition t (.pushFetch value)).Holds :=
      h.goOn hposition hout trivial trivial rfl
    have hself : (q.setPosition t (.pushFetch value)).positions t = .pushFetch value :=
      Function.update_self ..
    exact sound_protect hq (by simp [hself, Position.Waits]) (by simp [hself, Position.Uses]) _
  case popStart =>
    have hq : (q.setPosition t .popWrite).Holds := h.goOn hposition hout trivial trivial rfl
    have hself : (q.setPosition t .popWrite).positions t = .popWrite := Function.update_self ..
    exact sound_protect hq (by simp [hself, Position.Waits]) (by simp [hself, Position.Uses]) _
  case popWrite =>
    exact sound_access h fun node _ _ ↦ h.goOn hposition hout trivial trivial rfl
  case popRead writePos =>
    refine sound_access h fun node _ _ ↦ ?_
    split_ifs
    · exact h.goOn hposition hout trivial trivial rfl
    · exact h.goOn hposition hout trivial trivial rfl
  case popCheck =>
    refine sound_access h fun node _ _ ↦ ?_
    split_ifs
    · exact h.goOn hposition hout trivial trivial rfl
    · exact h.goOn hposition hout trivial trivial rfl
  case popClear node =>
    have hq : (q.setPosition t (.popRetire node)).Holds := by
      apply h.setPosition
      all_goals simp [hposition, hout, Position.Leaves, Position.hand]
    have hself : (q.setPosition t (.popRetire node)).positions t = .popRetire node :=
      Function.update_self ..
    exact sound_clear hq (by simp [hself, Position.Uses])
  case popRetire node => exact sound_retire h hposition
  case leave =>
    have hq : (q.setPosition t .outside).Holds := h.goOn hposition hout trivial trivial rfl
    have hself : (q.setPosition t .outside).positions t = .outside := Function.update_self ..
    exact sound_clear hq (by simp [hself, Position.Uses])

omit [NeZero size] [DecidableEq V] in
theorem position_of_isIdle (hidle : q.isIdle t) : q.positions t = .outside ∧
    (q.pointers.threads t).position = .outside := by
  unfold isIdle at hidle
  split at hidle
  · next hposition hout => exact ⟨hposition, hout⟩
  · cases hidle

theorem sound_step (h : q.Holds) {x : Step n V} (hmeets : q.Meets x) : Sound (q.step x) := by
  cases x with
  | push t value =>
    rw [step]
    split_ifs with hidle
    · obtain ⟨hposition, hout⟩ := position_of_isIdle hidle
      obtain ⟨chain, hshape⟩ := h.shaped
      refine Holds.sound ⟨h.pointers, ⟨chain, hshape.setPosition _ (by simp [hposition])
        (by simp [hposition]) nofun (by simp [Position.Leaves]) (.inr (.inl (not_not.mpr hout)))
        nofun nofun nofun⟩, fun v ↦ ?_⟩
      have hbalance := h.balanced v
      have hcount := inHand_setPosition q t (.pushStart value) v
      rw [hposition] at hcount
      simp only [stored, inHand, setPosition, Position.hand, List.count_nil, List.count_append]
        at hbalance hcount ⊢
      omega
    · exact sound_disabled
  | tryPop t =>
    rw [step]
    split_ifs with hidle
    · obtain ⟨hposition, hout⟩ := position_of_isIdle hidle
      have hq : (q.setPosition t .popStart).Holds := h.goOn hposition hout trivial trivial rfl
      exact hq.sound
    · exact sound_disabled
  | gc t =>
    rw [step]
    split_ifs with hidle
    · exact sound_gc h (position_of_isIdle hidle).1
    · exact sound_disabled
  | newNode t node =>
    rw [step]
    split
    · next value hposition => exact sound_newNode h hposition node
    · exact sound_disabled
  | next t =>
    rw [step]
    split
    · next hout => exact sound_advance h hout hmeets
    · next hbusy => exact sound_pointNext h hbusy

theorem sound_meetStep (h : q.Holds) (x : Step n V) : Sound (q.meetStep x) := by
  unfold meetStep
  split_ifs with hmeets
  · exact sound_step h hmeets
  · exact sound_disabled

/-! ## Runs -/

theorem holds_init : (init n size V).Holds where
  pointers :=
    { fits := fun t ↦ by constructor <;> simp [init]
      scanned := fun t ↦ by simp [init, HazardPointers.ThreadData.Scanned]
      once := fun x ↦ by simp [init, HazardPointers.State.retiredCount, total]
      roots := fun r x h ↦ by
        obtain rfl := Option.some.inj h
        exact List.mem_singleton_self 0
      nodup := List.nodup_singleton 0 }
  shaped := by
    refine ⟨[0], ?_⟩
    constructor
    case linked => exact .cons .nil
    case nodup => exact List.nodup_singleton 0
    case writer => exact ⟨0, List.mem_singleton_self 0, rfl⟩
    case live =>
      intro x hx
      refine ⟨hx, ?_, by simp [init]⟩
      rintro ⟨t, ht⟩
      exact (List.not_mem_nil ht).elim
    case done => exact fun x hx hnot ↦ absurd hx hnot
    case leaving => exact fun t x hleave ↦ by rcases hleave with heq | heq <;> cases heq
    case waits => exact fun t _ ↦ trivial
    case taken => exact fun x _ pos hlt ↦ absurd hlt (Nat.not_lt_zero _)
    case holders => simp [init, node]
    all_goals simp [init]
  balanced v := by
    simp [init, stored, inHand, Position.hand, Node.count, OneValue.toList, total]

/-- A thread uses no node that is deleted, and each value of a call of `push` is got once, or is in
a node that the readers have not passed. -/
structure Keeps (q : Queue n size V) : Prop where
  allocated : ∀ t x, q.node t = some x → x ∈ q.pointers.allocated
  balanced : q.Balanced
  idle : (∀ t, q.positions t = .outside) → ∃ chain,
    Linked (fun x ↦ (q.nodes x).next) (q.pointers.roots .readPos) chain ∧
      (∀ x ∈ chain, x ∈ q.pointers.allocated) ∧
      ∀ v, q.pushed.count v = q.popped.count v + (chain.map fun x ↦ (q.nodes x).count v).sum

/-- If nobody is in a call, the values are in the nodes that the readers have not passed. -/
theorem stored_eq_sum (h : q.Holds) (hidle : ∀ t, q.positions t = .outside) {chain : List ℕ}
    (hshape : q.Shaped chain) (v : V) :
    q.stored v = (chain.map fun x ↦ (q.nodes x).count v).sum := by
  rw [stored, ← List.sum_toFinset _ h.pointers.nodup, ← List.sum_toFinset _ hshape.nodup]
  symm
  apply Finset.sum_subset
  · intro x hx
    exact List.mem_toFinset.mpr (hshape.live x (List.mem_toFinset.mp hx)).1
  · intro x hx hchain
    rw [List.mem_toFinset] at hx hchain
    have hpassed := (hshape.done x hx hchain fun t ↦ by simp [hidle t]).2
    refine Node.count_eq_zero (fun pos ↦ ?_) v
    refine (hshape.taken x hx pos (pos.isLt.trans_le hpassed)).resolve_right ?_
    rintro ⟨t, -, hget⟩
    exact absurd ((hidle t).symm.trans hget) nofun

theorem Holds.keeps (h : q.Holds) : q.Keeps where
  allocated t x hx := ((h.pointers.fits t).held 0 x hx).2
  balanced := h.balanced
  idle hidle := by
    obtain ⟨chain, hshape⟩ := h.shaped
    refine ⟨chain, hshape.linked, fun x hx ↦ (hshape.live x hx).1, fun v ↦ ?_⟩
    have hbalance := h.balanced v
    have hhand : q.inHand v = 0 := by simp [inHand, hidle, Position.hand, total]
    rw [stored_eq_sum h hidle hshape] at hbalance
    omega

/-- However the threads take turns, if the readers do not leave a node before the writers do, no
value is lost or got twice, and no node is used that is deleted. -/
theorem run_keeps (xs : List (Step n V)) :
    (∀ q, xs.foldlM meetStep (init n size V) = .ok q → q.Keeps) ∧
      xs.foldlM meetStep (init n size V) ≠ .error .useAfterDelete := by
  have hruns : (∀ q, xs.foldlM meetStep (init n size V) = .ok q → q.Holds) ∧
      ∀ e, xs.foldlM meetStep (init n size V) = .error e → e ≠ .useAfterDelete :=
    foldlM_except (fun hq hstep ↦ (sound_meetStep hq _).1 _ hstep)
      (fun hq hstep heq ↦ (sound_meetStep hq _).2 (hstep.trans (congrArg _ heq))) holds_init
  exact ⟨fun q hq ↦ (hruns.1 q hq).keeps, fun herror ↦ hruns.2 _ herror rfl⟩

/-- Two values, in two nodes, are got, and the first node is deleted. -/
def keepSteps (t t' t'' : Fin n) : List (Step n ℕ) :=
  [.push t 10, .next t, .next t, .next t, .next t, .next t, .next t, .next t, .push t' 20,
    .next t', .next t', .next t', .next t', .next t', .next t', .newNode t' 1, .next t', .next t',
    .next t', .tryPop t'', .next t'', .next t'', .next t'', .next t'', .next t'', .next t'',
    .next t'', .next t'', .next t'', .tryPop t'', .next t'', .next t'', .next t'', .next t'',
    .next t'', .next t'', .next t'', .next t'', .next t'', .next t'', .next t'', .next t'',
    .next t'', .next t'', .next t'', .next t'', .next t'', .next t'', .next t'', .next t'',
    .next t'', .next t'', .next t'', .next t'']

theorem run_keeps_two : (∃ q, (keepSteps 0 1 2).foldlM meetStep (init 3 1 ℕ) = .ok q ∧
      q.popped = [10, 20] ∧ q.pointers.allocated = [1] ∧ q.Keeps) ∧
    (keepSteps 0 1 2).foldlM meetStep (init 3 1 ℕ) ≠ .error .useAfterDelete := by
  obtain ⟨hok, herror⟩ := @run_keeps 3 1 ℕ _ _ (keepSteps 0 1 2)
  have hrun : (keepSteps 0 1 2).foldlM meetStep (init 3 1 ℕ) = .ok _ := rfl
  exact ⟨⟨_, hrun, rfl, rfl, hok _ hrun⟩, herror⟩

/-- A reader retires a node that `write_pos_` still points to, and has looked at the hazard pointer
of a writer before the writer stores it. -/
def raceSteps (t t' t'' : Fin n) : List (Step n ℕ) :=
  [.push t 10, .next t, .next t, .next t, .next t, .next t, .next t, .next t, .push t' 20,
    .next t', .next t', .next t', .next t', .next t', .next t', .newNode t' 1, .next t',
    .tryPop t'', .next t'', .next t'', .next t'', .next t'', .next t'', .next t'', .next t'',
    .next t'', .next t'', .tryPop t'', .next t'', .next t'', .next t'', .next t'', .next t'',
    .next t'', .next t'', .next t'', .next t'', .next t'', .next t'', .next t'', .push t 30,
    .next t, .next t, .next t, .next t, .next t', .next t', .next t'', .next t'', .next t'',
    .next t]

theorem exists_useAfterDelete :
    (raceSteps 0 1 2).foldlM step (init 3 1 ℕ) = .error .useAfterDelete := rfl

end Queue

end PxcCore.MpmcQueue
