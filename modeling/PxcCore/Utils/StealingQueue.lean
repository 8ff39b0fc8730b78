import PxcCore.Lib.Families
import PxcCore.Lib.RingBuffer
import PxcCore.Lib.Traces

/-!
# StealingQueue

`StealingQueue` of `StealingQueue.h`: each thread has a queue of its own, where only it puts values;
it takes them out at the other end, as the other threads do that steal the values of half a queue.
Each access to `head_`, `tail_` or an element of `buf_` is a step of its own.
-/

namespace PxcCore.StealingQueue

open PxcCore.Lib

/-! ## Definitions -/

/-- Where a thread is: in no call, or before an access.  `push` is the access in `local_push`, `pop`
the one in `local_pop`; the numbers are the local variables. -/
inductive Position (m : ℕ) (V : Type) where
  | idle
  | pushTail (value : V)
  | pushHead (value : V) (tail : ℕ)
  | pushBuf (value : V) (tail : ℕ)
  | pushStore (value : V) (tail : ℕ)
  | pushFull (value : V) (head : ℕ)
  | overflow (value : V) (head i : ℕ)
  | popTail
  | popHead (tail : ℕ)
  | popBuf (head : ℕ)
  | popTake (value : V) (head : ℕ)
  | stealTail (other : Fin m)
  | stealHead (other : Fin m) (tail : ℕ)
  | stealOtherHead (other : Fin m) (tail head : ℕ)
  | stealOtherTail (other : Fin m) (tail head otherHead : ℕ)
  | stealLoad (other : Fin m) (tail otherHead n i : ℕ)
  | stealSave (other : Fin m) (tail otherHead n i : ℕ) (value : V)
  | stealTake (other : Fin m) (tail otherHead n : ℕ)
  | stealBuf (tail n : ℕ)
  | stealStore (tail n : ℕ) (value : V)
  deriving DecidableEq, Repr

/-- `StealingQueue`, with the values that have come into the queue and those that have left it. -/
structure Queue (V : Type) where
  head : ℕ := 0
  tail : ℕ := 0
  buf : ℕ → V
  entered : List V := []
  left : List V := []

/-- The queues of the threads, with the values of all calls of `local_push`, and those that
`local_pop` and `steal` have returned or `overflow_f` has got. -/
structure State (m : ℕ) (V : Type) where
  queues : Fin m → Queue V
  positions : Fin m → Position m V := fun _ ↦ .idle
  pushed : List V := []
  taken : List V := []

/-- `next` is the next access of a call. -/
inductive Step (m : ℕ) (V : Type) where
  | localPush (t : Fin m) (value : V)
  | localPop (t : Fin m)
  | steal (t other : Fin m)
  | next (t : Fin m)
  deriving DecidableEq, Repr

/-- The slot of an index, with `MASK`. -/
def slot (p i : ℕ) : ℕ := i &&& (2 ^ p - 1)

/-- How many values go to `overflow_f` from a queue that is full. -/
def overflowSize (p : ℕ) : ℕ := 2 ^ p / 2 + 1

namespace Queue

variable {V : Type}

/-- The store of an element of `buf_`. -/
def write (p : ℕ) (q : Queue V) (i : ℕ) (value : V) : Queue V :=
  { q with buf := Function.update q.buf (slot p i) value }

/-- The store of `tail_`, with which these values come into the queue. -/
def storeTail (q : Queue V) (tail : ℕ) (values : List V) : Queue V :=
  { q with tail := tail, entered := q.entered ++ values }

/-- The exchange of `head_`, with which these values leave the queue. -/
def storeHead (q : Queue V) (head : ℕ) (values : List V) : Queue V :=
  { q with head := head, left := q.left ++ values }

end Queue

namespace State

variable {m : ℕ} {V : Type}

/-- The constructor, for each thread. -/
def init (m : ℕ) (V : Type) [Inhabited V] : State m V :=
  { queues := fun _ ↦ { buf := fun _ ↦ default } }

def setPosition (st : State m V) (t : Fin m) (position : Position m V) : State m V :=
  { st with positions := Function.update st.positions t position }

def setQueue (st : State m V) (t : Fin m) (q : Queue V) : State m V :=
  { st with queues := Function.update st.queues t q }

/-- The next access of the thread; a queue has `2 ^ p` slots. -/
def advance (p : ℕ) (st : State m V) (t : Fin m) : Option (State m V) :=
  let q := st.queues t
  match st.positions t with
  | .idle => none
  | .pushTail value => st.setPosition t (.pushHead value q.tail)
  | .pushHead value tail =>
    st.setPosition t (if tail - q.head < 2 ^ p then .pushBuf value tail else .pushFull value q.head)
  | .pushBuf value tail =>
    (st.setQueue t (q.write p tail value)).setPosition t (.pushStore value tail)
  | .pushStore value tail =>
    (st.setQueue t (q.storeTail (tail + 1) [value])).setPosition t .idle
  | .pushFull value head =>
    if q.head = head then
      (st.setQueue t (q.storeHead (head + overflowSize p)
        (ringSlice (2 ^ p) q.buf head (overflowSize p)))).setPosition t (.overflow value head 0)
    else st.setPosition t (.pushTail value)
  | .overflow value head i =>
    if i < overflowSize p then
      { st with taken := st.taken ++ [q.buf (slot p (i + head))] }.setPosition t
        (.overflow value head (i + 1))
    else { st with taken := st.taken ++ [value] }.setPosition t .idle
  | .popTail => st.setPosition t (.popHead q.tail)
  | .popHead tail => st.setPosition t (if q.head = tail then .idle else .popBuf q.head)
  | .popBuf head => st.setPosition t (.popTake (q.buf (slot p head)) head)
  | .popTake value head =>
    if q.head = head then
      { st.setQueue t (q.storeHead (head + 1) [value]) with
        taken := st.taken ++ [value] }.setPosition t .idle
    else st.setPosition t .idle
  | .stealTail other => st.setPosition t (.stealHead other q.tail)
  | .stealHead other tail => st.setPosition t (.stealOtherHead other tail q.head)
  | .stealOtherHead other tail head =>
    st.setPosition t (.stealOtherTail other tail head (st.queues other).head)
  | .stealOtherTail other tail head otherHead =>
    let otherTail := (st.queues other).tail
    if otherTail < otherHead ∨ 2 ^ p < otherTail - otherHead then
      st.setPosition t (.stealTail other)
    else
      let size := otherTail - otherHead
      let n := min (size - size / 2) (head + 2 ^ p - tail)
      st.setPosition t (if n = 0 then .idle else .stealLoad other tail otherHead n 0)
  | .stealLoad other tail otherHead n i =>
    st.setPosition t
      (.stealSave other tail otherHead n i ((st.queues other).buf (slot p (i + otherHead))))
  | .stealSave other tail otherHead n i value =>
    (st.setQueue t (q.write p (i + tail) value)).setPosition t
      (if i + 1 < n then .stealLoad other tail otherHead n (i + 1)
        else .stealTake other tail otherHead n)
  | .stealTake other tail otherHead n =>
    if (st.queues other).head = otherHead then
      (st.setQueue other ((st.queues other).storeHead (otherHead + n)
        (ringSlice (2 ^ p) q.buf tail n))).setPosition t (.stealBuf tail (n - 1))
    else st.setPosition t (.stealTail other)
  | .stealBuf tail n => st.setPosition t (.stealStore tail n (q.buf (slot p (tail + n))))
  | .stealStore tail n value =>
    { st.setQueue t (q.storeTail (tail + n) (ringSlice (2 ^ p) q.buf tail n)) with
      taken := st.taken ++ [value] }.setPosition t .idle

def isIdle (st : State m V) (t : Fin m) : Bool :=
  match st.positions t with
  | .idle => true
  | _ => false

def step (p : ℕ) (st : State m V) : Step m V → Option (State m V)
  | .localPush t value =>
    if st.isIdle t then
      some ({ st with pushed := st.pushed ++ [value] }.setPosition t (.pushTail value))
    else none
  | .localPop t => if st.isIdle t then some (st.setPosition t .popTail) else none
  | .steal t other =>
    if st.isIdle t ∧ t ≠ other then some (st.setPosition t (.stealTail other)) else none
  | .next t => st.advance p t

end State

variable {m p : ℕ} {V : Type}

theorem slot_eq (p i : ℕ) : slot p i = i % 2 ^ p := Nat.and_two_pow_sub_one_eq_mod i p

theorem overflowSize_le (p : ℕ) : overflowSize p ≤ 2 ^ p := by
  have hpos := Nat.two_pow_pos p
  unfold overflowSize
  omega

/-! ## Queues -/

namespace Queue

/-- The values in the queue. -/
def contents (p : ℕ) (q : Queue V) : List V := ringSlice (2 ^ p) q.buf q.head (q.tail - q.head)

/-- A queue is not larger than its buffer, and values leave it in the order in which they come. -/
structure Holds (p : ℕ) (q : Queue V) : Prop where
  le : q.head ≤ q.tail
  size : q.tail ≤ q.head + 2 ^ p
  order : q.entered = q.left ++ q.contents p

/-- What a queue may become: values leave it, and others come, but the ones that stay do not
change. -/
structure Later (p : ℕ) (q q' : Queue V) : Prop where
  head : q.head ≤ q'.head
  tail : q.tail ≤ q'.tail
  buf : q'.head = q.head → ∀ i, q.head ≤ i → i < q.tail → q'.buf (i % 2 ^ p) = q.buf (i % 2 ^ p)

/-- What the other threads may do to a queue. -/
structure Robbed (q q' : Queue V) : Prop where
  head : q.head ≤ q'.head
  tail : q'.tail = q.tail
  buf : q'.buf = q.buf

variable {q q' : Queue V}

theorem Later.refl (q : Queue V) : q.Later p q := ⟨le_rfl, le_rfl, fun _ _ _ _ ↦ rfl⟩

theorem Robbed.refl (q : Queue V) : q.Robbed q := ⟨le_rfl, rfl, rfl⟩

theorem Robbed.later (h : q.Robbed q') : q.Later p q' :=
  ⟨h.head, h.tail.ge, fun _ _ _ _ ↦ by rw [h.buf]⟩

@[simp] theorem contents_write (h : q.Holds p) {i : ℕ} (hle : q.tail ≤ i)
    (hlt : i < q.head + 2 ^ p) (value : V) : (q.write p i value).contents p = q.contents p := by
  have hle' := h.le
  unfold contents write
  rw [slot_eq]
  exact ringSlice_update (by dsimp only; omega) hlt

theorem contents_storeTail (h : q.Holds p) (n : ℕ) (values : List V) :
    (q.storeTail (q.tail + n) values).contents p =
      q.contents p ++ ringSlice (2 ^ p) q.buf q.tail n := by
  have hle := h.le
  have hsize : q.tail + n - q.head = (q.tail - q.head) + n := by omega
  unfold contents storeTail
  dsimp only
  rw [hsize, ringSlice_add, Nat.add_sub_cancel' hle]

theorem contents_storeHead {n : ℕ} (hn : q.head + n ≤ q.tail) (values : List V) :
    q.contents p = ringSlice (2 ^ p) q.buf q.head n ++
      (q.storeHead (q.head + n) values).contents p := by
  have hsize : q.tail - q.head = n + (q.tail - (q.head + n)) := by omega
  unfold contents storeHead
  dsimp only
  rw [← ringSlice_add, ← hsize]

/-- A value is written at a free position. -/
theorem holds_write (h : q.Holds p) {i : ℕ} (hle : q.tail ≤ i) (hlt : i < q.head + 2 ^ p)
    (value : V) : (q.write p i value).Holds p where
  le := h.le
  size := h.size
  order := by
    rw [contents_write h hle hlt]
    exact h.order

theorem later_write {i : ℕ} (hle : q.tail ≤ i) (hlt : i < q.head + 2 ^ p) (value : V) :
    q.Later p (q.write p i value) where
  head := le_rfl
  tail := le_rfl
  buf _ j hj hj' := by
    unfold write
    rw [slot_eq]
    exact update_of_free hj (by omega) hlt

/-- The values behind the last one come into the queue. -/
theorem holds_storeTail (h : q.Holds p) {n : ℕ} (hn : q.tail + n ≤ q.head + 2 ^ p) :
    (q.storeTail (q.tail + n) (ringSlice (2 ^ p) q.buf q.tail n)).Holds p where
  le := h.le.trans (Nat.le_add_right ..)
  size := hn
  order := by
    rw [contents_storeTail h]
    unfold storeTail
    dsimp only
    rw [h.order, List.append_assoc]

theorem later_storeTail (n : ℕ) (values : List V) :
    q.Later p (q.storeTail (q.tail + n) values) :=
  ⟨le_rfl, Nat.le_add_right .., fun _ _ _ _ ↦ rfl⟩

/-- The first values leave the queue. -/
theorem holds_storeHead (h : q.Holds p) {n : ℕ} (hn : q.head + n ≤ q.tail) :
    (q.storeHead (q.head + n) (ringSlice (2 ^ p) q.buf q.head n)).Holds p where
  le := hn
  size := h.size.trans (by unfold storeHead; dsimp only; omega)
  order := by
    have horder := h.order
    rw [contents_storeHead hn (ringSlice (2 ^ p) q.buf q.head n), ← List.append_assoc] at horder
    exact horder

theorem robbed_storeHead (n : ℕ) (values : List V) :
    q.Robbed (q.storeHead (q.head + n) values) := ⟨Nat.le_add_right .., rfl, rfl⟩

end Queue

/-! ## Threads -/

/-- What a thread has copied from the queue of another one, as long as the values are there. -/
structure Copies (p : ℕ) (own other : Queue V) (tail otherHead n i : ℕ) : Prop where
  start : own.tail = tail
  le : i ≤ n
  room : tail + n ≤ own.head + 2 ^ p
  seen : otherHead ≤ other.head
  stop : otherHead + n ≤ other.tail
  same : other.head = otherHead → ∀ j < i,
    own.buf ((tail + j) % 2 ^ p) = other.buf ((otherHead + j) % 2 ^ p)

/-- What a thread knows, at each access. -/
def Fits (p : ℕ) (queues : Fin m → Queue V) (t : Fin m) : Position m V → Prop
  | .idle | .pushTail _ | .popTail => True
  | .pushHead _ tail | .popHead tail => (queues t).tail = tail
  | .pushBuf _ tail => (queues t).tail = tail ∧ tail < (queues t).head + 2 ^ p
  | .pushStore value tail =>
    (queues t).tail = tail ∧ tail < (queues t).head + 2 ^ p ∧
      (queues t).buf (tail % 2 ^ p) = value
  | .pushFull _ head => head + 2 ^ p ≤ (queues t).tail
  | .overflow _ _ i => i ≤ overflowSize p
  | .popBuf head => head < (queues t).tail
  | .popTake value head => head < (queues t).tail ∧ (queues t).buf (head % 2 ^ p) = value
  | .stealTail other => t ≠ other
  | .stealHead other tail => t ≠ other ∧ (queues t).tail = tail
  | .stealOtherHead other tail head =>
    t ≠ other ∧ (queues t).tail = tail ∧ head ≤ (queues t).head
  | .stealOtherTail other tail head otherHead =>
    t ≠ other ∧ (queues t).tail = tail ∧ head ≤ (queues t).head ∧ otherHead ≤ (queues other).head
  | .stealLoad other tail otherHead n i =>
    t ≠ other ∧ i < n ∧ Copies p (queues t) (queues other) tail otherHead n i
  | .stealSave other tail otherHead n i value =>
    t ≠ other ∧ i < n ∧ Copies p (queues t) (queues other) tail otherHead n i ∧
      ((queues other).head = otherHead →
        value = (queues other).buf ((otherHead + i) % 2 ^ p))
  | .stealTake other tail otherHead n =>
    t ≠ other ∧ 0 < n ∧ Copies p (queues t) (queues other) tail otherHead n n
  | .stealBuf tail n | .stealStore tail n _ =>
    (queues t).tail = tail ∧ tail + n ≤ (queues t).head + 2 ^ p

variable {queues queues' : Fin m → Queue V} {t : Fin m} {position : Position m V}

theorem Copies.mono {own own' other other' : Queue V} {tail otherHead n i : ℕ}
    (h : Copies p own other tail otherHead n i) (hown : own.Robbed own')
    (hother : other.Later p other') : Copies p own' other' tail otherHead n i where
  start := hown.tail.trans h.start
  le := h.le
  room := h.room.trans (Nat.add_le_add_right hown.head _)
  seen := h.seen.trans hother.head
  stop := h.stop.trans hother.tail
  same heq j hj := by
    have hhead : other.head = otherHead := le_antisymm (heq ▸ hother.head) h.seen
    have hle := h.le
    have hstop := h.stop
    rw [hown.buf, hother.buf (heq.trans hhead.symm) _ (by omega) (by omega)]
    exact h.same hhead j hj

/-- What the other threads do does not matter. -/
theorem Fits.mono (h : Fits p queues t position) (hown : (queues t).Robbed (queues' t))
    (hothers : ∀ u, t ≠ u → (queues u).Later p (queues' u)) : Fits p queues' t position := by
  have hhead := hown.head
  cases position
  case idle | pushTail | popTail => trivial
  case pushHead | popHead => exact hown.tail.trans h
  case pushBuf => exact ⟨hown.tail.trans h.1, h.2.trans_le (Nat.add_le_add_right hhead _)⟩
  case pushStore =>
    exact ⟨hown.tail.trans h.1, h.2.1.trans_le (Nat.add_le_add_right hhead _), by
      rw [hown.buf, h.2.2]⟩
  case pushFull => exact h.trans hown.tail.ge
  case overflow => exact h
  case popBuf => exact h.trans_le hown.tail.ge
  case popTake => exact ⟨h.1.trans_le hown.tail.ge, by rw [hown.buf, h.2]⟩
  case stealTail => exact h
  case stealHead => exact ⟨h.1, hown.tail.trans h.2⟩
  case stealOtherHead => exact ⟨h.1, hown.tail.trans h.2.1, h.2.2.trans hhead⟩
  case stealOtherTail other _ _ _ =>
    exact ⟨h.1, hown.tail.trans h.2.1, h.2.2.1.trans hhead, h.2.2.2.trans (hothers other h.1).head⟩
  case stealLoad other _ _ _ _ => exact ⟨h.1, h.2.1, h.2.2.mono hown (hothers other h.1)⟩
  case stealSave other tail otherHead n i value =>
    obtain ⟨hne, hlt, hcopies, hvalue⟩ := h
    refine ⟨hne, hlt, hcopies.mono hown (hothers other hne), fun heq ↦ ?_⟩
    have hlater := hothers other hne
    have hhead' : (queues other).head = otherHead :=
      le_antisymm (heq ▸ hlater.head) hcopies.seen
    have hstop := hcopies.stop
    rw [hlater.buf (heq.trans hhead'.symm) _ (by omega) (by omega)]
    exact hvalue hhead'
  case stealTake other _ _ _ => exact ⟨h.1, h.2.1, h.2.2.mono hown (hothers other h.1)⟩
  case stealBuf | stealStore =>
    exact ⟨hown.tail.trans h.1, h.2.trans (Nat.add_le_add_right hhead _)⟩

/-- One more value is copied. -/
theorem Copies.save {own other : Queue V} {tail otherHead n i : ℕ} {value : V}
    (h : Copies p own other tail otherHead n i) (hown : own.head ≤ own.tail) (hlt : i < n)
    (hvalue : other.head = otherHead → value = other.buf ((otherHead + i) % 2 ^ p)) :
    Copies p (own.write p (i + tail) value) other tail otherHead n (i + 1) where
  start := h.start
  le := hlt
  room := h.room
  seen := h.seen
  stop := h.stop
  same heq j hj := by
    have hstart := h.start
    have hroom := h.room
    unfold Queue.write
    rw [slot_eq, Nat.add_comm i]
    rcases Nat.lt_succ_iff_lt_or_eq.mp hj with hj | rfl
    · exact (update_of_free (le_refl (tail + j)) (by omega) (by omega)).trans (h.same heq j hj)
    · exact (Function.update_self ..).trans (hvalue heq)

/-- All values are copied. -/
theorem Copies.ringSlice_eq {own other : Queue V} {tail otherHead n : ℕ}
    (h : Copies p own other tail otherHead n n) (heq : other.head = otherHead) :
    ringSlice (2 ^ p) own.buf tail n = ringSlice (2 ^ p) other.buf otherHead n := by
  rw [ringSlice, ringSlice, List.range'_eq_map_range, List.range'_eq_map_range, List.map_map,
    List.map_map]
  apply List.map_congr_left
  intro j hj
  exact h.same heq j (List.mem_range.mp hj)

/-- The values that a thread has in its hands: one that it is about to put into its queue, those
that leave a queue that is full, and those that it has stolen. -/
def Position.hand (p : ℕ) (buf : ℕ → V) : Position m V → List V
  | .pushTail value | .pushHead value _ | .pushBuf value _ | .pushStore value _
  | .pushFull value _ => [value]
  | .overflow value head i => ringSlice (2 ^ p) buf (head + i) (overflowSize p - i) ++ [value]
  | .stealBuf tail n => ringSlice (2 ^ p) buf tail (n + 1)
  | .stealStore tail n value => ringSlice (2 ^ p) buf tail n ++ [value]
  | _ => []

namespace State

variable [DecidableEq V] {st : State m V} {q : Queue V} {v : V}

/-- How often the value is in a queue. -/
def stored (p : ℕ) (st : State m V) (v : V) : ℕ :=
  (total fun t ↦ (st.queues t).contents p).count v

/-- How often the value is in the hands of a thread. -/
def inHand (p : ℕ) (st : State m V) (v : V) : ℕ :=
  (total fun t ↦ (st.positions t).hand p (st.queues t).buf).count v

structure Holds (p : ℕ) (st : State m V) : Prop where
  queues : ∀ t, (st.queues t).Holds p
  fits : ∀ t, Fits p st.queues t (st.positions t)
  balanced : ∀ v, st.pushed.count v = st.taken.count v + st.stored p v + st.inHand p v

theorem stored_setQueue (st : State m V) (t : Fin m) (q : Queue V) (v : V) :
    (st.setQueue t q).stored p v + ((st.queues t).contents p).count v =
      st.stored p v + (q.contents p).count v := by
  have hcount := count_total_update (Queue.contents p ∘ st.queues) t (q.contents p) v
  rw [← Function.comp_update] at hcount
  exact hcount

theorem inHand_set (st : State m V) (t : Fin m) (q : Queue V) (position : Position m V) (v : V) :
    ((st.setQueue t q).setPosition t position).inHand p v +
        ((st.positions t).hand p (st.queues t).buf).count v =
      st.inHand p v + (position.hand p q.buf).count v := by
  have hcount := count_total_update (fun u ↦ (st.positions u).hand p (st.queues u).buf) t
    (position.hand p q.buf) v
  rw [show Function.update _ t _ = fun u ↦ (Function.update st.positions t position u).hand p
    (Function.update st.queues t q u).buf from ?_] at hcount
  · exact hcount
  · funext u
    rcases eq_or_ne u t with rfl | hne
    · simp only [Function.update_self]
    · simp only [Function.update_of_ne hne]

theorem inHand_setPosition (st : State m V) (t : Fin m) (position : Position m V) (v : V) :
    (st.setPosition t position).inHand p v + ((st.positions t).hand p (st.queues t).buf).count v =
      st.inHand p v + (position.hand p (st.queues t).buf).count v := by
  have hcount := inHand_set (p := p) st t (st.queues t) position v
  rwa [setQueue, Function.update_eq_self] at hcount

/-- Values leave a queue, but stay in the buffer. -/
theorem inHand_setQueue (hbuf : q.buf = (st.queues t).buf) :
    (st.setQueue t q).inHand p v = st.inHand p v := by
  unfold inHand setQueue
  congr 2
  funext u
  rcases eq_or_ne u t with rfl | hne
  · simp only [Function.update_self, hbuf]
  · simp only [Function.update_of_ne hne]

/-- A thread goes on, and takes values from the queues of the others at most. -/
theorem Holds.change {st' : State m V} (h : st.Holds p) {position : Position m V}
    (hpositions : st'.positions = Function.update st.positions t position)
    (hqueues : ∀ u, (st'.queues u).Holds p) (hlater : ∀ u, (st.queues u).Later p (st'.queues u))
    (hrobbed : ∀ u, u ≠ t → (st.queues u).Robbed (st'.queues u))
    (hfits : Fits p st'.queues t position)
    (hbalanced : ∀ v, st'.pushed.count v = st'.taken.count v + st'.stored p v + st'.inHand p v) :
    st'.Holds p where
  queues := hqueues
  fits u := by
    rw [hpositions]
    rcases eq_or_ne u t with rfl | hne
    · rw [Function.update_self]
      exact hfits
    · rw [Function.update_of_ne hne]
      exact (h.fits u).mono (hrobbed u hne) fun w _ ↦ hlater w
  balanced := hbalanced

theorem holds_update (h : st.Holds p) (hq : q.Holds p) (u : Fin m) :
    (Function.update st.queues t q u).Holds p := by
  rcases eq_or_ne u t with rfl | hne
  · rw [Function.update_self]
    exact hq
  · rw [Function.update_of_ne hne]
    exact h.queues u

omit [DecidableEq V] in
theorem later_update (hq : (st.queues t).Later p q) (u : Fin m) :
    (st.queues u).Later p (Function.update st.queues t q u) := by
  rcases eq_or_ne u t with rfl | hne
  · rw [Function.update_self]
    exact hq
  · rw [Function.update_of_ne hne]
    exact .refl _

/-- A thread makes an access to its own queue. -/
theorem Holds.own (h : st.Holds p) {position : Position m V} {pushed taken : List V}
    (hq : q.Holds p) (hlater : (st.queues t).Later p q)
    (hfits : Fits p (Function.update st.queues t q) t position)
    (hcount : ∀ v, pushed.count v + st.taken.count v + ((st.queues t).contents p).count v +
        ((st.positions t).hand p (st.queues t).buf).count v =
      st.pushed.count v + taken.count v + (q.contents p).count v +
        (position.hand p q.buf).count v) :
    Holds p ⟨Function.update st.queues t q, Function.update st.positions t position, pushed,
      taken⟩ := by
  refine h.change rfl (holds_update h hq) (later_update hlater) (fun u hne ↦ ?_) hfits fun v ↦ ?_
  · dsimp only
    rw [Function.update_of_ne hne]
    exact .refl _
  · have hbalance := h.balanced v
    have hstored := stored_setQueue (p := p) st t q v
    have hhand := inHand_set (p := p) st t q position v
    have hcount := hcount v
    simp only [stored, inHand, setQueue, setPosition] at hbalance hstored hhand ⊢
    omega

/-- A thread goes on without a change of a queue. -/
theorem Holds.goOn (h : st.Holds p) {position : Position m V} {pushed taken : List V}
    (hfits : Fits p st.queues t position)
    (hcount : ∀ v, pushed.count v + st.taken.count v +
        ((st.positions t).hand p (st.queues t).buf).count v =
      st.pushed.count v + taken.count v + (position.hand p (st.queues t).buf).count v) :
    Holds p ⟨st.queues, Function.update st.positions t position, pushed, taken⟩ := by
  have hown : Holds p ⟨Function.update st.queues t (st.queues t),
      Function.update st.positions t position, pushed, taken⟩ :=
    h.own (h.queues t) (.refl _) (by rwa [Function.update_eq_self]) fun v ↦ by
      have hcount := hcount v
      omega
  rwa [Function.update_eq_self] at hown

/-- A thread goes on, with the same values in its hands. -/
theorem Holds.setPosition (h : st.Holds p) {position : Position m V}
    (hfits : Fits p st.queues t position)
    (hhand : position.hand p (st.queues t).buf = (st.positions t).hand p (st.queues t).buf) :
    (st.setPosition t position).Holds p :=
  h.goOn hfits fun v ↦ by rw [hhand]

/-! ## Steps -/

theorem holds_pushHead (h : st.Holds p) {value : V} {tail : ℕ}
    (hposition : st.positions t = .pushHead value tail) :
    (st.setPosition t (if tail - (st.queues t).head < 2 ^ p then .pushBuf value tail
      else .pushFull value (st.queues t).head)).Holds p := by
  have hfits := h.fits t
  have hq := h.queues t
  rw [hposition] at hfits
  have hle := hq.le
  obtain rfl : (st.queues t).tail = tail := hfits
  split_ifs with hlt
  · exact h.setPosition ⟨rfl, by omega⟩ (by rw [hposition]; rfl)
  · refine h.setPosition ?_ (by rw [hposition]; rfl)
    change (st.queues t).head + 2 ^ p ≤ (st.queues t).tail
    omega

theorem holds_pushBuf (h : st.Holds p) {value : V} {tail : ℕ}
    (hposition : st.positions t = .pushBuf value tail) :
    ((st.setQueue t ((st.queues t).write p tail value)).setPosition t
        (.pushStore value tail)).Holds p := by
  have hfits := h.fits t
  rw [hposition] at hfits
  obtain ⟨htail, hlt⟩ := hfits
  refine h.own (Queue.holds_write (h.queues t) htail.le hlt value)
    (Queue.later_write htail.le hlt value) ?_ fun v ↦ ?_
  · simp only [Fits, Function.update_self]
    refine ⟨htail, hlt, ?_⟩
    rw [← slot_eq]
    exact Function.update_self ..
  · rw [hposition, Queue.contents_write (h.queues t) htail.le hlt]
    rfl

theorem holds_pushStore (h : st.Holds p) {value : V} {tail : ℕ}
    (hposition : st.positions t = .pushStore value tail) :
    ((st.setQueue t ((st.queues t).storeTail (tail + 1) [value])).setPosition t .idle).Holds p := by
  have hfits := h.fits t
  rw [hposition] at hfits
  obtain ⟨rfl, hlt, hvalue⟩ := hfits
  have hslice : ringSlice (2 ^ p) (st.queues t).buf (st.queues t).tail 1 = [value] := by
    rw [← hvalue]
    rfl
  have hq := Queue.holds_storeTail (h.queues t) (n := 1) hlt
  rw [hslice] at hq
  refine h.own hq (Queue.later_storeTail 1 _) trivial fun v ↦ ?_
  rw [hposition, Queue.contents_storeTail (h.queues t), hslice]
  simp only [Position.hand, List.count_append, List.count_nil, setQueue]
  omega

theorem holds_pushFull (h : st.Holds p) {value : V} {head : ℕ}
    (hposition : st.positions t = .pushFull value head) (hhead : (st.queues t).head = head) :
    ((st.setQueue t ((st.queues t).storeHead (head + overflowSize p)
      (ringSlice (2 ^ p) (st.queues t).buf head (overflowSize p)))).setPosition t
        (.overflow value head 0)).Holds p := by
  have hfits := h.fits t
  have hsize := overflowSize_le p
  rw [hposition] at hfits
  change head + 2 ^ p ≤ (st.queues t).tail at hfits
  subst hhead
  have hn : (st.queues t).head + overflowSize p ≤ (st.queues t).tail := by omega
  refine h.own (Queue.holds_storeHead (h.queues t) hn) (Queue.robbed_storeHead _ _).later
    (Nat.zero_le _) fun v ↦ ?_
  have hcontents := Queue.contents_storeHead (p := p) hn
    (ringSlice (2 ^ p) (st.queues t).buf (st.queues t).head (overflowSize p))
  rw [hposition, hcontents]
  simp only [Position.hand, List.count_append, setQueue, Queue.storeHead, Nat.add_zero,
    Nat.sub_zero]
  omega

theorem holds_overflow (h : st.Holds p) {value : V} {head i : ℕ}
    (hposition : st.positions t = .overflow value head i) :
    (if i < overflowSize p then
      { st with taken := st.taken ++ [(st.queues t).buf (slot p (i + head))] }.setPosition t
        (.overflow value head (i + 1))
    else { st with taken := st.taken ++ [value] }.setPosition t .idle).Holds p := by
  have hfits := h.fits t
  rw [hposition] at hfits
  change i ≤ overflowSize p at hfits
  split_ifs with hlt
  · refine h.goOn hlt fun v ↦ ?_
    have hsize : overflowSize p - i = (overflowSize p - (i + 1)) + 1 := by omega
    rw [hposition, slot_eq, Nat.add_comm i]
    simp only [Position.hand, hsize, ringSlice_cons, List.count_append, List.count_cons,
      List.count_nil, Nat.add_assoc]
    omega
  · refine h.goOn trivial fun v ↦ ?_
    obtain rfl : i = overflowSize p := by omega
    rw [hposition]
    simp only [Position.hand, Nat.sub_self, ringSlice_zero, List.nil_append, List.count_append,
      List.count_nil]
    omega

theorem holds_popHead (h : st.Holds p) {tail : ℕ} (hposition : st.positions t = .popHead tail) :
    (st.setPosition t (if (st.queues t).head = tail then .idle
      else .popBuf (st.queues t).head)).Holds p := by
  have hfits := h.fits t
  have hle := (h.queues t).le
  rw [hposition] at hfits
  obtain rfl : (st.queues t).tail = tail := hfits
  split_ifs with hempty
  · exact h.setPosition trivial (by rw [hposition]; rfl)
  · exact h.setPosition (lt_of_le_of_ne hle hempty) (by rw [hposition]; rfl)

theorem holds_popTake (h : st.Holds p) {value : V} {head : ℕ}
    (hposition : st.positions t = .popTake value head) (hhead : (st.queues t).head = head) :
    ({ st.setQueue t ((st.queues t).storeHead (head + 1) [value]) with
        taken := st.taken ++ [value] }.setPosition t .idle).Holds p := by
  have hfits := h.fits t
  rw [hposition] at hfits
  obtain ⟨hlt, hvalue⟩ := hfits
  subst hhead
  have hslice : ringSlice (2 ^ p) (st.queues t).buf (st.queues t).head 1 = [value] := by
    rw [← hvalue]
    rfl
  have hq := Queue.holds_storeHead (h.queues t) (n := 1) hlt
  rw [hslice] at hq
  refine h.own hq (Queue.robbed_storeHead _ _).later trivial fun v ↦ ?_
  have hcontents := Queue.contents_storeHead (p := p) (n := 1) hlt [value]
  rw [hposition, hcontents, hslice]
  simp only [Position.hand, List.count_append, List.count_nil, setQueue]
  omega

theorem holds_stealOtherTail (h : st.Holds p) {other : Fin m} {tail head otherHead n : ℕ}
    (hposition : st.positions t = .stealOtherTail other tail head otherHead)
    (hle : otherHead + n ≤ (st.queues other).tail) (hroom : n ≤ head + 2 ^ p - tail) :
    (st.setPosition t (if n = 0 then .idle else .stealLoad other tail otherHead n 0)).Holds p := by
  have hfits := h.fits t
  rw [hposition] at hfits
  obtain ⟨hne, htail, hhead, hother⟩ := hfits
  split_ifs with hn
  · exact h.setPosition trivial (by rw [hposition]; rfl)
  · refine h.setPosition ⟨hne, by omega, ?_⟩ (by rw [hposition]; rfl)
    exact ⟨htail, Nat.zero_le _, by omega, hother, hle, fun _ j hj ↦ absurd hj (Nat.not_lt_zero j)⟩

theorem holds_stealSave (h : st.Holds p) {other : Fin m} {tail otherHead n i : ℕ} {value : V}
    (hposition : st.positions t = .stealSave other tail otherHead n i value) :
    ((st.setQueue t ((st.queues t).write p (i + tail) value)).setPosition t
      (if i + 1 < n then .stealLoad other tail otherHead n (i + 1)
        else .stealTake other tail otherHead n)).Holds p := by
  have hfits := h.fits t
  rw [hposition] at hfits
  obtain ⟨hne, hlt, hcopies, hvalue⟩ := hfits
  have hstart := hcopies.start
  have hroom := hcopies.room
  have hfree : (st.queues t).tail ≤ i + tail := by omega
  have hfree' : i + tail < (st.queues t).head + 2 ^ p := by omega
  have hsaved := hcopies.save (h.queues t).le hlt hvalue
  refine h.own (Queue.holds_write (h.queues t) hfree hfree' value)
    (Queue.later_write hfree hfree' value) ?_ fun v ↦ ?_
  · split_ifs with hmore
    · refine ⟨hne, hmore, ?_⟩
      rw [Function.update_self, Function.update_of_ne hne.symm]
      exact hsaved
    · obtain rfl : i + 1 = n := by omega
      refine ⟨hne, Nat.succ_pos i, ?_⟩
      rw [Function.update_self, Function.update_of_ne hne.symm]
      exact hsaved
  · rw [hposition, Queue.contents_write (h.queues t) hfree hfree']
    split_ifs <;> rfl

/-- The values that leave the queue are the ones that the thread has copied. -/
theorem holds_stealTake (h : st.Holds p) {other : Fin m} {tail otherHead n : ℕ}
    (hposition : st.positions t = .stealTake other tail otherHead n)
    (hhead : (st.queues other).head = otherHead) :
    ((st.setQueue other ((st.queues other).storeHead (otherHead + n)
      (ringSlice (2 ^ p) (st.queues t).buf tail n))).setPosition t
        (.stealBuf tail (n - 1))).Holds p := by
  have hfits := h.fits t
  rw [hposition] at hfits
  obtain ⟨hne, hpos, hcopies⟩ := hfits
  have hslice := hcopies.ringSlice_eq hhead
  have hstop := hcopies.stop
  have hroom := hcopies.room
  subst hhead
  have hq := Queue.holds_storeHead (h.queues other) hstop
  rw [← hslice] at hq
  have hrobbed := Queue.robbed_storeHead (q := st.queues other) n
    (ringSlice (2 ^ p) (st.queues t).buf tail n)
  refine h.change rfl (holds_update h hq) (later_update hrobbed.later) (fun u _ ↦ ?_) ?_ fun v ↦ ?_
  · change (st.queues u).Robbed (Function.update st.queues other _ u)
    rcases eq_or_ne u other with rfl | hu
    · rw [Function.update_self]
      exact hrobbed
    · rw [Function.update_of_ne hu]
      exact .refl _
  · change (Function.update st.queues other _ t).tail = tail ∧
      tail + (n - 1) ≤ (Function.update st.queues other _ t).head + 2 ^ p
    rw [Function.update_of_ne hne]
    exact ⟨hcopies.start, by omega⟩
  · have hbalance := h.balanced v
    have hcontents := Queue.contents_storeHead (p := p) hstop
      (ringSlice (2 ^ p) (st.queues t).buf tail n)
    rw [← hslice] at hcontents
    generalize hrobbed' : (st.queues other).storeHead _ _ = robbed at hcontents ⊢
    have hbuf : robbed.buf = (st.queues other).buf := by
      rw [← hrobbed']
      rfl
    have hstored := stored_setQueue (p := p) st other robbed v
    have hhand := inHand_setPosition (p := p) (st.setQueue other robbed) t
      (.stealBuf tail (n - 1)) v
    have hqueue : (st.setQueue other robbed).queues t = st.queues t := Function.update_of_ne hne ..
    rw [inHand_setQueue hbuf, hqueue] at hhand
    rw [hcontents, List.count_append] at hstored
    have hidle : ((st.setQueue other robbed).positions t).hand p (st.queues t).buf = [] := by
      change (st.positions t).hand p (st.queues t).buf = []
      rw [hposition]
      rfl
    have hstolen : (Position.stealBuf tail (n - 1) : Position m V).hand p (st.queues t).buf =
        ringSlice (2 ^ p) (st.queues t).buf tail n := by
      rw [Position.hand, Nat.sub_add_cancel hpos]
    rw [hidle, hstolen, List.count_nil] at hhand
    simp only [stored, inHand, setQueue, setPosition] at hbalance hstored hhand ⊢
    omega

theorem holds_stealBuf (h : st.Holds p) {tail n : ℕ}
    (hposition : st.positions t = .stealBuf tail n) :
    (st.setPosition t (.stealStore tail n ((st.queues t).buf (slot p (tail + n))))).Holds p := by
  have hfits := h.fits t
  rw [hposition] at hfits
  refine h.setPosition hfits ?_
  rw [hposition, slot_eq]
  exact (ringSlice_succ ..).symm

theorem holds_stealStore (h : st.Holds p) {tail n : ℕ} {value : V}
    (hposition : st.positions t = .stealStore tail n value) :
    ({ st.setQueue t ((st.queues t).storeTail (tail + n)
        (ringSlice (2 ^ p) (st.queues t).buf tail n)) with
      taken := st.taken ++ [value] }.setPosition t .idle).Holds p := by
  have hfits := h.fits t
  rw [hposition] at hfits
  obtain ⟨rfl, hroom⟩ := hfits
  refine h.own (Queue.holds_storeTail (h.queues t) hroom) (Queue.later_storeTail n _) trivial
    fun v ↦ ?_
  rw [hposition, Queue.contents_storeTail (h.queues t)]
  simp only [Position.hand, List.count_append, List.count_nil, setQueue]
  omega

theorem holds_advance (h : st.Holds p) {st' : State m V} (hadvance : st.advance p t = some st') :
    st'.Holds p := by
  have hfits := h.fits t
  unfold advance at hadvance
  cases hposition : st.positions t
  all_goals
    rw [hposition] at hadvance hfits
    dsimp only at hadvance
  case idle => cases hadvance
  case pushTail value =>
    obtain rfl := Option.some.inj hadvance
    exact h.setPosition rfl (by rw [hposition]; rfl)
  case pushHead value tail => exact Option.some.inj hadvance ▸ holds_pushHead h hposition
  case pushBuf value tail => exact Option.some.inj hadvance ▸ holds_pushBuf h hposition
  case pushStore value tail => exact Option.some.inj hadvance ▸ holds_pushStore h hposition
  case pushFull value head =>
    split_ifs at hadvance with hhead
    · exact Option.some.inj hadvance ▸ holds_pushFull h hposition hhead
    · obtain rfl := Option.some.inj hadvance
      exact h.setPosition trivial (by rw [hposition]; rfl)
  case overflow value head i =>
    have hnext := holds_overflow h hposition
    split_ifs at hadvance hnext
    · exact Option.some.inj hadvance ▸ hnext
    · exact Option.some.inj hadvance ▸ hnext
  case popTail =>
    obtain rfl := Option.some.inj hadvance
    exact h.setPosition rfl (by rw [hposition]; rfl)
  case popHead tail => exact Option.some.inj hadvance ▸ holds_popHead h hposition
  case popBuf head =>
    obtain rfl := Option.some.inj hadvance
    exact h.setPosition ⟨hfits, by rw [slot_eq]⟩ (by rw [hposition]; rfl)
  case popTake value head =>
    split_ifs at hadvance with hhead
    · exact Option.some.inj hadvance ▸ holds_popTake h hposition hhead
    · obtain rfl := Option.some.inj hadvance
      exact h.setPosition trivial (by rw [hposition]; rfl)
  case stealTail other =>
    obtain rfl := Option.some.inj hadvance
    exact h.setPosition ⟨hfits, rfl⟩ (by rw [hposition]; rfl)
  case stealHead other tail =>
    obtain rfl := Option.some.inj hadvance
    exact h.setPosition ⟨hfits.1, hfits.2, le_rfl⟩ (by rw [hposition]; rfl)
  case stealOtherHead other tail head =>
    obtain rfl := Option.some.inj hadvance
    exact h.setPosition ⟨hfits.1, hfits.2.1, hfits.2.2, le_rfl⟩ (by rw [hposition]; rfl)
  case stealOtherTail other tail head otherHead =>
    by_cases hagain : (st.queues other).tail < otherHead ∨
        2 ^ p < (st.queues other).tail - otherHead
    · rw [if_pos hagain] at hadvance
      obtain rfl := Option.some.inj hadvance
      exact h.setPosition hfits.1 (by rw [hposition]; rfl)
    · rw [if_neg hagain] at hadvance
      exact Option.some.inj hadvance ▸
        holds_stealOtherTail h hposition (by omega) (min_le_right ..)
  case stealLoad other tail otherHead n i =>
    obtain rfl := Option.some.inj hadvance
    obtain ⟨hne, hlt, hcopies⟩ := hfits
    refine h.setPosition ⟨hne, hlt, hcopies, fun _ ↦ ?_⟩ (by rw [hposition]; rfl)
    rw [slot_eq, Nat.add_comm]
  case stealSave other tail otherHead n i value =>
    exact Option.some.inj hadvance ▸ holds_stealSave h hposition
  case stealTake other tail otherHead n =>
    split_ifs at hadvance with hhead
    · exact Option.some.inj hadvance ▸ holds_stealTake h hposition hhead
    · obtain rfl := Option.some.inj hadvance
      exact h.setPosition hfits.1 (by rw [hposition]; rfl)
  case stealBuf tail n => exact Option.some.inj hadvance ▸ holds_stealBuf h hposition
  case stealStore tail n value => exact Option.some.inj hadvance ▸ holds_stealStore h hposition

omit [DecidableEq V] in
theorem position_of_isIdle (hidle : st.isIdle t) : st.positions t = .idle := by
  unfold isIdle at hidle
  split at hidle
  · assumption
  · cases hidle

theorem holds_step (h : st.Holds p) {x : Step m V} {st' : State m V}
    (hstep : st.step p x = some st') : st'.Holds p := by
  cases x with
  | localPush t value =>
    rw [step] at hstep
    split_ifs at hstep with hidle
    obtain rfl := Option.some.inj hstep
    refine h.goOn trivial fun v ↦ ?_
    rw [position_of_isIdle hidle]
    simp only [Position.hand, List.count_append, List.count_nil]
    omega
  | localPop t =>
    rw [step] at hstep
    split_ifs at hstep with hidle
    obtain rfl := Option.some.inj hstep
    exact h.setPosition trivial (by rw [position_of_isIdle hidle]; rfl)
  | steal t other =>
    rw [step] at hstep
    split_ifs at hstep with hidle
    obtain rfl := Option.some.inj hstep
    exact h.setPosition hidle.2 (by rw [position_of_isIdle hidle.1]; rfl)
  | next t => exact holds_advance h hstep

/-! ## Runs -/

theorem holds_init [Inhabited V] : (init m V).Holds p where
  queues t := ⟨le_rfl, Nat.zero_le _, rfl⟩
  fits t := trivial
  balanced v := by simp [init, stored, inHand, Queue.contents, Position.hand, total]

/-- No queue grows over its buffer, values leave each queue in the order in which they come, and
each value of a call of `local_push` is returned once, or is in one queue, or on its way. -/
structure Keeps (p : ℕ) (st : State m V) : Prop where
  size : ∀ t, (st.queues t).head ≤ (st.queues t).tail ∧
    (st.queues t).tail - (st.queues t).head ≤ 2 ^ p
  order : ∀ t, (st.queues t).entered = (st.queues t).left ++ (st.queues t).contents p
  balanced : ∀ v, st.pushed.count v = st.taken.count v + st.stored p v + st.inHand p v
  idle : (∀ t, st.positions t = .idle) → ∀ v, st.pushed.count v = st.taken.count v + st.stored p v

theorem Holds.keeps (h : st.Holds p) : st.Keeps p where
  size t := ⟨(h.queues t).le, Nat.sub_le_iff_le_add'.mpr (h.queues t).size⟩
  order t := (h.queues t).order
  balanced := h.balanced
  idle hidle v := by
    have hhand : st.inHand p v = 0 := by simp [inHand, hidle, Position.hand, total]
    have hbalance := h.balanced v
    omega

/-- However the threads take turns, no value is lost, and none is returned twice. -/
theorem run_keeps_order [Inhabited V] {xs : List (Step m V)}
    (hrun : xs.foldlM (step p) (init m V) = some st) : st.Keeps p :=
  (foldlM_invariant (fun hst hstep ↦ holds_step hst hstep) holds_init hrun).keeps

/-- A queue is full, and its values go to `overflow_f`; later a thread steals a value that is taken
by its owner meanwhile, and steals the next one. -/
def stealSteps (t t' : Fin m) : List (Step m ℕ) :=
  [.localPush t 10, .next t, .next t, .next t, .next t, .localPush t 20, .next t, .next t, .next t,
    .next t, .localPush t 30, .next t, .next t, .next t, .next t, .next t, .next t,
    .localPush t 40, .next t, .next t, .next t, .next t, .localPush t 50, .next t, .next t,
    .next t, .next t, .steal t' t, .next t', .next t', .next t', .next t', .next t', .next t',
    .localPop t, .next t, .next t, .next t, .next t, .next t', .next t', .next t', .next t',
    .next t', .next t', .next t', .next t', .next t', .next t']

theorem run_keeps_order_steal :
    ∃ st, (stealSteps 0 1).foldlM (step 1) (init 2 ℕ) = some st ∧
      st.taken = [10, 20, 30, 40, 50] ∧ st.Keeps 1 := by
  have hrun : (stealSteps 0 1).foldlM (step 1) (init 2 ℕ) = some _ := rfl
  exact ⟨_, hrun, rfl, run_keeps_order hrun⟩

end State

end PxcCore.StealingQueue
