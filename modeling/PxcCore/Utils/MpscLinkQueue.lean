import PxcCore.Lib.LinkedList
import PxcCore.Lib.Traces

/-!
# MpscLinkQueue

`MpscLinkQueue.h`: many threads push nodes, one reads them.  Each access to `head_` is a step of its
own, and the pointers of a node are touched by one thread at a time.  `push_unsafe` and
`pop_all_unsafe` differ from `push` and `pop_all` only in that no other thread takes part.
-/

namespace PxcCore.MpscLinkQueue

open Lib

/-! ## Definitions -/

/-- The variables of `Reader::add` while it reverses a list. -/
structure Adding (N : Type) where
  tail : N
  head : Option N := none
  node : Option N

/-- `Reader` -/
structure Reader (N : Type) where
  head : Option N := none
  tail : Option N := none

/-- The queue and the reader.  `pushing` is the node with which a thread is in the loop of `push`,
`adding` is there while the reader is in `add`, and a node is `outside` if it is in no list and no
thread pushes it. -/
structure Queue (P N : Type) where
  next : N → Option N := fun _ ↦ none
  head : Option N := none
  reader : Reader N := {}
  pushing : P → Option N := fun _ ↦ none
  adding : Option (Adding N) := none
  outside : N → Bool := fun _ ↦ true

/-- What a thread does next. -/
inductive Step (P N : Type) where
  | push (p : P) (node : N)
  | compareExchange (p : P)
  | popAll
  | add
  | read
  | delay (node : N)

/-- What others see of a step. -/
inductive Event (N : Type) where
  | push (node : N)
  | popAll
  | read (result : Option N)
  | delay (node : N)
deriving DecidableEq

variable {P N : Type}

namespace Queue

variable [DecidableEq P] [DecidableEq N]

/-- `head_.compare_exchange_strong(node->next_, node)` -/
def compareExchange (st : Queue P N) (p : P) (node : N) : Queue P N × List (Event N) :=
  if st.head = st.next node then
    ({ st with head := some node, pushing := Function.update st.pushing p none }, [.push node])
  else ({ st with next := Function.update st.next node st.head }, [])

/-- `reader.add(head_.exchange(nullptr))`, up to the loop. -/
def popAll (st : Queue P N) : Queue P N × List (Event N) :=
  ({ st with head := none, adding := st.head.map fun node ↦ { tail := node, node := some node } },
    [.popAll])

/-- One round of the loop of `Reader::add`, or what comes after it. -/
def add (st : Queue P N) (adding : Adding N) : Option (Queue P N) :=
  match adding.node with
  | some node =>
    some { st with
      next := Function.update st.next node adding.head
      adding := some { adding with head := some node, node := st.next node } }
  | none =>
    match st.reader.head, st.reader.tail with
    | none, _ =>
      some { st with reader := { head := adding.head, tail := some adding.tail }, adding := none }
    | some _, some tail =>
      some { st with
        next := Function.update st.next tail adding.head
        reader := { st.reader with tail := some adding.tail }
        adding := none }
    | some _, none => none

/-- `Reader::read` -/
def read (st : Queue P N) : Queue P N × List (Event N) :=
  match st.reader.head with
  | none => (st, [.read none])
  | some oldHead =>
    ({ st with
        reader := { st.reader with head := st.next oldHead }
        outside := Function.update st.outside oldHead true },
      [.read (some oldHead)])

/-- `Reader::delay` -/
def delay (st : Queue P N) (node : N) : Queue P N × List (Event N) :=
  ({ st with
      next := Function.update st.next node st.reader.head
      reader :=
        { head := some node
          tail := if st.reader.head.isNone then some node else st.reader.tail }
      outside := Function.update st.outside node false },
    [.delay node])

/-- One step, with what the others see of it, or `none` if it cannot be made.  Nodes are given to
the queue by those that have them, and a thread is in one call at a time. -/
def step (st : Queue P N) : Step P N → Option (Queue P N × List (Event N))
  | .push p node =>
    if st.pushing p = none ∧ st.outside node then
      some ({ st with
        next := Function.update st.next node st.head
        pushing := Function.update st.pushing p (some node)
        outside := Function.update st.outside node false }, [])
    else none
  | .compareExchange p => (st.pushing p).map (st.compareExchange p)
  | .popAll => if st.adding.isNone then some st.popAll else none
  | .add => (st.adding.bind st.add).map fun st ↦ (st, [])
  | .read => if st.adding.isNone then some st.read else none
  | .delay node => if st.adding.isNone ∧ st.outside node then some (st.delay node) else none

/-- The loop of `Reader::calc_size`, for so many rounds. -/
def calcSizeLoop (next : N → Option N) : ℕ → Option N → ℕ → Option ℕ
  | _, none, res => some res
  | 0, some _, _ => none
  | fuel + 1, some it, res => calcSizeLoop next fuel (next it) (res + 1)

/-- `Reader::calc_size` -/
def calcSize (st : Queue P N) (fuel : ℕ) : Option ℕ := calcSizeLoop st.next fuel st.reader.head 0

end Queue

/-! ## What the queue is for -/

/-- The nodes that have been pushed and not popped yet, and those that the reader has popped and not
read yet. -/
structure Fifo (N : Type) where
  pushed : List N := []
  popped : List N := []

/-- What an event does, if it may happen. -/
def Fifo.step [DecidableEq N] (q : Fifo N) : Event N → Option (Fifo N)
  | .push node => some { q with pushed := q.pushed ++ [node] }
  | .popAll => some { pushed := [], popped := q.popped ++ q.pushed }
  | .read result =>
    if result = q.popped.head? then some { q with popped := q.popped.tail } else none
  | .delay node => some { q with popped := node :: q.popped }

namespace Event

/-- The node of a push. -/
def pushed? : Event N → Option N
  | .push node => some node
  | _ => none

/-- The node that is read. -/
def read? : Event N → Option N
  | .read result => result
  | _ => none

/-- The node that is put back. -/
def delayed? : Event N → Option N
  | .delay node => some node
  | _ => none

end Event

namespace Fifo

variable [DecidableEq N] {q q' : Fifo N} {e : Event N} {events : List (Event N)}

/-- The nodes in the order in which they will be read, if none is put back. -/
def content (q : Fifo N) : List N := q.popped ++ q.pushed

theorem content_step (h : q.step e = some q') (hdelay : e.delayed? = none) :
    q.content ++ e.pushed?.toList = e.read?.toList ++ q'.content := by
  cases e with
  | push node =>
    obtain rfl := Option.some.inj h
    simp [content, Event.pushed?, Event.read?]
  | popAll =>
    obtain rfl := Option.some.inj h
    simp [content, Event.pushed?, Event.read?]
  | read result =>
    simp only [step, Option.ite_none_right_eq_some, Option.some.injEq] at h
    obtain ⟨rfl, rfl⟩ := h
    cases hpopped : q.popped <;> simp [content, Event.pushed?, Event.read?, hpopped]
  | delay node => cases hdelay

theorem count_step (h : q.step e = some q') (node : N) :
    q.content.count node + e.pushed?.toList.count node + e.delayed?.toList.count node =
      e.read?.toList.count node + q'.content.count node := by
  by_cases hdelay : e.delayed? = none
  · have hcontent := congrArg (List.count node) (content_step h hdelay)
    rw [List.count_append, List.count_append] at hcontent
    simpa [hdelay] using hcontent
  · cases e with
    | delay node' =>
      obtain rfl := Option.some.inj h
      simp only [content, Event.pushed?, Event.read?, Event.delayed?, Option.toList_none,
        Option.toList_some, List.count_append, List.count_cons, List.count_nil]
      omega
    | _ => exact absurd rfl hdelay

/-- A node is read as often as it has been pushed or put back, up to what is left. -/
theorem count_run (h : events.foldlM Fifo.step q = some q') (node : N) :
    q.content.count node + (events.filterMap Event.pushed?).count node +
      (events.filterMap Event.delayed?).count node =
      (events.filterMap Event.read?).count node + q'.content.count node := by
  induction events generalizing q with
  | nil =>
    obtain rfl := Option.some.inj h
    simp
  | cons e events ih =>
    rw [List.foldlM_cons] at h
    obtain ⟨q₁, hstep, hrest⟩ := Option.bind_eq_some_iff.mp h
    have hone := count_step hstep node
    have hmany := ih hrest
    simp only [filterMap_cons_eq _ e, List.count_append]
    omega

end Fifo

/-! ## The queue holds what it should -/

namespace Queue

/-- What the reader has popped, if it is not in `Reader::add`. -/
structure Rests (next : N → Option N) (reader : Reader N) (popped : List N) : Prop where
  linked : Linked next reader.head popped
  tail : popped ≠ [] → reader.tail = popped.getLast?

/-- What the reader has popped, when it has reversed a part of the list. -/
structure Reverses (next : N → Option N) (reader : Reader N) (adding : Adding N)
    (popped old done rest : List N) : Prop where
  before : Rests next reader old
  reversed : Linked next adding.head done
  ahead : Linked next adding.node rest
  tail : (rest.reverse ++ done).getLast? = some adding.tail
  popped : popped = old ++ (rest.reverse ++ done)

/-- The lists of the reader. -/
def Popped (next : N → Option N) (reader : Reader N) (adding : Option (Adding N))
    (popped : List N) : Prop :=
  match adding with
  | none => Rests next reader popped
  | some adding => ∃ old done rest, Reverses next reader adding popped old done rest

/-- Each node is at one place. -/
structure Owned (pushing : P → Option N) (outside : N → Bool) (content : List N) : Prop where
  nodup : content.Nodup
  inside : ∀ node ∈ content, outside node = false
  busy : ∀ p node, pushing p = some node → outside node = false ∧ node ∉ content
  single : ∀ p p' node, pushing p = some node → pushing p' = some node → p = p'

/-- The queue is in this state. -/
structure Holds (st : Queue P N) (q : Fifo N) : Prop where
  pushed : Linked st.next st.head q.pushed.reverse
  popped : Popped st.next st.reader st.adding q.popped
  owned : Owned st.pushing st.outside q.content

section Owned

variable {pushing : P → Option N} {outside : N → Bool} {content : List N} {node : N} {p : P}

theorem Owned.notMem (h : Owned pushing outside content) (hnode : outside node) :
    node ∉ content := fun hmem ↦ by
  rw [h.inside node hmem] at hnode
  cases hnode

theorem Owned.not_pushing (h : Owned pushing outside content) (hnode : outside node) :
    pushing p ≠ some node := fun hp ↦ by
  rw [(h.busy p node hp).1] at hnode
  cases hnode

variable [DecidableEq N]

/-- The first node is read. -/
theorem Owned.tail (h : Owned pushing outside (node :: content)) :
    Owned pushing (Function.update outside node true) content := by
  obtain ⟨hmem, hnodup⟩ := List.nodup_cons.mp h.nodup
  refine ⟨hnodup, fun a ha ↦ ?_, fun p a hp ↦ ?_, h.single⟩
  · rw [Function.update_of_ne (ne_of_mem_of_not_mem ha hmem)]
    exact h.inside a (List.mem_cons_of_mem _ ha)
  · obtain ⟨hain, hanot⟩ := h.busy p a hp
    have hne : a ≠ node := fun heq ↦ hanot (heq ▸ List.mem_cons_self)
    rw [Function.update_of_ne hne]
    exact ⟨hain, fun ha ↦ hanot (List.mem_cons_of_mem _ ha)⟩

/-- A node is put back. -/
theorem Owned.cons (h : Owned pushing outside content) (hnode : outside node) :
    Owned pushing (Function.update outside node false) (node :: content) := by
  have hmem := h.notMem hnode
  refine ⟨List.nodup_cons.mpr ⟨hmem, h.nodup⟩, fun a ha ↦ ?_, fun p a hp ↦ ?_, h.single⟩
  · rcases List.mem_cons.mp ha with rfl | ha
    · exact Function.update_self ..
    · rw [Function.update_of_ne (ne_of_mem_of_not_mem ha hmem)]
      exact h.inside a ha
  · obtain ⟨hain, hanot⟩ := h.busy p a hp
    have hne : a ≠ node := fun heq ↦ h.not_pushing hnode (heq ▸ hp)
    rw [Function.update_of_ne hne]
    exact ⟨hain, fun ha ↦ (List.mem_cons.mp ha).elim hne hanot⟩

variable [DecidableEq P]

/-- A thread begins to push a node. -/
theorem Owned.begin (h : Owned pushing outside content) (hnode : outside node) :
    Owned (Function.update pushing p (some node)) (Function.update outside node false) content := by
  have hmem := h.notMem hnode
  refine ⟨h.nodup, fun a ha ↦ ?_, fun p' a hp' ↦ ?_, fun p₁ p₂ a hp₁ hp₂ ↦ ?_⟩
  · rw [Function.update_of_ne (ne_of_mem_of_not_mem ha hmem)]
    exact h.inside a ha
  · rw [Function.update_apply] at hp' ⊢
    split_ifs at hp' with hp
    · obtain rfl := Option.some.inj hp'
      exact ⟨if_pos rfl, hmem⟩
    · obtain ⟨hain, hanot⟩ := h.busy p' a hp'
      exact ⟨by split_ifs <;> first | rfl | exact hain, hanot⟩
  · rw [Function.update_apply] at hp₁ hp₂
    split_ifs at hp₁ hp₂ with h₁ h₂ h₂
    · exact h₁.trans h₂.symm
    · exact absurd (hp₂.trans hp₁.symm) (h.not_pushing hnode)
    · exact absurd (hp₁.trans hp₂.symm) (h.not_pushing hnode)
    · exact h.single p₁ p₂ a hp₁ hp₂

omit [DecidableEq N] in
/-- The node is in the queue. -/
theorem Owned.concat (h : Owned pushing outside content) (hp : pushing p = some node) :
    Owned (Function.update pushing p none) outside (content ++ [node]) := by
  obtain ⟨hinside, hmem⟩ := h.busy p node hp
  have hothers {p' : P} {a : N} (hp' : Function.update pushing p none p' = some a) :
      p' ≠ p ∧ pushing p' = some a := by
    simpa [Function.update_apply] using hp'
  refine ⟨?_, fun a ha ↦ ?_, fun p' a hp' ↦ ?_, fun p₁ p₂ a hp₁ hp₂ ↦
    h.single p₁ p₂ a (hothers hp₁).2 (hothers hp₂).2⟩
  · rw [← List.concat_eq_append]
    exact h.nodup.concat hmem
  · rcases List.mem_append.mp ha with ha | ha
    · exact h.inside a ha
    · rw [List.mem_singleton.mp ha]
      exact hinside
  · obtain ⟨hne, hp'⟩ := hothers hp'
    obtain ⟨hain, hanot⟩ := h.busy p' a hp'
    refine ⟨hain, fun ha ↦ ?_⟩
    rcases List.mem_append.mp ha with ha | ha
    · exact hanot ha
    · rw [List.mem_singleton.mp ha] at hp'
      exact hne (h.single p' p node hp' hp)

end Owned

section Steps

variable {st st' : Queue P N} {q : Fifo N} {next next' : N → Option N} {reader : Reader N}
  {popped : List N} {node : N} {p : P} {adding : Option (Adding N)}

theorem Rests.congr (h : Rests next reader popped) (heq : ∀ a ∈ popped, next' a = next a) :
    Rests next' reader popped := ⟨h.linked.congr heq, h.tail⟩

theorem Popped.congr (h : Popped next reader adding popped)
    (heq : ∀ a ∈ popped, next' a = next a) : Popped next' reader adding popped := by
  cases adding with
  | none => exact Rests.congr h heq
  | some adding =>
    obtain ⟨old, done, rest, hrev⟩ := h
    obtain rfl := hrev.popped
    refine ⟨old, done, rest, hrev.before.congr fun a ha ↦ heq a ?_,
      hrev.reversed.congr fun a ha ↦ heq a ?_, hrev.ahead.congr fun a ha ↦ heq a ?_, hrev.tail, rfl⟩
    all_goals simp [ha]

theorem Holds.rests (h : st.Holds q) (hidle : st.adding = none) :
    Rests st.next st.reader q.popped := by
  have hpopped := h.popped
  rwa [hidle] at hpopped

theorem holds_init : Holds ({} : Queue P N) {} where
  pushed := .nil
  popped := ⟨.nil, fun h ↦ absurd rfl h⟩
  owned := ⟨.nil, fun _ h ↦ (by cases h), fun _ _ h ↦ (by cases h), fun _ _ _ h ↦ (by cases h)⟩

theorem holds_popAll (h : st.Holds q) (hidle : st.adding = none) :
    st.popAll.1.Holds { pushed := [], popped := q.popped ++ q.pushed } := by
  have hrests := h.rests hidle
  have hcontent : (⟨[], q.popped ++ q.pushed⟩ : Fifo N).content = q.content := List.append_nil _
  refine ⟨.nil, ?_, hcontent ▸ h.owned⟩
  have hlinked := h.pushed
  unfold popAll
  cases hhead : st.head with
  | none =>
    rw [hhead] at hlinked
    have hempty : q.pushed = [] := by simpa using hlinked.eq_nil_iff.mp rfl
    rw [hempty, List.append_nil]
    exact hrests
  | some node =>
    rw [hhead] at hlinked
    refine ⟨q.popped, [], q.pushed.reverse, hrests, .nil, hlinked, ?_, by simp⟩
    cases hreverse : q.pushed.reverse with
    | nil =>
      rw [hreverse] at hlinked
      cases hlinked
    | cons node' rest =>
      rw [hreverse] at hlinked
      obtain ⟨heq, -⟩ := hlinked.of_cons
      simp [heq]

theorem calcSizeLoop_linked {head : Option N} {l : List N} {fuel : ℕ} (h : Linked next head l)
    (hfuel : l.length ≤ fuel) (res : ℕ) :
    calcSizeLoop next fuel head res = some (res + l.length) := by
  induction h generalizing fuel res with
  | nil => cases fuel <;> rfl
  | cons _ ih =>
    cases fuel with
    | zero => cases hfuel
    | succ fuel =>
      rw [calcSizeLoop, ih (Nat.le_of_succ_le_succ hfuel), List.length_cons, Nat.add_right_comm,
        Nat.add_assoc]

variable [DecidableEq N]

/-- The pointer of a node that is in no list does not matter. -/
theorem Holds.frame (h : st.Holds q) (hnode : node ∉ q.content) (value : Option N) :
    Linked (Function.update st.next node value) st.head q.pushed.reverse ∧
      Popped (Function.update st.next node value) st.reader st.adding q.popped := by
  have heq (a : N) (ha : a ∈ q.content) : Function.update st.next node value a = st.next a :=
    Function.update_of_ne (ne_of_mem_of_not_mem ha hnode) _ _
  exact ⟨h.pushed.congr fun a ha ↦ heq a (List.mem_append_right _ (List.mem_reverse.mp ha)),
    h.popped.congr fun a ha ↦ heq a (List.mem_append_left _ ha)⟩

/-- A round of the loop moves a node from what is ahead to what is reversed. -/
theorem holds_reverse {adding : Adding N} {old done rest : List N} (h : st.Holds q)
    (hrev : Reverses st.next st.reader adding q.popped old done (node :: rest)) :
    ({ st with
      next := Function.update st.next node adding.head
      adding := some { adding with head := some node, node := st.next node } } :
      Queue P N).Holds q := by
  have hnodup := h.owned.nodup
  rw [Fifo.content, hrev.popped] at hnodup
  have hframe {l : List N} (hl : node ∉ l) (a : N) (ha : a ∈ l) :
      Function.update st.next node adding.head a = st.next a :=
    Function.update_of_ne (ne_of_mem_of_not_mem ha hl) _ _
  obtain ⟨hold, hdone, hrest, hpushed⟩ :
      node ∉ old ∧ node ∉ done ∧ node ∉ rest ∧ node ∉ q.pushed := by
    simp only [List.reverse_cons, List.append_assoc, List.nodup_append, List.mem_append,
      List.mem_reverse, List.mem_cons, List.nodup_cons] at hnodup
    grind
  refine ⟨h.pushed.congr (hframe (by simpa using hpushed)), ?_, h.owned⟩
  refine ⟨old, node :: done, rest, hrev.before.congr (hframe hold), hrev.reversed.push hdone,
    hrev.ahead.of_cons.2.congr (hframe hrest), ?_, ?_⟩
  · simpa using hrev.tail
  · simpa using hrev.popped

/-- After the loop the reversed list is put behind the old one. -/
theorem holds_endAdd {adding : Adding N} {old done : List N} (h : st.Holds q)
    (hrev : Reverses st.next st.reader adding q.popped old done []) (hnode : adding.node = none) :
    ∃ st', st.add adding = some st' ∧ st'.Holds q := by
  have htail : done.getLast? = some adding.tail := by simpa using hrev.tail
  have hpopped : q.popped = old ++ done := by simpa using hrev.popped
  have hnodup := h.owned.nodup
  rw [Fifo.content, hpopped] at hnodup
  have hlinked := hrev.before.linked
  unfold add
  rw [hnode]
  rcases old.eq_nil_or_concat' with rfl | ⟨old, tail, rfl⟩
  · rw [hlinked.eq_nil_iff.mpr rfl]
    refine ⟨_, rfl, h.pushed, ?_, h.owned⟩
    rw [hpopped]
    exact ⟨hrev.reversed, fun _ ↦ htail.symm⟩
  · obtain ⟨first, hfirst⟩ : ∃ first, st.reader.head = some first :=
      Option.ne_none_iff_exists'.mp (mt hlinked.eq_nil_iff.mp (by simp))
    rw [hrev.before.tail (by simp), hfirst, List.getLast?_concat]
    have hpushed : tail ∉ q.pushed := fun hmem ↦
      List.disjoint_of_nodup_append hnodup (by simp) hmem
    refine ⟨_, rfl, h.pushed.congr fun a ha ↦ Function.update_of_ne
      (ne_of_mem_of_not_mem (List.mem_reverse.mp ha) hpushed) _ _, ?_, h.owned⟩
    rw [hpopped]
    have hdone : done ≠ [] := by
      rintro rfl
      cases htail
    refine ⟨?_, fun _ ↦ ?_⟩
    · exact hlinked.append (by simp) hrev.reversed hnodup.of_append_left
    · rw [List.getLast?_append_of_ne_nil _ hdone]
      exact htail.symm

/-- `Reader::add` never uses a null pointer. -/
theorem holds_add {adding : Adding N} (h : st.Holds q) (hadding : st.adding = some adding) :
    ∃ st', st.add adding = some st' ∧ st'.Holds q := by
  obtain ⟨old, done, rest, hrev⟩ : ∃ old done rest,
      Reverses st.next st.reader adding q.popped old done rest := by
    have hpopped := h.popped
    rwa [hadding] at hpopped
  cases rest with
  | nil => exact holds_endAdd h hrev (hrev.ahead.eq_nil_iff.mpr rfl)
  | cons node rest =>
    refine ⟨_, ?_, holds_reverse h hrev⟩
    rw [add, hrev.ahead.of_cons.1]

theorem holds_read (h : st.Holds q) (hidle : st.adding = none) :
    ∃ q', st.read.2.foldlM Fifo.step q = some q' ∧ st.read.1.Holds q' := by
  obtain ⟨pushed, popped⟩ := q
  have hrests := h.rests hidle
  have hlinked := hrests.linked
  cases popped with
  | nil =>
    have hhead : st.reader.head = none := hlinked.eq_nil_iff.mpr rfl
    refine ⟨⟨pushed, []⟩, ?_, ?_⟩ <;> rw [read, hhead]
    · rfl
    · exact h
  | cons node rest =>
    obtain ⟨hhead, hlinked⟩ := hlinked.of_cons
    refine ⟨⟨pushed, rest⟩, ?_, ?_⟩ <;> rw [read, hhead]
    · simp [Fifo.step]
    · refine ⟨h.pushed, ?_, h.owned.tail⟩
      change Popped st.next _ st.adding rest
      rw [hidle]
      refine ⟨hlinked, fun hne ↦ (hrests.tail (List.cons_ne_nil _ _)).trans ?_⟩
      rw [← List.singleton_append, List.getLast?_append_of_ne_nil _ hne]

theorem holds_delay (h : st.Holds q) (hidle : st.adding = none) (hnode : st.outside node) :
    (st.delay node).1.Holds { q with popped := node :: q.popped } := by
  have hrests := h.rests hidle
  have hmem := h.owned.notMem hnode
  refine ⟨(h.frame hmem _).1, ?_, h.owned.cons hnode⟩
  change Popped _ _ st.adding _
  rw [hidle]
  refine ⟨hrests.linked.push fun ha ↦ hmem (List.mem_append_left _ ha), fun _ ↦ ?_⟩
  cases hpopped : q.popped with
  | nil =>
    have hhead := hrests.linked.eq_nil_iff.mpr hpopped
    simp [delay, hhead]
  | cons a rest =>
    rw [hpopped] at hrests
    have htail := hrests.tail (List.cons_ne_nil _ _)
    simp [delay, hrests.linked.of_cons.1, htail]

variable [DecidableEq P]

theorem holds_compareExchange (h : st.Holds q) (hp : st.pushing p = some node) :
    ∃ q', (st.compareExchange p node).2.foldlM Fifo.step q = some q' ∧
      (st.compareExchange p node).1.Holds q' := by
  obtain ⟨hinside, hmem⟩ := h.owned.busy p node hp
  unfold compareExchange
  split_ifs with hhead
  · refine ⟨{ q with pushed := q.pushed ++ [node] }, rfl, ?_, h.popped, ?_⟩
    · have hlinked := h.pushed
      rw [hhead] at hlinked
      simpa using hlinked.cons
    · rw [Fifo.content, ← List.append_assoc]
      exact h.owned.concat hp
  · obtain ⟨hpushed, hpopped⟩ := h.frame hmem st.head
    exact ⟨q, rfl, hpushed, hpopped, h.owned⟩

/-- What others see of a step is what the queue is for. -/
theorem holds_step {x : Step P N} {events : List (Event N)} (h : st.Holds q)
    (hstep : st.step x = some (st', events)) :
    ∃ q', events.foldlM Fifo.step q = some q' ∧ st'.Holds q' := by
  cases x with
  | push p node =>
    simp only [step, Option.ite_none_right_eq_some, Option.some.injEq, Prod.mk.injEq] at hstep
    obtain ⟨⟨-, hnode⟩, rfl, rfl⟩ := hstep
    obtain ⟨hpushed, hpopped⟩ := h.frame (h.owned.notMem hnode) st.head
    exact ⟨q, rfl, hpushed, hpopped, h.owned.begin hnode⟩
  | compareExchange p =>
    obtain ⟨node, hp, hstep⟩ := Option.map_eq_some_iff.mp hstep
    obtain ⟨q', hq', h'⟩ := holds_compareExchange h hp
    rw [hstep] at hq' h'
    exact ⟨q', hq', h'⟩
  | popAll =>
    simp only [step, Option.ite_none_right_eq_some, Option.some.injEq] at hstep
    obtain ⟨hidle, hstep⟩ := hstep
    have h' := holds_popAll h (Option.isNone_iff_eq_none.mp hidle)
    rw [hstep] at h'
    obtain rfl : [Event.popAll] = events := congrArg Prod.snd hstep
    exact ⟨_, rfl, h'⟩
  | add =>
    obtain ⟨st₁, hst₁, hstep⟩ := Option.map_eq_some_iff.mp hstep
    obtain ⟨rfl, rfl⟩ := Prod.mk.inj hstep
    obtain ⟨adding, hadding, hst₁⟩ := Option.bind_eq_some_iff.mp hst₁
    obtain ⟨st₂, hst₂, h'⟩ := holds_add h hadding
    obtain rfl := Option.some.inj (hst₁.symm.trans hst₂)
    exact ⟨q, rfl, h'⟩
  | read =>
    simp only [step, Option.ite_none_right_eq_some, Option.some.injEq] at hstep
    obtain ⟨hidle, hstep⟩ := hstep
    obtain ⟨q', hq', h'⟩ := holds_read h (Option.isNone_iff_eq_none.mp hidle)
    rw [hstep] at hq' h'
    exact ⟨q', hq', h'⟩
  | delay node =>
    simp only [step, Option.ite_none_right_eq_some, Option.some.injEq] at hstep
    obtain ⟨⟨hidle, hnode⟩, hstep⟩ := hstep
    have h' := holds_delay h (Option.isNone_iff_eq_none.mp hidle) hnode
    rw [hstep] at h'
    obtain rfl : [Event.delay node] = events := congrArg Prod.snd hstep
    exact ⟨_, rfl, h'⟩

/-- What the events say of the queue and what the reader gets. -/
structure Serves (st : Queue P N) (events : List (Event N)) (q : Fifo N) : Prop where
  allowed : events.foldlM Fifo.step {} = some q
  inOrder : (∀ e ∈ events, e.delayed? = none) →
    events.filterMap Event.pushed? = events.filterMap Event.read? ++ q.content
  once : ∀ node, (events.filterMap Event.pushed?).count node +
    (events.filterMap Event.delayed?).count node =
      (events.filterMap Event.read?).count node + q.content.count node
  isEmpty : st.head = none ↔ q.pushed = []
  size : st.adding = none → ∀ fuel, q.popped.length ≤ fuel →
    st.calcSize fuel = some q.popped.length
  add : ∀ adding, st.adding = some adding → (st.add adding).isSome

/-- However the threads take turns, the queue gives each node that has been pushed to the reader,
once and in the order of the successful exchanges. -/
theorem run_serves {xs : List (Step P N)} {events : List (Event N)}
    (hrun : runTrace step xs {} = some (st, events)) : ∃ q, st.Serves events q := by
  obtain ⟨q, hallowed, hholds⟩ := exists_of_runTrace holds_step holds_init hrun
  refine ⟨q, hallowed, fun hdelay ↦ ?_, fun node ↦ ?_, ?_,
    fun hidle fuel hfuel ↦ ?_, fun adding hadding ↦ ?_⟩
  · exact foldlM_inOrder (fun e he _ _ hstep ↦ Fifo.content_step hstep (hdelay e he)) hallowed
  · have hcount := Fifo.count_run hallowed node
    rwa [Fifo.content, List.append_nil, List.count_nil, Nat.zero_add] at hcount
  · rw [hholds.pushed.eq_nil_iff, List.reverse_eq_nil_iff]
  · rw [calcSize, calcSizeLoop_linked (hholds.rests hidle).linked hfuel, Nat.zero_add]
  · obtain ⟨st', hadd, -⟩ := holds_add hholds hadding
    exact Option.isSome_of_eq_some hadd

/-- The second thread has to try again, and its node is the second one. -/
theorem run_serves_two : ∃ (st : Queue Bool ℕ) (events : List (Event ℕ)) (q : Fifo ℕ),
    runTrace step [.push false 1, .push true 2, .compareExchange true, .compareExchange false,
      .compareExchange false, .popAll, .add, .add, .add, .read] {} = some (st, events) ∧
    events = [.push 2, .push 1, .popAll, .read (some 2)] ∧ st.Serves events q := by
  have hrun : runTrace (step (P := Bool) (N := ℕ)) [.push false 1, .push true 2,
    .compareExchange true, .compareExchange false, .compareExchange false, .popAll, .add, .add,
    .add, .read] {} = some (_, [.push 2, .push 1, .popAll, .read (some 2)]) := rfl
  obtain ⟨q, hq⟩ := run_serves hrun
  exact ⟨_, _, q, hrun, rfl, hq⟩

end Steps

end Queue

end PxcCore.MpscLinkQueue
