import PxcCore.Lib.KaryHeap
import PxcCore.Lib.ListUpdate
import PxcCore.Lib.Result

/-!
# KHeap

`Heap.h`: a heap in a vector, whose nodes know their positions.  A position is an `int32`, and so
there is room for `2 ^ 31` nodes.
-/

namespace PxcCore

open Lib

namespace KHeap

/-- How an operation ends other than by returning. -/
inductive Fault where
  | check
  | outOfRange
  | fuel
deriving DecidableEq, Repr

structure Item (KeyT Node : Type) where
  key : KeyT
  node : Node

end KHeap

/-- The heap, with `HeapNode::pos_` of every node there is. -/
structure KHeap (KeyT Node : Type) where
  array : List (KHeap.Item KeyT Node) := []
  pos : Node → Int32 := fun _ ↦ -1

namespace KHeap

variable {KeyT Node : Type} [LinearOrder KeyT] [DecidableEq Node]

/-- `static_cast<size_t>` of a position. -/
def toSize (pos : Int32) : ℕ := (pos.toInt % 2 ^ 64).toNat

/-- `HeapNode::in_heap`. -/
def inHeap (h : KHeap KeyT Node) (node : Node) : Bool := h.pos node ≠ -1

/-- `HeapNode::is_top`. -/
def isTop (h : KHeap KeyT Node) (node : Node) : Bool := h.pos node = 0

/-- `HeapNode::remove`. -/
def remove (h : KHeap KeyT Node) (node : Node) : KHeap KeyT Node :=
  { h with pos := Function.update h.pos node (-1) }

/-- `top_key`. -/
def topKey (h : KHeap KeyT Node) : Option KeyT := h.array.head?.map Item.key

/-- `get_key`. -/
def getKey (h : KHeap KeyT Node) (node : Node) : Except Fault KeyT :=
  match h.array[toSize (h.pos node)]? with
  | none => .error .check
  | some item => .ok item.key

/-- The item comes to this position, and its node knows that. -/
def place (h : KHeap KeyT Node) (pos : ℕ) (item : Item KeyT Node) : KHeap KeyT Node where
  array := h.array.set pos item
  pos := Function.update h.pos item.node (Int32.ofNat pos)

variable (K : ℕ)

/-- The loop of `fix_up`. -/
def fixUpLoop (item : Item KeyT Node) : ℕ → ℕ → KHeap KeyT Node → Except Fault (KHeap KeyT Node)
  | 0, _, _ => .error .fuel
  | fuel + 1, pos, h =>
    if pos = 0 then .ok (h.place pos item)
    else
      let parentPos := (pos - 1) / K
      match h.array[parentPos]? with
      | none => .error .outOfRange
      | some parentItem =>
        if parentItem.key < item.key then .ok (h.place pos item)
        else fixUpLoop item fuel parentPos (h.place pos parentItem)

/-- `fix_up`. -/
def fixUp (h : KHeap KeyT Node) (pos : ℕ) : Except Fault (KHeap KeyT Node) :=
  match h.array[pos]? with
  | none => .error .outOfRange
  | some item => fixUpLoop K item (pos + 1) pos h

/-- The loop of `fix_down` over the children, with the least key so far and its position. -/
def nextPos (h : KHeap KeyT Node) : ℕ × KeyT → List ℕ → Except Fault (ℕ × KeyT)
  | next, [] => .ok next
  | next, i :: is =>
    match h.array[i]? with
    | none => .error .outOfRange
    | some item => h.nextPos (if item.key < next.2 then (i, item.key) else next) is

/-- The loop of `fix_down`. -/
def fixDownLoop (item : Item KeyT Node) : ℕ → ℕ → KHeap KeyT Node →
    Except Fault (KHeap KeyT Node)
  | 0, _, _ => .error .fuel
  | fuel + 1, pos, h => do
    let leftPos := pos * K + 1
    let rightPos := min (leftPos + K) h.array.length
    let (nextPos, _) ← h.nextPos (pos, item.key) (List.range' leftPos (rightPos - leftPos))
    if nextPos = pos then
      return h.place pos item
    let some nextItem := h.array[nextPos]? | throw .outOfRange
    fixDownLoop item fuel nextPos (h.place pos nextItem)

/-- `fix_down`. -/
def fixDown (h : KHeap KeyT Node) (pos : ℕ) : Except Fault (KHeap KeyT Node) :=
  match h.array[pos]? with
  | none => .error .outOfRange
  | some item => fixDownLoop K item h.array.length pos h

/-- `erase`, of a position. -/
def erasePos (h : KHeap KeyT Node) (pos : ℕ) : Except Fault (KHeap KeyT Node) :=
  match h.array.getLast? with
  | none => .error .outOfRange
  | some last =>
    let h := { h with array := (h.array.set pos last).dropLast }
    if pos < h.array.length then do
      let h ← h.fixDown K pos
      h.fixUp K pos
    else .ok h

/-- `pop`. -/
def pop (h : KHeap KeyT Node) : Except Fault (Node × KHeap KeyT Node) :=
  match h.array with
  | [] => .error .check
  | top :: _ => do
    let h ← (h.remove top.node).erasePos K 0
    return (top.node, h)

/-- `insert`. -/
def insert (h : KHeap KeyT Node) (key : KeyT) (node : Node) : Except Fault (KHeap KeyT Node) :=
  if h.inHeap node then .error .check
  else fixUp K { h with array := h.array ++ [⟨key, node⟩] } h.array.length

/-- `fix`. -/
def fix (h : KHeap KeyT Node) (key : KeyT) (node : Node) : Except Fault (KHeap KeyT Node) :=
  let pos := toSize (h.pos node)
  match h.array[pos]? with
  | none => .error .check
  | some old =>
    let h := { h with array := h.array.set pos { old with key := key } }
    if key < old.key then h.fixUp K pos else h.fixDown K pos

/-- `erase`, of a node. -/
def erase (h : KHeap KeyT Node) (node : Node) : Except Fault (KHeap KeyT Node) :=
  let pos := toSize (h.pos node)
  if pos < h.array.length then (h.remove node).erasePos K pos else .error .check

/-! ## Runs -/

inductive Op (KeyT Node : Type) where
  | insert (key : KeyT) (node : Node)
  | fix (key : KeyT) (node : Node)
  | erase (node : Node)
  | pop

/-- The node is in the heap. -/
def Mem (h : KHeap KeyT Node) (node : Node) : Prop := ∃ item ∈ h.array, item.node = node

/-- The operations that may be called. -/
def Allows (h : KHeap KeyT Node) : Op KeyT Node → Prop
  | .insert _ node => ¬h.Mem node
  | .fix _ node => h.Mem node
  | .erase node => h.Mem node
  | .pop => h.array ≠ []

/-- One operation, with the node that `pop` returns. -/
def step (h : KHeap KeyT Node) : Op KeyT Node → Except Fault (Option Node × KHeap KeyT Node)
  | .insert key node => return (none, ← h.insert K key node)
  | .fix key node => return (none, ← h.fix K key node)
  | .erase node => return (none, ← h.erase K node)
  | .pop => do
    let (node, h) ← h.pop K
    return (some node, h)

/-- The heaps that operations lead to, through heaps of these sizes. -/
inductive Reachable (sizes : Set ℕ) : KHeap KeyT Node → Prop where
  | init : Reachable sizes {}
  | step {h h' : KHeap KeyT Node} {op : Op KeyT Node} {node : Option Node} :
    Reachable sizes h → h.Allows op → h.step K op = .ok (node, h') → h'.array.length ∈ sizes →
    Reachable sizes h'

/-! ## Keys and positions -/

open KaryHeap

omit [DecidableEq Node] [LinearOrder KeyT] in
/-- The keys of a vector as a sequence, which goes on for ever. -/
def keyAt (d : KeyT) (l : List (Item KeyT Node)) (i : ℕ) : KeyT := (l[i]?.map Item.key).getD d

/-- The nodes are different and know their positions, but for the one at `hole`. -/
structure Located (l : List (Item KeyT Node)) (hole : ℕ) (posOf : Node → Int32) : Prop where
  nodup : (l.map Item.node).Nodup
  pos : ∀ i item, l[i]? = some item → i ≠ hole → posOf item.node = Int32.ofNat i
  out : ∀ node, node ∉ l.map Item.node → posOf node = -1

/-- A heap between two operations. -/
structure Valid (h : KHeap KeyT Node) : Prop where
  ordered : ∀ d, Ordered K h.array.length (keyAt d h.array)
  nodup : (h.array.map Item.node).Nodup
  pos : ∀ i item, h.array[i]? = some item → h.pos item.node = Int32.ofNat i
  out : ∀ node, node ∉ h.array.map Item.node → h.pos node = -1

variable {K} {h : KHeap KeyT Node} {l : List (Item KeyT Node)} {item other : Item KeyT Node}
  {pos i j fuel : ℕ} {d : KeyT}

section Lists

omit [DecidableEq Node] [LinearOrder KeyT]

theorem keyAt_eq (hi : l[i]? = some item) : keyAt d l i = item.key := by
  rw [keyAt, hi]
  rfl

theorem node_ne (hn : (l.map Item.node).Nodup) (hi : l[i]? = some item) (hj : l[j]? = some other)
    (hne : i ≠ j) : item.node ≠ other.node := by
  intro he
  have hlt : i < (l.map Item.node).length := by
    rw [List.length_map]
    exact (List.getElem?_eq_some_iff.1 hi).1
  refine hne ((List.getElem?_inj hlt hn).1 ?_)
  rw [List.getElem?_map, List.getElem?_map, hi, hj, Option.map_some, Option.map_some, he]

theorem mem_nodes (hi : l[i]? = some item) : item.node ∈ l.map Item.node :=
  List.mem_map_of_mem (List.mem_of_getElem? hi)

/-- Two items in each other's places. -/
theorem getElem?_swap (hi : l[i]? = some item) (hj : l[j]? = some other) (k : ℕ) :
    ((l.set i other).set j item)[k]? = l[Equiv.swap i j k]? := by
  obtain ⟨hi', -⟩ := List.getElem?_eq_some_iff.1 hi
  obtain ⟨hj', -⟩ := List.getElem?_eq_some_iff.1 hj
  rw [List.getElem?_set, List.getElem?_set, List.length_set, Equiv.swap_apply_def]
  by_cases hkj : j = k
  · rw [if_pos hkj, if_pos hj']
    by_cases hki : k = i
    · rw [if_pos hki, ← hi, ← hki, hkj]
    · rw [if_neg hki, if_pos hkj.symm, hi]
  · rw [if_neg hkj]
    by_cases hki : i = k
    · rw [if_pos hki, if_pos hi', if_pos hki.symm, hj]
    · rw [if_neg hki, if_neg (Ne.symm hki), if_neg (Ne.symm hkj)]

theorem perm_swap (hi : l[i]? = some item) (hj : l[j]? = some other) :
    ((l.set i other).set j item).Perm l := by
  obtain ⟨hi', rfl⟩ := List.getElem?_eq_some_iff.1 hi
  obtain ⟨hj', rfl⟩ := List.getElem?_eq_some_iff.1 hj
  exact List.set_set_perm hi' hj'

theorem keyAt_swap (hi : l[i]? = some item) (hj : l[j]? = some other) :
    keyAt d ((l.set i other).set j item) = keyAt d l ∘ Equiv.swap i j := by
  funext k
  rw [keyAt, getElem?_swap hi hj]
  rfl

end Lists

/-! ## Moving an item -/

section Moves

omit [LinearOrder KeyT]

@[simp] theorem place_array (h : KHeap KeyT Node) (pos : ℕ) (item : Item KeyT Node) :
    (h.place pos item).array = h.array.set pos item := rfl

theorem place_pos_of_ne {node : Node} (hne : node ≠ item.node) :
    (h.place pos item).pos node = h.pos node :=
  Function.update_of_ne hne _ _

/-- An item that is placed knows its position; the others still know theirs. -/
theorem place_pos (hn : (l.map Item.node).Nodup) (hpos : l[pos]? = some item)
    (hl : ∀ i item', l[i]? = some item' → i ≠ pos → h.pos item'.node = Int32.ofNat i) :
    ∀ i item', l[i]? = some item' → (h.place pos item).pos item'.node = Int32.ofNat i := by
  intro i item' hi
  by_cases hip : i = pos
  · subst hip
    obtain rfl := Option.some.inj (hpos.symm.trans hi)
    exact Function.update_self _ _ _
  · rw [place_pos_of_ne (node_ne hn hi hpos hip)]
    exact hl i item' hi hip

theorem place_out (hpos : l[pos]? = some item)
    (hl : ∀ node, node ∉ l.map Item.node → h.pos node = -1) :
    ∀ node, node ∉ l.map Item.node → (h.place i item).pos node = -1 := by
  intro node hn
  rw [place_pos_of_ne]
  · exact hl node hn
  · rintro rfl
    exact hn (mem_nodes hpos)

/-- The item of the hole and another one change places. -/
theorem Located.swap (hl : Located l pos h.pos) (hpos : l[pos]? = some item)
    (hj : l[j]? = some other) (hne : j ≠ pos) :
    Located ((l.set pos other).set j item) j (h.place pos other).pos where
  nodup := ((perm_swap hpos hj).map _).nodup_iff.2 hl.nodup
  pos i item' hi hij := by
    rw [getElem?_swap hpos hj] at hi
    by_cases hip : i = pos
    · subst hip
      rw [Equiv.swap_apply_left] at hi
      obtain rfl := Option.some.inj (hj.symm.trans hi)
      exact Function.update_self _ _ _
    · rw [Equiv.swap_apply_of_ne_of_ne hip hij] at hi
      rw [place_pos_of_ne (node_ne hl.nodup hi hj hij)]
      exact hl.pos i item' hi hip
  out node hn := by
    rw [((perm_swap hpos hj).map Item.node).mem_iff] at hn
    exact place_out hj hl.out node hn

end Moves

/-- With the last item in its place the heap is whole. -/
theorem Located.valid (hl : Located l pos h.pos) (hset : h.array.set pos item = l)
    (hpos : l[pos]? = some item) (ho : ∀ d, Ordered K l.length (keyAt d l)) :
    Valid K (h.place pos item) where
  ordered := by
    rw [place_array, hset]
    exact ho
  nodup := by
    rw [place_array, hset]
    exact hl.nodup
  pos i item' hi := by
    rw [place_array, hset] at hi
    exact place_pos hl.nodup hpos hl.pos i item' hi
  out node hn := by
    rw [place_array, hset] at hn
    exact place_out hpos hl.out node hn

/-! ## `fix_up` -/

/-- `fix_up` makes a heap in which one item is too small whole again. -/
theorem fixUpLoop_spec (hset : h.array.set pos item = l) (hpos : l[pos]? = some item)
    (hl : Located l pos h.pos) (hr : ∀ d, Rising K l.length (keyAt d l) pos) (hf : pos < fuel) :
    ∃ h', fixUpLoop K item fuel pos h = .ok h' ∧ Valid K h' ∧ h'.array.Perm l := by
  induction fuel generalizing pos h l with
  | zero => omega
  | succ fuel ih =>
    have hlt := (List.getElem?_eq_some_iff.1 hpos).1
    rw [fixUpLoop]
    by_cases h0 : pos = 0
    · rw [if_pos h0]
      refine ⟨_, rfl, hl.valid hset hpos fun d ↦ (hr d).finish ?_, by rw [place_array, hset]⟩
      intro hp
      omega
    · rw [if_neg h0]
      have hp := Nat.pos_of_ne_zero h0
      have hpp : (pos - 1) / K < pos := parent_lt hp
      have hparent : l[(pos - 1) / K]? = some l[(pos - 1) / K] :=
        List.getElem?_eq_getElem (hpp.trans hlt)
      generalize l[(pos - 1) / K] = other at hparent
      have hget : h.array[(pos - 1) / K]? = some other := by
        rw [← hset, List.getElem?_set_ne hpp.ne'] at hparent
        exact hparent
      simp only [hget]
      split_ifs with hk
      · refine ⟨_, rfl, hl.valid hset hpos fun d ↦ (hr d).finish fun _ ↦ ?_,
          by rw [place_array, hset]⟩
        rw [keyAt_eq hpos, parent, keyAt_eq hparent]
        exact hk.le
      · have hset' : (h.place pos other).array.set ((pos - 1) / K) item =
            (l.set pos other).set ((pos - 1) / K) item := by
          rw [place_array, ← hset, List.set_set]
        have hr' (d : KeyT) : Rising K ((l.set pos other).set ((pos - 1) / K) item).length
            (keyAt d ((l.set pos other).set ((pos - 1) / K) item)) ((pos - 1) / K) := by
          rw [keyAt_swap hpos hparent, (perm_swap hpos hparent).length_eq]
          refine (hr d).swap hlt hp ?_
          rw [keyAt_eq hpos, parent, keyAt_eq hparent]
          exact not_lt.1 hk
        have hpos' : ((l.set pos other).set ((pos - 1) / K) item)[(pos - 1) / K]? = some item := by
          rw [getElem?_swap hpos hparent, Equiv.swap_apply_right, hpos]
        obtain ⟨h', hrun, hv, hperm⟩ :=
          ih hset' hpos' (hl.swap hpos hparent hpp.ne) hr' (by omega)
        exact ⟨h', hrun, hv, hperm.trans (perm_swap hpos hparent)⟩

/-! ## `fix_down` -/

omit [DecidableEq Node] in
/-- The loop over the children finds the least key, if it is less than the item's. -/
theorem nextPos_spec {is : List ℕ} (hin : ∀ i ∈ is, i < h.array.length) (p₀ : ℕ) (k₀ : KeyT) :
    ∃ p k, h.nextPos (p₀, k₀) is = .ok (p, k) ∧ k ≤ k₀ ∧
      (∀ i ∈ is, ∀ item, h.array[i]? = some item → k ≤ item.key) ∧
      (p = p₀ ∧ k = k₀ ∨ p ∈ is ∧ k < k₀ ∧ ∃ item, h.array[p]? = some item ∧ item.key = k) := by
  induction is generalizing p₀ k₀ with
  | nil => exact ⟨p₀, k₀, rfl, le_rfl, by simp, Or.inl ⟨rfl, rfl⟩⟩
  | cons i is ih =>
    rw [List.forall_mem_cons] at hin
    have hi : h.array[i]? = some h.array[i] := List.getElem?_eq_getElem hin.1
    generalize h.array[i] = item at hi
    simp only [nextPos, hi]
    split_ifs with hlt
    · obtain ⟨p, k, hr, hle, hall, hor⟩ := ih hin.2 i item.key
      refine ⟨p, k, hr, hle.trans hlt.le, List.forall_mem_cons.2 ⟨?_, hall⟩, Or.inr ?_⟩
      · intro item' hi'
        rwa [Option.some.inj (hi'.symm.trans hi)]
      · rcases hor with ⟨rfl, rfl⟩ | ⟨hp, hk, hitem⟩
        · exact ⟨List.mem_cons_self, hlt, item, hi, rfl⟩
        · exact ⟨List.mem_cons_of_mem _ hp, hk.trans hlt, hitem⟩
    · obtain ⟨p, k, hr, hle, hall, hor⟩ := ih hin.2 p₀ k₀
      refine ⟨p, k, hr, hle, List.forall_mem_cons.2 ⟨?_, hall⟩, ?_⟩
      · intro item' hi'
        rw [Option.some.inj (hi'.symm.trans hi)]
        exact hle.trans (not_lt.1 hlt)
      · rcases hor with hor | ⟨hp, hk, hitem⟩
        · exact Or.inl hor
        · exact Or.inr ⟨List.mem_cons_of_mem _ hp, hk, hitem⟩

omit [DecidableEq Node] in
/-- Where the item of `pos` has to go: nowhere, or to its least child. -/
theorem nextPos_children (hK : 0 < K) (hset : h.array.set pos item = l) (hpos : l[pos]? = some item)
    (d : KeyT) :
    ∃ p k, h.nextPos (pos, item.key) (List.range' (pos * K + 1)
        (min (pos * K + 1 + K) h.array.length - (pos * K + 1))) = .ok (p, k) ∧
      (p = pos ∧ (∀ i < l.length, 0 < i → parent K i = pos → item.key ≤ keyAt d l i) ∨
        p < l.length ∧ 0 < p ∧ parent K p = pos ∧ p ≠ pos ∧ ∃ other, l[p]? = some other ∧
          h.array[p]? = some other ∧ other.key < item.key ∧
          ∀ i < l.length, 0 < i → parent K i = pos → other.key ≤ keyAt d l i) := by
  have hlen : h.array.length = l.length := by rw [← hset, List.length_set]
  have hmem (i : ℕ) : i ∈ List.range' (pos * K + 1)
      (min (pos * K + 1 + K) h.array.length - (pos * K + 1)) ↔
        i < l.length ∧ 0 < i ∧ parent K i = pos := by
    rw [List.mem_range'_1, hlen]
    constructor
    · rintro ⟨h1, h2⟩
      have h0 : 0 < i := by omega
      exact ⟨by omega, h0, (parent_eq_iff hK h0).2 (by omega)⟩
    · rintro ⟨hi, h0, hpar⟩
      have := (parent_eq_iff hK h0).1 hpar
      omega
  have hne {i : ℕ} (h0 : 0 < i) (hpar : parent K i = pos) : i ≠ pos :=
    (hpar ▸ parent_lt h0 : pos < i).ne'
  have hget {i : ℕ} (h0 : 0 < i) (hpar : parent K i = pos) : l[i]? = h.array[i]? := by
    rw [← hset, List.getElem?_set_ne (hne h0 hpar).symm]
  obtain ⟨p, k, hr, -, hall, hor⟩ := nextPos_spec (h := h)
    (fun i hi ↦ hlen ▸ ((hmem i).1 hi).1) pos item.key
  have hmin : ∀ i < l.length, 0 < i → parent K i = pos → k ≤ keyAt d l i := by
    intro i hi h0 hpar
    have hi' : l[i]? = some l[i] := List.getElem?_eq_getElem hi
    rw [keyAt_eq hi']
    exact hall i ((hmem i).2 ⟨hi, h0, hpar⟩) _ ((hget h0 hpar).symm.trans hi')
  refine ⟨p, k, hr, ?_⟩
  rcases hor with ⟨rfl, rfl⟩ | ⟨hp, hk, other, ho, rfl⟩
  · exact Or.inl ⟨rfl, hmin⟩
  · obtain ⟨hlt, h0, hpar⟩ := (hmem p).1 hp
    exact Or.inr ⟨hlt, h0, hpar, hne h0 hpar, other, (hget h0 hpar).trans ho, ho, hk, hmin⟩

/-- `fix_down` makes a heap in which one item is too large whole again. -/
theorem fixDownLoop_spec (hK : 0 < K) (hset : h.array.set pos item = l)
    (hpos : l[pos]? = some item) (hl : Located l pos h.pos)
    (hs : ∀ d, Sinking K l.length (keyAt d l) pos) (hf : l.length ≤ pos + fuel) :
    ∃ h', fixDownLoop K item fuel pos h = .ok h' ∧ Valid K h' ∧ h'.array.Perm l := by
  induction fuel generalizing pos h l with
  | zero =>
    have := (List.getElem?_eq_some_iff.1 hpos).1
    omega
  | succ fuel ih =>
    rw [fixDownLoop]
    obtain ⟨p, k, hr, ⟨rfl, hmin⟩ | ⟨hlt, h0, hpar, hne, other, ho, ho', hk, hmin⟩⟩ :=
      nextPos_children hK hset hpos item.key
    · rw [hr, ok_bind]
      simp only [if_true]
      refine ⟨_, rfl, hl.valid hset hpos fun d ↦ (hs d).finish ?_, by rw [place_array, hset]⟩
      intro i hi hi0 hpar
      have hi' : l[i]? = some l[i] := List.getElem?_eq_getElem hi
      have := hmin i hi hi0 hpar
      rwa [keyAt_eq hpos, keyAt_eq hi', ← keyAt_eq (d := item.key) hi']
    · rw [hr, ok_bind]
      simp only [if_neg hne, ho']
      have hset' : (h.place pos other).array.set p item = (l.set pos other).set p item := by
        rw [place_array, ← hset, List.set_set]
      have hs' (d : KeyT) : Sinking K ((l.set pos other).set p item).length
          (keyAt d ((l.set pos other).set p item)) p := by
        rw [keyAt_swap hpos ho, (perm_swap hpos ho).length_eq]
        refine (hs d).swap hlt h0 hpar ?_ fun i hi hi0 hpi ↦ ?_
        · rw [keyAt_eq hpos, keyAt_eq ho]
          exact hk.le
        · have hi' : l[i]? = some l[i] := List.getElem?_eq_getElem hi
          have := hmin i hi hi0 hpi
          rwa [keyAt_eq ho, keyAt_eq hi', ← keyAt_eq (d := item.key) hi']
      have hpos' : ((l.set pos other).set p item)[p]? = some item := by
        rw [getElem?_swap hpos ho, Equiv.swap_apply_right, hpos]
      have hf' : ((l.set pos other).set p item).length ≤ p + fuel := by
        have : pos < p := hpar ▸ parent_lt h0
        rw [(perm_swap hpos ho).length_eq]
        omega
      obtain ⟨h', hrun, hv, hperm⟩ := ih hset' hpos' (hl.swap hpos ho hne) hs' hf'
      exact ⟨h', hrun, hv, hperm.trans (perm_swap hpos ho)⟩

/-! ## Heaps with one item out of order -/

omit [DecidableEq Node] [LinearOrder KeyT] in
theorem set_self (hpos : l[pos]? = some item) : l.set pos item = l := by
  obtain ⟨hlt, rfl⟩ := List.getElem?_eq_some_iff.1 hpos
  exact List.set_getElem_self hlt

theorem fixUp_spec (hpos : h.array[pos]? = some item) (hl : Located h.array pos h.pos)
    (hr : ∀ d, Rising K h.array.length (keyAt d h.array) pos) :
    ∃ h', h.fixUp K pos = .ok h' ∧ Valid K h' ∧ h'.array.Perm h.array := by
  rw [fixUp, hpos]
  exact fixUpLoop_spec (set_self hpos) hpos hl hr (Nat.lt_succ_self _)

theorem fixDown_spec (hK : 0 < K) (hpos : h.array[pos]? = some item)
    (hl : Located h.array pos h.pos)
    (hs : ∀ d, Sinking K h.array.length (keyAt d h.array) pos) :
    ∃ h', h.fixDown K pos = .ok h' ∧ Valid K h' ∧ h'.array.Perm h.array := by
  rw [fixDown, hpos]
  exact fixDownLoop_spec hK (set_self hpos) hpos hl hs (Nat.le_add_left _ _)

omit [DecidableEq Node] in
theorem Valid.located (hv : Valid K h) (pos : ℕ) : Located h.array pos h.pos :=
  ⟨hv.nodup, fun i item hi _ ↦ hv.pos i item hi, hv.out⟩

/-- After `fix_down` of any item `fix_up` makes the heap whole again. -/
theorem fixDown_fixUp_spec (hK : 0 < K) (hpos : h.array[pos]? = some item)
    (hl : Located h.array pos h.pos)
    (hs : ∀ d, Loose K h.array.length (keyAt d h.array) pos) :
    ∃ h', (h.fixDown K pos >>= fun h ↦ h.fixUp K pos) = .ok h' ∧ Valid K h' ∧
      h'.array.Perm h.array := by
  have hlt := (List.getElem?_eq_some_iff.1 hpos).1
  obtain ⟨p, k, hr, ⟨rfl, hmin⟩ | ⟨hplt, h0, hpar, hne, other, ho, -, hk, hmin⟩⟩ :=
    nextPos_children hK (set_self hpos) hpos item.key
  · -- the item stays, and may have to go up
    have hdown : h.fixDown K p = .ok (h.place p item) := by
      obtain ⟨n, hn⟩ := Nat.exists_eq_add_one_of_ne_zero (Nat.ne_of_gt (Nat.zero_lt_of_lt hlt))
      rw [fixDown, hpos]
      change fixDownLoop K item h.array.length p h = _
      rw [hn, fixDownLoop, hr, ok_bind]
      simp
    have harr : (h.place p item).array = h.array := by rw [place_array, set_self hpos]
    have hl' : Located (h.place p item).array p (h.place p item).pos := by
      rw [harr]
      exact ⟨hl.nodup, fun i item' hi _ ↦ place_pos hl.nodup hpos hl.pos i item' hi,
        place_out hpos hl.out⟩
    have hrise (d : KeyT) :
        Rising K (h.place p item).array.length (keyAt d (h.place p item).array) p := by
      rw [harr]
      refine (hs d).rising fun i hi hi0 hpi ↦ ?_
      have hi' : h.array[i]? = some h.array[i] := List.getElem?_eq_getElem hi
      have := hmin i hi hi0 hpi
      rwa [keyAt_eq hpos, keyAt_eq hi', ← keyAt_eq (d := item.key) hi']
    obtain ⟨h', hup, hv, hperm⟩ := fixUp_spec (by rw [harr, hpos]) hl' hrise
    exact ⟨h', by rw [hdown, ok_bind, hup], hv, harr ▸ hperm⟩
  · -- a child is less than the item: so is the parent
    have hsink (d : KeyT) : Sinking K h.array.length (keyAt d h.array) pos := by
      refine (hs d).sinking fun hp0 ↦ ?_
      refine ((hs d).skips p hplt h0 hpar hp0).trans ?_
      rw [keyAt_eq ho, keyAt_eq hpos]
      exact hk.le
    obtain ⟨h₁, hdown, hv, hperm⟩ := fixDown_spec hK hpos hl hsink
    obtain ⟨node₁, hpos₁⟩ : ∃ node₁, h₁.array[pos]? = some node₁ :=
      ⟨_, List.getElem?_eq_getElem (hperm.length_eq.symm ▸ hlt)⟩
    obtain ⟨h', hup, hv', hperm'⟩ := fixUp_spec hpos₁ (hv.located pos)
      fun d ↦ (hv.ordered d).rising pos
    exact ⟨h', by rw [hdown, ok_bind, hup], hv', hperm'.trans hperm⟩

/-! ## Operations -/

omit [DecidableEq Node] in
theorem Valid.init : Valid K ({} : KHeap KeyT Node) where
  ordered _ _ hi := absurd hi (Nat.not_lt_zero _)
  nodup := List.nodup_nil
  pos _ _ hi := by simp at hi
  out _ _ := rfl

/-- `erase` of a position takes its item out. -/
theorem Valid.erasePos (hK : 0 < K) (hv : Valid K h) (hpos : h.array[pos]? = some item) :
    ∃ h', (h.remove item.node).erasePos K pos = .ok h' ∧ Valid K h' ∧
      h.array.Perm (item :: h'.array) := by
  have hlt := (List.getElem?_eq_some_iff.1 hpos).1
  obtain ⟨last, hlast⟩ : ∃ last, h.array.getLast? = some last := by
    rw [List.getLast?_eq_some_getLast (List.ne_nil_of_length_pos (Nat.zero_lt_of_lt hlt))]
    exact ⟨_, rfl⟩
  have hperm := perm_cons_set_dropLast hpos hlast
  let h₁ : KHeap KeyT Node :=
    { h.remove item.node with array := (h.array.set pos last).dropLast }
  have hlen : h₁.array.length = h.array.length - 1 := by simp [h₁]
  have hget {i : ℕ} {item' : Item KeyT Node} (hi : h₁.array[i]? = some item') (hne : i ≠ pos) :
      h.array[i]? = some item' := by
    rw [List.getElem?_dropLast, List.getElem?_set_ne hne.symm] at hi
    split_ifs at hi
    exact hi
  have hnodes := (hperm.map Item.node).nodup_iff.1 hv.nodup
  rw [List.map_cons, List.nodup_cons] at hnodes
  have hl : Located h₁.array pos h₁.pos :=
    { nodup := hnodes.2
      pos := by
        intro i item' hi hne
        have hi' := hget hi hne
        rw [← hv.pos i item' hi']
        exact Function.update_of_ne (node_ne hv.nodup hi' hpos hne) _ _
      out := by
        intro node hn
        by_cases he : node = item.node
        · rw [he]
          exact Function.update_self _ _ _
        · have hn' : node ∉ h.array.map Item.node := by
            rw [(hperm.map Item.node).mem_iff, List.map_cons, List.mem_cons, not_or]
            exact ⟨he, hn⟩
          rw [← hv.out node hn']
          exact Function.update_of_ne he _ _ }
  have hkey (d : KeyT) : ∀ i < h₁.array.length, i ≠ pos →
      keyAt d h₁.array i = keyAt d h.array i := by
    intro i hi hne
    have hi' : h₁.array[i]? = some h₁.array[i] := List.getElem?_eq_getElem hi
    rw [keyAt_eq hi', keyAt_eq (hget hi' hne)]
  have hold (d : KeyT) : Ordered K h₁.array.length (keyAt d h.array) :=
    fun i hi h0 ↦ hv.ordered d i (by omega) h0
  have herase : (h.remove item.node).erasePos K pos =
      if pos < h₁.array.length then h₁.fixDown K pos >>= fun h ↦ h.fixUp K pos else .ok h₁ := by
    have : (h.remove item.node).array.getLast? = some last := hlast
    rw [KHeap.erasePos, this]
    rfl
  rw [herase]
  split_ifs with hin
  · have hpos₁ : h₁.array[pos]? = some h₁.array[pos] := List.getElem?_eq_getElem hin
    obtain ⟨h', hr, hv', hp⟩ := fixDown_fixUp_spec hK hpos₁ hl fun d ↦ (hold d).loose (hkey d)
    exact ⟨h', hr, hv', hperm.trans (hp.symm.cons _)⟩
  · refine ⟨h₁, rfl, ⟨fun d ↦ (hold d).congr fun i hi ↦ hkey d i hi (by omega), hnodes.2, ?_,
      hl.out⟩, hperm⟩
    intro i item' hi
    have := (List.getElem?_eq_some_iff.1 hi).1
    exact hl.pos i item' hi (by omega)

/-- `insert` puts a new item in. -/
theorem Valid.insert (hv : Valid K h) (key : KeyT) {node : Node} (hn : ¬h.Mem node) :
    ∃ h', h.insert K key node = .ok h' ∧ Valid K h' ∧
      h'.array.Perm (⟨key, node⟩ :: h.array) := by
  have hnot : node ∉ h.array.map Item.node := fun hm ↦ hn (by
    obtain ⟨item, hi, he⟩ := List.mem_map.1 hm
    exact ⟨item, hi, he⟩)
  have hin : h.inHeap node = false := by simp [inHeap, hv.out node hnot]
  let h₁ : KHeap KeyT Node := { h with array := h.array ++ [⟨key, node⟩] }
  have hlen : h₁.array.length = h.array.length + 1 := by simp [h₁]
  have hpos : h₁.array[h.array.length]? = some ⟨key, node⟩ := by simp [h₁]
  have hget {i : ℕ} (hi : i < h.array.length) : h₁.array[i]? = h.array[i]? :=
    List.getElem?_append_left hi
  have hmap : h₁.array.map Item.node = h.array.map Item.node ++ [node] := by simp [h₁]
  have hl : Located h₁.array h.array.length h₁.pos :=
    { nodup := by
        rw [hmap, ← List.concat_eq_append]
        exact List.Nodup.concat hnot hv.nodup
      pos := by
        intro i item hi hne
        have := (List.getElem?_eq_some_iff.1 hi).1
        rw [hget (by omega)] at hi
        exact hv.pos i item hi
      out := by
        intro node' hn'
        rw [hmap, List.mem_append, not_or] at hn'
        exact hv.out node' hn'.1 }
  have hr (d : KeyT) : Rising K h₁.array.length (keyAt d h₁.array) h.array.length := by
    have hkey {i : ℕ} (hi : i < h.array.length) : keyAt d h₁.array i = keyAt d h.array i := by
      rw [keyAt, keyAt, hget hi]
    constructor
    · intro i hi h0 hne
      have hlt : i < h.array.length := by omega
      rw [hkey hlt, hkey ((parent_lt h0).trans hlt)]
      exact hv.ordered d i hlt h0
    · intro i hi h0 hpar _
      have := parent_lt (K := K) h0
      omega
  obtain ⟨h', hrun, hv', hperm⟩ := fixUp_spec hpos hl hr
  refine ⟨h', ?_, hv', hperm.trans List.perm_append_comm⟩
  rw [KHeap.insert, hin]
  exact hrun

/-- A position is found again as long as it is an `int32`. -/
theorem toSize_ofNat {n : ℕ} (h : n < 2 ^ 31) : toSize (Int32.ofNat n) = n := by
  rw [toSize, Int32.toInt_ofNat_of_lt h]
  omega

omit [DecidableEq Node] in
theorem Valid.toSize_pos (hv : Valid K h) (hsize : h.array.length ≤ 2 ^ 31)
    (hpos : h.array[pos]? = some item) : toSize (h.pos item.node) = pos := by
  rw [hv.pos pos item hpos]
  exact toSize_ofNat (lt_of_lt_of_le (List.getElem?_eq_some_iff.1 hpos).1 hsize)

omit [DecidableEq Node] [LinearOrder KeyT] in
theorem Mem.exists_pos {node : Node} (hn : h.Mem node) :
    ∃ pos : ℕ, ∃ item : Item KeyT Node, h.array[pos]? = some item ∧ item.node = node := by
  obtain ⟨item, hi, he⟩ := hn
  obtain ⟨pos, hpos⟩ := List.mem_iff_getElem?.1 hi
  exact ⟨pos, item, hpos, he⟩

theorem Valid.erase (hK : 0 < K) (hv : Valid K h) (hsize : h.array.length ≤ 2 ^ 31) {node : Node}
    (hn : h.Mem node) :
    ∃ h' item, h.erase K node = .ok h' ∧ Valid K h' ∧ item.node = node ∧
      h.array.Perm (item :: h'.array) := by
  obtain ⟨pos, item, hpos, rfl⟩ := hn.exists_pos
  obtain ⟨h', hr, hv', hp⟩ := hv.erasePos hK hpos
  refine ⟨h', item, ?_, hv', rfl, hp⟩
  rw [KHeap.erase, hv.toSize_pos hsize hpos]
  exact (if_pos (List.getElem?_eq_some_iff.1 hpos).1).trans hr

/-- `pop` takes out an item with the least key. -/
theorem Valid.pop (hK : 0 < K) (hv : Valid K h) (hne : h.array ≠ []) :
    ∃ h' item, h.pop K = .ok (item.node, h') ∧ Valid K h' ∧ h.array.Perm (item :: h'.array) ∧
      h.topKey = some item.key ∧ ∀ other ∈ h.array, item.key ≤ other.key := by
  cases ha : h.array with
  | nil => exact absurd ha hne
  | cons item rest =>
    have hpos : h.array[0]? = some item := by rw [ha, List.getElem?_cons_zero]
    obtain ⟨h', hr, hv', hp⟩ := hv.erasePos hK hpos
    refine ⟨h', item, ?_, hv', ha ▸ hp, by rw [topKey, ha]; rfl, ?_⟩
    · rw [KHeap.pop, ha]
      simp only [hr, ok_bind, pure_eq_ok]
    · intro other ho
      rw [← ha] at ho
      obtain ⟨i, hi⟩ := List.mem_iff_getElem?.1 ho
      have := (hv.ordered item.key).zero_le (List.getElem?_eq_some_iff.1 hi).1
      rwa [keyAt_eq hpos, keyAt_eq hi] at this

/-- `fix` gives an item another key. -/
theorem Valid.fix (hK : 0 < K) (hv : Valid K h) (hsize : h.array.length ≤ 2 ^ 31) (key : KeyT)
    {node : Node} (hn : h.Mem node) :
    ∃ h' old rest, h.fix K key node = .ok h' ∧ Valid K h' ∧ old.node = node ∧
      h.array.Perm (old :: rest) ∧ h'.array.Perm (⟨key, node⟩ :: rest) := by
  obtain ⟨pos, old, hpos, rfl⟩ := hn.exists_pos
  have hlt := (List.getElem?_eq_some_iff.1 hpos).1
  let h₁ : KHeap KeyT Node := { h with array := h.array.set pos { old with key := key } }
  have hlen : h₁.array.length = h.array.length := List.length_set
  have hpos₁ : h₁.array[pos]? = some ⟨key, old.node⟩ := List.getElem?_set_self hlt
  have hget {i : ℕ} (hne : i ≠ pos) : h₁.array[i]? = h.array[i]? := List.getElem?_set_ne hne.symm
  have hnodes : h₁.array.map Item.node = h.array.map Item.node := by
    rw [List.map_set]
    refine List.ext_getElem? fun i ↦ ?_
    rw [List.getElem?_set, List.getElem?_map]
    split_ifs with hi hi'
    · rw [← hi, hpos]
      rfl
    · rw [← hi, hpos, List.length_map] at *
      exact absurd hlt hi'
    · rfl
  have hl : Located h₁.array pos h₁.pos :=
    { nodup := hnodes ▸ hv.nodup
      pos := fun i item hi hne ↦ hv.pos i item ((hget hne).symm.trans hi)
      out := fun node hn ↦ hv.out node (hnodes ▸ hn) }
  have hloose (d : KeyT) : Loose K h₁.array.length (keyAt d h₁.array) pos := by
    rw [hlen]
    refine (hv.ordered d).loose fun i _ hne ↦ ?_
    rw [keyAt, keyAt, hget hne]
  have hrun : h.fix K key old.node =
      if key < old.key then h₁.fixUp K pos else h₁.fixDown K pos := by
    rw [KHeap.fix, hv.toSize_pos hsize hpos]
    simp only [hpos]
    rfl
  have hspec : ∃ h', h.fix K key old.node = .ok h' ∧ Valid K h' ∧ h'.array.Perm h₁.array := by
    rw [hrun]
    split_ifs with hk
    · refine fixUp_spec hpos₁ hl fun d ↦ (hloose d).rising fun i hi h0 hpar ↦ ?_
      have hne : i ≠ pos := (hpar ▸ parent_lt h0 : pos < i).ne'
      have hord := hv.ordered d i (hlen ▸ hi) h0
      rw [hpar, keyAt_eq hpos] at hord
      rw [keyAt_eq hpos₁, keyAt, hget hne]
      exact hk.le.trans hord
    · refine fixDown_spec hK hpos₁ hl fun d ↦ (hloose d).sinking fun h0 ↦ ?_
      have hord := hv.ordered d pos hlt h0
      rw [keyAt_eq hpos] at hord
      rw [keyAt_eq hpos₁, keyAt, hget (parent_lt h0).ne]
      exact hord.trans (not_lt.1 hk)
  obtain ⟨h', hr, hv', hp⟩ := hspec
  have hset (item : Item KeyT Node) : (h.array.set pos item).Perm
      (item :: (h.array.take pos ++ h.array.drop (pos + 1))) := by
    rw [List.set_eq_take_append_cons_drop, if_pos hlt]
    exact List.perm_middle
  refine ⟨h', old, _, hr, hv', rfl, ?_, hp.trans (hset _)⟩
  have := hset old
  rwa [set_self hpos] at this

/-- A greatest key stays where it is put. -/
theorem insert_of_lt {key : KeyT} {node : Node} (hin : h.inHeap node = false)
    (hlt : ∀ item ∈ h.array, item.key < key) :
    h.insert K key node =
      .ok (place { h with array := h.array ++ [⟨key, node⟩] } h.array.length ⟨key, node⟩) := by
  have hget : (h.array ++ [(⟨key, node⟩ : Item KeyT Node)])[h.array.length]? = some ⟨key, node⟩ :=
    List.getElem?_concat_length
  rw [KHeap.insert, hin]
  simp only [Bool.false_eq_true, if_false, fixUp, hget]
  rw [fixUpLoop]
  split_ifs with h0
  · rfl
  · have hparent : (h.array.length - 1) / K < h.array.length :=
      KaryHeap.parent_lt (Nat.pos_of_ne_zero h0)
    have hitem := List.getElem?_eq_getElem hparent
    simp only [List.getElem?_append_left hparent, hitem, if_pos (hlt _ (List.getElem_mem hparent))]

/-! ## Other positions -/

section Positions

variable {h₁ : KHeap KeyT Node} {p : Node → Int32}

theorem fixUpLoop_pos (hrun : fixUpLoop K item fuel pos h = .ok h₁) :
    ∃ q, fixUpLoop K item fuel pos { h with pos := p } = .ok { h₁ with pos := q } := by
  induction fuel generalizing pos h p with
  | zero => cases hrun
  | succ fuel ih =>
    rw [fixUpLoop] at hrun ⊢
    by_cases h0 : pos = 0
    · rw [if_pos h0] at hrun ⊢
      obtain rfl := Except.ok.inj hrun
      exact ⟨_, rfl⟩
    · rw [if_neg h0] at hrun ⊢
      dsimp only at hrun ⊢
      cases hparent : h.array[(pos - 1) / K]? with
      | none =>
        rw [hparent] at hrun
        cases hrun
      | some parentItem =>
        rw [hparent] at hrun
        dsimp only at hrun ⊢
        split_ifs at hrun ⊢ with hlt
        · obtain rfl := Except.ok.inj hrun
          exact ⟨_, rfl⟩
        · exact ih hrun

omit [DecidableEq Node] in
theorem nextPos_pos (next : ℕ × KeyT) (is : List ℕ) :
    KHeap.nextPos { h with pos := p } next is = h.nextPos next is := by
  induction is generalizing next with
  | nil => rfl
  | cons i is ih =>
    rw [nextPos, nextPos]
    cases h.array[i]? with
    | none => rfl
    | some item => exact ih _

theorem fixDownLoop_pos (hrun : fixDownLoop K item fuel pos h = .ok h₁) :
    ∃ q, fixDownLoop K item fuel pos { h with pos := p } = .ok { h₁ with pos := q } := by
  induction fuel generalizing pos h p with
  | zero => cases hrun
  | succ fuel ih =>
    rw [fixDownLoop] at hrun ⊢
    rw [nextPos_pos]
    obtain ⟨⟨next, key⟩, hnext, hrest⟩ := bind_eq_ok.1 hrun
    dsimp only at hrest ⊢
    rw [hnext, ok_bind]
    dsimp only
    split_ifs at hrest ⊢ with heq
    · obtain rfl := Except.ok.inj hrest
      exact ⟨_, rfl⟩
    · cases hitem : h.array[next]? with
      | none =>
        rw [hitem] at hrest
        cases hrest
      | some nextItem =>
        rw [hitem] at hrest
        exact ih hrest

/-- What `erase` makes of the items does not depend on the positions. -/
theorem erasePos_pos (hrun : h.erasePos K pos = .ok h₁) :
    ∃ q, KHeap.erasePos K { h with pos := p } pos = .ok { h₁ with pos := q } := by
  rw [erasePos] at hrun ⊢
  dsimp only at hrun ⊢
  cases hlast : h.array.getLast? with
  | none =>
    rw [hlast] at hrun
    cases hrun
  | some last =>
    rw [hlast] at hrun
    dsimp only at hrun ⊢
    split_ifs at hrun ⊢ with hlt
    · obtain ⟨h₂, hdown, hup⟩ := bind_eq_ok.1 hrun
      rw [fixDown] at hdown ⊢
      dsimp only at hdown ⊢
      cases hitem : (h.array.set pos last).dropLast[pos]? with
      | none =>
        rw [hitem] at hdown
        cases hdown
      | some item =>
        rw [hitem] at hdown
        obtain ⟨q, hq⟩ := fixDownLoop_pos (p := p) hdown
        dsimp only at hq ⊢
        rw [hq, ok_bind]
        rw [fixUp] at hup ⊢
        dsimp only at hup ⊢
        cases hitem' : h₂.array[pos]? with
        | none =>
          rw [hitem'] at hup
          cases hup
        | some item' =>
          rw [hitem'] at hup
          exact fixUpLoop_pos hup
    · obtain rfl := Except.ok.inj hrun
      exact ⟨_, rfl⟩

end Positions

/-! ## The top -/

omit [DecidableEq Node] in
theorem Valid.inHeap_iff (hv : Valid K h) (hsize : h.array.length ≤ 2 ^ 31) {node : Node} :
    h.inHeap node = true ↔ h.Mem node := by
  constructor
  · intro hin
    by_contra hn
    have hout : node ∉ h.array.map Item.node := by
      intro hm
      obtain ⟨item, hi, he⟩ := List.mem_map.1 hm
      exact hn ⟨item, hi, he⟩
    simp [inHeap, hv.out node hout] at hin
  · intro hn
    obtain ⟨pos, item, hpos, rfl⟩ := hn.exists_pos
    have hlt := (List.getElem?_eq_some_iff.1 hpos).1
    have htoInt : (Int32.ofNat pos).toInt = pos :=
      Int32.toInt_ofNat_of_lt (lt_of_lt_of_le hlt hsize)
    refine decide_eq_true fun he ↦ ?_
    rw [hv.pos pos item hpos] at he
    rw [he] at htoInt
    change (-1 : ℤ) = pos at htoInt
    omega

omit [DecidableEq Node] in
/-- Up to `2 ^ 32` nodes only the first one has the position zero. -/
theorem Valid.isTop_iff (hv : Valid K h) (hsize : h.array.length ≤ 2 ^ 32) {node : Node} :
    h.isTop node = true ↔ ∃ item, h.array.head? = some item ∧ item.node = node := by
  constructor
  · intro htop
    have hpos : h.pos node = 0 := of_decide_eq_true htop
    have hm : node ∈ h.array.map Item.node := by
      by_contra hout
      rw [hv.out node hout] at hpos
      cases hpos
    obtain ⟨item, hitem, rfl⟩ := List.mem_map.1 hm
    obtain ⟨i, hi⟩ := List.mem_iff_getElem?.1 hitem
    have hlt := (List.getElem?_eq_some_iff.1 hi).1
    rw [hv.pos i item hi] at hpos
    have hmod : (Int32.ofNat i).toUInt32.toNat = i % 2 ^ 32 := rfl
    rw [hpos, Nat.mod_eq_of_lt (hlt.trans_le hsize)] at hmod
    change 0 = i at hmod
    subst hmod
    exact ⟨item, by rw [List.head?_eq_getElem?, hi], rfl⟩
  · rintro ⟨item, hhead, rfl⟩
    rw [List.head?_eq_getElem?] at hhead
    exact decide_eq_true (hv.pos 0 item hhead)

omit [DecidableEq Node] in
/-- The top has the least key. -/
theorem Valid.top_le (hv : Valid K h) (htop : h.array.head? = some item)
    (hother : other ∈ h.array) : item.key ≤ other.key := by
  rw [List.head?_eq_getElem?] at htop
  obtain ⟨i, hi⟩ := List.mem_iff_getElem?.1 hother
  have := (hv.ordered item.key).zero_le (List.getElem?_eq_some_iff.1 hi).1
  rwa [keyAt_eq htop, keyAt_eq hi] at this

omit [DecidableEq Node] in
/-- Two heaps have one least key if each has the item on the top of the other one. -/
theorem Valid.topKey_eq {h' : KHeap KeyT Node} (hv : Valid K h) (hv' : Valid K h')
    (htop : h.array.head? = some item) (htop' : h'.array.head? = some other)
    (hitem : item ∈ h'.array) (hother : other ∈ h.array) : h'.topKey = h.topKey := by
  rw [topKey, topKey, htop, htop']
  exact congrArg some (le_antisymm (hv'.top_le htop' hitem) (hv.top_le htop hother))

omit [DecidableEq Node] in
/-- The least key stays if the items of one node change, and this node is and was not on the top. -/
theorem Valid.topKey_eq_of_isTop_eq_false {h' : KHeap KeyT Node} (olds news : List (Item KeyT Node))
    {rest : List (Item KeyT Node)} {node : Node}
    (hv : Valid K h) (hv' : Valid K h') (hsize : h.array.length ≤ 2 ^ 32)
    (hsize' : h'.array.length ≤ 2 ^ 32) (hperm : h.array.Perm (olds ++ rest))
    (hperm' : h'.array.Perm (news ++ rest)) (holds : ∀ item ∈ olds, item.node = node)
    (hnews : ∀ item ∈ news, item.node = node) (htop : h.isTop node = false)
    (htop' : h'.isTop node = false) : h'.topKey = h.topKey := by
  have hrest {item : Item KeyT Node} (hitem : h.array.head? = some item) : item ∈ rest := by
    refine (List.mem_append.1 (hperm.mem_iff.1 (List.mem_of_head? hitem))).resolve_left
      fun hold ↦ ?_
    rw [(hv.isTop_iff hsize).2 ⟨item, hitem, holds item hold⟩] at htop
    cases htop
  have hrest' {item : Item KeyT Node} (hitem : h'.array.head? = some item) : item ∈ rest := by
    refine (List.mem_append.1 (hperm'.mem_iff.1 (List.mem_of_head? hitem))).resolve_left
      fun hnew ↦ ?_
    rw [(hv'.isTop_iff hsize').2 ⟨item, hitem, hnews item hnew⟩] at htop'
    cases htop'
  cases hhead : h.array.head? with
  | none =>
    cases hhead' : h'.array.head? with
    | none => rw [topKey, topKey, hhead, hhead']
    | some other =>
      have hother := hperm.mem_iff.2 (List.mem_append_right _ (hrest' hhead'))
      rw [List.head?_eq_none_iff.1 hhead] at hother
      cases hother
  | some item =>
    have hitem := hperm'.mem_iff.2 (List.mem_append_right _ (hrest hhead))
    cases hhead' : h'.array.head? with
    | none =>
      rw [List.head?_eq_none_iff.1 hhead'] at hitem
      cases hitem
    | some other =>
      exact hv.topKey_eq hv' hhead hhead' hitem
        (hperm.mem_iff.2 (List.mem_append_right _ (hrest' hhead')))

/-! ## Runs -/

/-- What an operation does to the items, and which node it returns. -/
def Effect (h h' : KHeap KeyT Node) : Op KeyT Node → Option Node → Prop
  | .insert key node, result => result = none ∧ h'.array.Perm (⟨key, node⟩ :: h.array)
  | .fix key node, result => result = none ∧ ∃ old rest, old.node = node ∧
      h.array.Perm (old :: rest) ∧ h'.array.Perm (⟨key, node⟩ :: rest)
  | .erase node, result => result = none ∧ ∃ item, item.node = node ∧
      h.array.Perm (item :: h'.array)
  | .pop, result => ∃ item, result = some item.node ∧ h.array.Perm (item :: h'.array) ∧
      h.topKey = some item.key ∧ ∀ other ∈ h.array, item.key ≤ other.key

variable (K) in
/-- A heap in order: parents are not above their children, nodes know their positions and have none
outside, and the next operation that may be called returns with its effect. -/
structure Sound (h : KHeap KeyT Node) : Prop where
  order : ∀ i item parent, 0 < i → h.array[i]? = some item → h.array[(i - 1) / K]? = some parent →
    parent.key ≤ item.key
  pos : ∀ (i : ℕ) (item : Item KeyT Node), h.array[i]? = some item → (h.pos item.node).toInt = i
  out : ∀ node, ¬h.Mem node → h.inHeap node = false
  nodup : (h.array.map Item.node).Nodup
  returns : ∀ op, h.Allows op → ∃ result h', h.step K op = .ok (result, h') ∧ h.Effect h' op result

theorem Valid.step (hK : 0 < K) (hv : Valid K h) (hsize : h.array.length ≤ 2 ^ 31)
    {op : Op KeyT Node} (ha : h.Allows op) :
    ∃ result h', h.step K op = .ok (result, h') ∧ Valid K h' ∧ h.Effect h' op result := by
  cases op with
  | insert key node =>
    obtain ⟨h', hr, hv', hp⟩ := hv.insert key ha
    exact ⟨none, h', by rw [KHeap.step, hr]; rfl, hv', rfl, hp⟩
  | fix key node =>
    obtain ⟨h', old, rest, hr, hv', hn, hp, hp'⟩ := hv.fix hK hsize key ha
    exact ⟨none, h', by rw [KHeap.step, hr]; rfl, hv', rfl, old, rest, hn, hp, hp'⟩
  | erase node =>
    obtain ⟨h', item, hr, hv', hn, hp⟩ := hv.erase hK hsize ha
    exact ⟨none, h', by rw [KHeap.step, hr]; rfl, hv', rfl, item, hn, hp⟩
  | pop =>
    obtain ⟨h', item, hr, hv', hp, hk, hmin⟩ := hv.pop hK ha
    exact ⟨some item.node, h', by rw [KHeap.step, hr]; rfl, hv', item, rfl, hp, hk, hmin⟩

theorem Reachable.valid (hK : 0 < K) (hr : Reachable K {n | n ≤ 2 ^ 31} h) :
    Valid K h ∧ h.array.length ≤ 2 ^ 31 := by
  induction hr with
  | init => exact ⟨.init, Nat.zero_le _⟩
  | step _ ha hs hn ih =>
    obtain ⟨result, h', hr, hv, -⟩ := ih.1.step hK ih.2 ha
    obtain ⟨-, rfl⟩ := Prod.mk.inj (Except.ok.inj (hr.symm.trans hs))
    exact ⟨hv, hn⟩

/-- The nodes `0`, …, `n - 1` in order, each with its number as its key. -/
def ascending (n : ℕ) : KHeap ℕ ℕ where
  array := (List.range n).map fun i ↦ ⟨i, i⟩
  pos i := if i < n then Int32.ofNat i else -1

theorem ascending_getElem? {n i : ℕ} (hi : i < n) : (ascending n).array[i]? = some ⟨i, i⟩ := by
  rw [ascending, List.getElem?_map, List.getElem?_range hi]
  rfl

theorem ascending_insert {K : ℕ} (n : ℕ) :
    (ascending n).insert K n n = .ok (ascending (n + 1)) := by
  have hin : (ascending n).inHeap n = false := by simp [inHeap, ascending]
  have harr : (ascending n).array ++ [⟨n, n⟩] = (ascending (n + 1)).array := by
    simp [ascending, List.range_succ]
  have hlen : (ascending n).array.length = n := by simp [ascending]
  have hlt : ∀ item ∈ (ascending n).array, item.key < n := by
    intro item hitem
    obtain ⟨i, hi, rfl⟩ := List.mem_map.1 hitem
    exact List.mem_range.1 hi
  rw [insert_of_lt hin hlt, harr, hlen]
  refine congrArg Except.ok (congrArg₂ mk (set_self (ascending_getElem? n.lt_succ_self)) ?_)
  funext i
  rcases lt_trichotomy i n with hi | rfl | hi
  · simp [Function.update_of_ne hi.ne, ascending, hi, hi.trans n.lt_succ_self]
  · simp [ascending]
  · simp [Function.update_of_ne hi.ne', ascending, not_lt.2 hi.le,
      not_lt.2 (Nat.succ_le_of_lt hi)]

theorem ascending_reachable {sizes : Set ℕ} (n : ℕ) (hs : ∀ m ≤ n, m ∈ sizes) :
    Reachable 4 sizes (ascending n) := by
  induction n with
  | zero =>
    have h0 : ascending 0 = {} := congrArg₂ mk rfl (by funext i; simp)
    rw [h0]
    exact .init
  | succ n ih =>
    have hin : (ascending n).Allows (.insert n n) := by
      rintro ⟨item, hi, he⟩
      obtain ⟨i, hlt, rfl⟩ := List.mem_map.1 hi
      exact (List.mem_range.1 hlt).ne he
    have hstep : (ascending n).step 4 (.insert n n) = .ok (none, ascending (n + 1)) := by
      rw [step, ascending_insert]
      rfl
    have hsize : (ascending (n + 1)).array.length ∈ sizes := by
      rw [ascending, List.length_map, List.length_range]
      exact hs _ le_rfl
    exact (ih fun m hm ↦ hs m (hm.trans n.le_succ)).step hin hstep hsize

/-- As long as there are not more nodes in it than an `int32` can count, a heap is in order. -/
theorem reachable_sound (hK : 0 < K) (hr : Reachable K {n | n ≤ 2 ^ 31} h) : Sound K h := by
  obtain ⟨hv, hsize⟩ := hr.valid hK
  refine ⟨?_, ?_, ?_, hv.nodup, ?_⟩
  · intro i item parent h0 hi hp
    have := hv.ordered item.key i (List.getElem?_eq_some_iff.1 hi).1 h0
    rwa [keyAt_eq hi, KaryHeap.parent, keyAt_eq hp] at this
  · intro i item hi
    rw [hv.pos i item hi]
    exact Int32.toInt_ofNat_of_lt (lt_of_lt_of_le (List.getElem?_eq_some_iff.1 hi).1 hsize)
  · intro node hn
    have : node ∉ h.array.map Item.node := by
      intro hm
      obtain ⟨item, hi, he⟩ := List.mem_map.1 hm
      exact hn ⟨item, hi, he⟩
    simp [inHeap, hv.out node this]
  · intro op ha
    obtain ⟨result, h', hr, -, he⟩ := hv.step hK hsize ha
    exact ⟨result, h', hr, he⟩

theorem reachable_sound_three : 0 < 4 ∧ Sound 4 (ascending 3) :=
  ⟨by decide, reachable_sound (by decide)
    (ascending_reachable 3 fun m hm ↦ show m ≤ 2 ^ 31 by omega)⟩

/-- With one node more than that, a position is negative. -/
theorem position_overflows : ¬∀ h : KHeap ℕ ℕ, Reachable 4 Set.univ h → Sound 4 h := by
  intro hall
  have := (hall _ (ascending_reachable (2 ^ 31 + 1) fun _ _ ↦ trivial)).pos (2 ^ 31) _
    (ascending_getElem? (Nat.lt_succ_self _))
  simp [ascending] at this

end KHeap

end PxcCore
