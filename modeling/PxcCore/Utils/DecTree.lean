import PxcCore.Lib.KeyOrder
import PxcCore.Lib.Result

/-!
# DecTree

`DecTree.h`: a search tree by keys that is a heap by priorities.  A priority is drawn at random when
its key is inserted.
-/

namespace PxcCore

open Lib

/-- `DecTree::Node`, where `null` is the null pointer. -/
inductive DecTree (KeyType ValueType : Type) where
  | null
  | node (left right : DecTree KeyType ValueType) (size : ℕ) (key : KeyType) (value : ValueType)
    (y : UInt32)

namespace DecTree

variable {K V : Type} (C : KeyOrder K)

/-! ## Definitions -/

/-- `size` -/
def size : DecTree K V → ℕ
  | null => 0
  | node _ _ size _ _ _ => size

/-- `Node::relax`, of a node that is there. -/
def relax : DecTree K V → DecTree K V
  | null => null
  | node left right _ key value y => node left right (1 + left.size + right.size) key value y

/-- `create_node` -/
def createNode (key : K) (value : V) (y : UInt32) : DecTree K V := node null null 1 key value y

/-- `split_node` -/
def splitNode : DecTree K V → K → DecTree K V × DecTree K V
  | null, _ => (null, null)
  | node left right size k v y, key =>
    if C.less key k then
      let p := splitNode left key
      (p.1, relax (node p.2 right size k v y))
    else
      let p := splitNode right key
      (relax (node left p.1 size k v y), p.2)

/-- `merge_node` -/
def mergeNode : DecTree K V → DecTree K V → DecTree K V
  | null, right => right
  | node ll lr ls lk lv ly, null => node ll lr ls lk lv ly
  | node ll lr ls lk lv ly, node rl rr rs rk rv ry =>
    if ly < ry then relax (node (mergeNode (node ll lr ls lk lv ly) rl) rr rs rk rv ry)
    else relax (node ll (mergeNode lr (node rl rr rs rk rv ry)) ls lk lv ly)
termination_by left right => sizeOf left + sizeOf right

/-- `insert_node` -/
def insertNode : DecTree K V → K → V → UInt32 → DecTree K V
  | null, key, value, y => createNode key value y
  | node left right size k v y', key, value, y =>
    if y' < y then
      let p := splitNode C (node left right size k v y') key
      relax (node p.1 p.2 1 key value y)
    else if C.less key k then
      relax (node (insertNode left key value y) right size k v y')
    else if C.less k key then
      relax (node left (insertNode right key value y) size k v y')
    else relax (node left right size k v y')

/-- `remove_node` -/
def removeNode : DecTree K V → K → DecTree K V
  | null, _ => null
  | node left right size k v y, key =>
    if C.less key k then relax (node (removeNode left key) right size k v y)
    else if C.less k key then relax (node left (removeNode right key) size k v y)
    else relax (mergeNode left right)

/-- `get_node` -/
def getNode : DecTree K V → K → Option V
  | null, _ => none
  | node left right _ k v _, key =>
    if C.less key k then getNode left key
    else if C.less k key then getNode right key
    else some v

/-- `get_node_by_idx` -/
def getNodeByIdx : DecTree K V → ℕ → Except String V
  | null, _ => .error "CHECK(Tree != nullptr)"
  | node left right _ _ value _, idx =>
    let s := left.size
    if idx < s then getNodeByIdx left idx
    else if idx = s then .ok value
    else getNodeByIdx right (idx - s - 1)

/-- `exists` -/
def exists_ (t : DecTree K V) (key : K) : Bool := (t.getNode C key).isSome

/-- `get_random`, with what `Random::fast_uint32` returns. -/
def getRandom (t : DecTree K V) (random : UInt32) : Except String (Option V) :=
  if t.size = 0 then .ok none
  else do
    let value ← t.getNodeByIdx (random.toNat % t.size)
    return some value

/-- `insert` with the priority that it draws, and `remove`. -/
inductive Op (K V : Type) where
  | insert (key : K) (value : V) (y : UInt32)
  | remove (key : K)

def step (t : DecTree K V) : Op K V → DecTree K V
  | .insert key value y => t.insertNode C key value y
  | .remove key => t.removeNode C key

/-- The tree after these calls. -/
def run (ops : List (Op K V)) : DecTree K V := ops.foldl (step C) null

/-! ## What a tree stands for -/

/-- The keys with their values and priorities after a call. -/
def apply (m : K → Option (V × UInt32)) : Op K V → K → Option (V × UInt32)
  | .insert key value y => C.toKeyEq.emplace m key (value, y)
  | .remove key => C.toKeyEq.erase m key

/-- The keys after these calls: the first of some `insert`s counts. -/
def inserted (ops : List (Op K V)) : K → Option (V × UInt32) :=
  ops.foldl (apply C) fun _ ↦ none

/-- A key that is there already is inserted with a priority that is not greater than its own. -/
def Drawn (ops : List (Op K V)) : Prop :=
  ∀ before key value y after, ops = before ++ .insert key value y :: after →
    ∀ value' y', inserted C before key = some (value', y') → y ≤ y'

/-- The entries in the order of the tree. -/
def entries : DecTree K V → List (K × V × UInt32)
  | null => []
  | node left right _ key value y => left.entries ++ (key, value, y) :: right.entries

/-- No priority is less than one below it. -/
def HeapOrdered : DecTree K V → Prop
  | null => True
  | node left right _ _ _ y => left.HeapOrdered ∧ right.HeapOrdered ∧
      (∀ x ∈ left.entries, x.2.2 ≤ y) ∧ ∀ x ∈ right.entries, x.2.2 ≤ y

/-- Each size is the number of nodes below. -/
def Sized : DecTree K V → Prop
  | null => True
  | node left right size _ _ _ => left.Sized ∧ right.Sized ∧
      size = 1 + left.entries.length + right.entries.length

/-- The tree is in order and holds these keys. -/
structure Good (t : DecTree K V) (m : K → Option (V × UInt32)) : Prop where
  sorted : C.Sorted t.entries
  heap : t.HeapOrdered
  sized : t.Sized
  represents : C.toKeyEq.Represents (t.entries : Multiset (K × V × UInt32)) m
  get : ∀ key, t.getNode C key = (m key).map Prod.fst
  exists_eq : ∀ key, t.exists_ C key = (m key).isSome
  random : ∀ random, (t.entries = [] ∧ t.getRandom random = .ok none) ∨
    ∃ key value y, m key = some (value, y) ∧ t.getRandom random = .ok (some value)

variable {C} {t l r : DecTree K V} {key k : K} {value v : V} {y b : UInt32} {n : ℕ}
  {m : K → Option (V × UInt32)}

/-! ## Sizes -/

@[simp] theorem entries_null : (null : DecTree K V).entries = [] := rfl

@[simp] theorem entries_node :
    (node l r n k v y).entries = l.entries ++ (k, v, y) :: r.entries := rfl

@[simp] theorem entries_relax (t : DecTree K V) : t.relax.entries = t.entries := by
  cases t <;> rfl

theorem HeapOrdered.relax_node (hl : l.HeapOrdered) (hr : r.HeapOrdered)
    (hly : ∀ x ∈ l.entries, x.2.2 ≤ y) (hry : ∀ x ∈ r.entries, x.2.2 ≤ y) (n : ℕ) (k : K) (v : V) :
    (relax (node l r n k v y)).HeapOrdered :=
  ⟨hl, hr, hly, hry⟩

/-- The root has the greatest priority. -/
theorem HeapOrdered.le (h : (node l r n k v y).HeapOrdered) :
    ∀ x ∈ (node l r n k v y).entries, x.2.2 ≤ y := by
  obtain ⟨-, -, hl, hr⟩ := h
  intro x hx
  rw [entries_node, List.mem_append, List.mem_cons] at hx
  rcases hx with hx | rfl | hx
  · exact hl x hx
  · exact UInt32.le_refl y
  · exact hr x hx

@[simp] theorem heapOrdered_relax (t : DecTree K V) : t.relax.HeapOrdered ↔ t.HeapOrdered := by
  cases t <;> rfl

theorem Sized.size_eq (h : t.Sized) : t.size = t.entries.length := by
  cases t with
  | null => rfl
  | node left right size key value y =>
    obtain ⟨-, -, hsize⟩ := h
    rw [DecTree.size, hsize, entries_node, List.length_append, List.length_cons]
    omega

/-- `relax` computes the size from those of the children. -/
theorem Sized.relax_node (hl : l.Sized) (hr : r.Sized) (n : ℕ) (k : K) (v : V) (y : UInt32) :
    (relax (node l r n k v y)).Sized :=
  ⟨hl, hr, by rw [hl.size_eq, hr.size_eq]⟩

theorem Sized.relax (h : t.Sized) : t.relax.Sized := by
  cases t with
  | null => exact h
  | node left right size key value y => exact h.1.relax_node h.2.1 size key value y

/-! ## split_node -/

/-- `split_node` cuts the entries in two. -/
theorem entries_splitNode (t : DecTree K V) (key : K) :
    (t.splitNode C key).1.entries ++ (t.splitNode C key).2.entries = t.entries := by
  induction t with
  | null => rfl
  | node left right size k v y ihl ihr =>
    rw [splitNode]
    split_ifs
    · simp only [entries_relax, entries_node]
      rw [← List.append_assoc, ihl]
    · simp only [entries_relax, entries_node]
      rw [List.append_assoc, List.cons_append, ihr]

theorem mem_splitNode {x : K × V × UInt32} :
    x ∈ t.entries ↔
      x ∈ (t.splitNode C key).1.entries ∨ x ∈ (t.splitNode C key).2.entries := by
  rw [← entries_splitNode (C := C) t key, List.mem_append]

/-- The first part has the keys that are not greater. -/
theorem splitNode_sides (h : C.Sorted t.entries) (key : K) :
    (∀ x ∈ (t.splitNode C key).1.entries, ¬C.less key x.1 = true) ∧
      ∀ x ∈ (t.splitNode C key).2.entries, C.less key x.1 = true := by
  induction t with
  | null => simp [splitNode]
  | node left right size k v y ihl ihr =>
    obtain ⟨hleft, hright, hlk, hkr⟩ := KeyOrder.sorted_append_cons.1 h
    rw [splitNode]
    split_ifs with hless
    · obtain ⟨h₁, h₂⟩ := ihl hleft
      refine ⟨h₁, fun x hx ↦ ?_⟩
      rw [entries_relax, entries_node, List.mem_append, List.mem_cons] at hx
      rcases hx with hx | rfl | hx
      · exact h₂ x hx
      · exact hless
      · exact C.trans hless (hkr x hx)
    · obtain ⟨h₁, h₂⟩ := ihr hright
      refine ⟨fun x hx ↦ ?_, h₂⟩
      rw [entries_relax, entries_node, List.mem_append, List.mem_cons] at hx
      rcases hx with hx | rfl | hx
      · intro hx'
        exact hless (C.trans hx' (hlk x hx))
      · exact hless
      · exact h₁ x hx

theorem splitNode_heapOrdered (h : t.HeapOrdered) (key : K) :
    (t.splitNode C key).1.HeapOrdered ∧ (t.splitNode C key).2.HeapOrdered := by
  induction t with
  | null => exact ⟨trivial, trivial⟩
  | node left right size k v y ihl ihr =>
    obtain ⟨hl, hr, hly, hry⟩ := h
    rw [splitNode]
    split_ifs
    · refine ⟨(ihl hl).1, .relax_node (ihl hl).2 hr ?_ hry size k v⟩
      exact fun x hx ↦ hly x (mem_splitNode.2 (.inr hx))
    · refine ⟨.relax_node hl (ihr hr).1 hly ?_ size k v, (ihr hr).2⟩
      exact fun x hx ↦ hry x (mem_splitNode.2 (.inl hx))

theorem splitNode_sized (h : t.Sized) (key : K) :
    (t.splitNode C key).1.Sized ∧ (t.splitNode C key).2.Sized := by
  induction t with
  | null => exact ⟨trivial, trivial⟩
  | node left right size k v y ihl ihr =>
    obtain ⟨hl, hr, -⟩ := h
    rw [splitNode]
    split_ifs
    · exact ⟨(ihl hl).1, (ihl hl).2.relax_node hr size k v y⟩
    · exact ⟨hl.relax_node (ihr hr).1 size k v y, (ihr hr).2⟩

/-! ## merge_node -/

/-- `merge_node` puts the entries together. -/
theorem entries_mergeNode (left right : DecTree K V) :
    (left.mergeNode right).entries = left.entries ++ right.entries := by
  fun_induction mergeNode left right with
  | case1 right => rfl
  | case2 ll lr ls lk lv ly => exact (List.append_nil _).symm
  | case3 ll lr ls lk lv ly rl rr rs rk rv ry hless ih =>
    rw [entries_relax, entries_node, ih, List.append_assoc]
    rfl
  | case4 ll lr ls lk lv ly rl rr rs rk rv ry hless ih =>
    rw [entries_relax, entries_node, ih, entries_node (l := ll), List.append_assoc]
    rfl

theorem mergeNode_heapOrdered (hl : l.HeapOrdered) (hr : r.HeapOrdered) :
    (l.mergeNode r).HeapOrdered := by
  fun_induction mergeNode l r with
  | case1 right => exact hr
  | case2 ll lr ls lk lv ly => exact hl
  | case3 ll lr ls lk lv ly rl rr rs rk rv ry hless ih =>
    obtain ⟨hrl, hrr, hrly, hrry⟩ := hr
    refine .relax_node (ih hl hrl) hrr (fun x hx ↦ ?_) hrry rs rk rv
    rw [entries_mergeNode, List.mem_append] at hx
    rcases hx with hx | hx
    · exact UInt32.le_trans (hl.le x hx) (UInt32.le_of_lt hless)
    · exact hrly x hx
  | case4 ll lr ls lk lv ly rl rr rs rk rv ry hless ih =>
    obtain ⟨hll, hlr, hlly, hlry⟩ := hl
    refine .relax_node hll (ih hlr hr) hlly (fun x hx ↦ ?_) ls lk lv
    rw [entries_mergeNode, List.mem_append] at hx
    rcases hx with hx | hx
    · exact hlry x hx
    · exact UInt32.le_trans (hr.le x hx) (UInt32.not_lt.1 hless)

theorem mergeNode_sized (hl : l.Sized) (hr : r.Sized) : (l.mergeNode r).Sized := by
  fun_induction mergeNode l r with
  | case1 right => exact hr
  | case2 ll lr ls lk lv ly => exact hl
  | case3 ll lr ls lk lv ly rl rr rs rk rv ry hless ih =>
    exact (ih hl hr.1).relax_node hr.2.1 rs rk rv ry
  | case4 ll lr ls lk lv ly rl rr rs rk rv ry hless ih =>
    exact hl.1.relax_node (ih hl.2.1 hr) ls lk lv ly

/-! ## insert_node -/

/-- `insert_node` either meets the key and changes nothing, or it puts the key behind those that are
not greater, which happens if all entries of this key have a smaller priority. -/
theorem insertNode_cases (h : C.Sorted t.entries) (hheap : t.HeapOrdered) (key : K) (value : V)
    (y : UInt32) :
    (t.insertNode C key value y).entries = t.entries ∧
      (∃ x ∈ t.entries, C.toKeyEq.eq x.1 key = true ∧ y ≤ x.2.2) ∨
    ∃ front back, t.entries = front ++ back ∧
      (t.insertNode C key value y).entries = front ++ (key, value, y) :: back ∧
      (∀ x ∈ front, ¬C.less key x.1 = true) ∧ (∀ x ∈ back, C.less key x.1 = true) ∧
      ∀ x ∈ t.entries, C.toKeyEq.eq x.1 key = true → x.2.2 < y := by
  induction t with
  | null => exact .inr ⟨[], [], rfl, rfl, by simp, by simp, by simp⟩
  | node left right size k v y' ihl ihr =>
    obtain ⟨hleft, hright, -, -⟩ := KeyOrder.sorted_append_cons.1 h
    rw [insertNode]
    split_ifs with hy hless hgreater
    · obtain ⟨hfront, hback⟩ := splitNode_sides h key
      refine .inr ⟨_, _, (entries_splitNode _ key).symm, ?_, hfront, hback, ?_⟩
      · rw [entries_relax, entries_node]
      · exact fun x hx _ ↦ UInt32.lt_of_le_of_lt (hheap.le x hx) hy
    · rcases ihl hleft hheap.1 with ⟨heq, x, hx, hkey, hle⟩ | ⟨front, back, heq, heq', hfront,
        hback, hlt⟩
      · refine .inl ⟨?_, x, List.mem_append_left _ hx, hkey, hle⟩
        rw [entries_relax, entries_node, heq, entries_node]
      · refine .inr ⟨front, back ++ (k, v, y') :: right.entries, ?_, ?_, hfront, ?_, ?_⟩
        · rw [entries_node, heq, List.append_assoc]
        · rw [entries_relax, entries_node, heq', List.append_assoc, List.cons_append]
        · intro x hx
          exact (List.mem_append.1 hx).elim (hback x) (h.less_back hless x)
        · intro x hx hkey
          rcases List.mem_append.1 hx with hx | hx
          · exact hlt x hx hkey
          · exact absurd hkey (KeyOrder.not_eq' (h.less_back hless x hx))
    · rcases ihr hright hheap.2.1 with ⟨heq, x, hx, hkey, hle⟩ | ⟨front, back, heq, heq', hfront,
        hback, hlt⟩
      · refine .inl ⟨?_, x, List.mem_append_right _ (List.mem_cons_of_mem _ hx), hkey, hle⟩
        rw [entries_relax, entries_node, heq, entries_node]
      · have hbefore := h.less_front hgreater
        refine .inr ⟨left.entries ++ [(k, v, y')] ++ front, back, ?_, ?_, ?_, hback, ?_⟩
        · rw [entries_node, heq, List.append_cons, ← List.append_assoc]
        · rw [entries_relax, entries_node, heq', List.append_cons, ← List.append_assoc]
        · intro x hx
          rcases List.mem_append.1 hx with hx | hx
          · exact KeyOrder.asymm (hbefore x hx)
          · exact hfront x hx
        · intro x hx hkey
          rw [entries_node, List.append_cons] at hx
          rcases List.mem_append.1 hx with hx | hx
          · exact absurd hkey (KeyOrder.not_eq (hbefore x hx))
          · exact hlt x hx hkey
    · refine .inl ⟨by rw [entries_relax], (k, v, y'), ?_, ?_, UInt32.not_lt.1 hy⟩
      · exact List.mem_append_right _ List.mem_cons_self
      · exact KeyOrder.eq_iff.2 ⟨hgreater, hless⟩

/-- `insert_node` adds at most its own entry. -/
theorem mem_insertNode {x : K × V × UInt32} (hx : x ∈ (t.insertNode C key value y).entries) :
    x ∈ t.entries ∨ x = (key, value, y) := by
  induction t with
  | null => exact .inr (List.mem_singleton.1 hx)
  | node left right size k v y' ihl ihr =>
    rw [insertNode] at hx
    split_ifs at hx with hy
    · rw [entries_relax, entries_node, List.mem_append, List.mem_cons] at hx
      rcases hx with hx | hx | hx
      · exact .inl (mem_splitNode.2 (.inl hx))
      · exact .inr hx
      · exact .inl (mem_splitNode.2 (.inr hx))
    · rw [entries_relax, entries_node, List.mem_append] at hx
      rcases hx with hx | hx
      · exact (ihl hx).imp_left (List.mem_append_left _)
      · exact .inl (List.mem_append_right _ hx)
    · rw [entries_relax, entries_node, List.mem_append, List.mem_cons] at hx
      rcases hx with hx | hx | hx
      · exact .inl (List.mem_append_left _ hx)
      · exact .inl (List.mem_append_right _ (hx ▸ List.mem_cons_self))
      · exact (ihr hx).imp_left fun h ↦ List.mem_append_right _ (List.mem_cons_of_mem _ h)
    · exact .inl (entries_relax _ ▸ hx)

theorem insertNode_heapOrdered (h : t.HeapOrdered) (key : K) (value : V) (y : UInt32) :
    (t.insertNode C key value y).HeapOrdered := by
  induction t with
  | null => exact ⟨trivial, trivial, by simp, by simp⟩
  | node left right size k v y' ihl ihr =>
    rw [insertNode]
    split_ifs with hy
    · obtain ⟨h₁, h₂⟩ := splitNode_heapOrdered (C := C) h key
      have hle {x : K × V × UInt32} (hx : x ∈ (node left right size k v y').entries) : x.2.2 ≤ y :=
        UInt32.le_of_lt (UInt32.lt_of_le_of_lt (h.le x hx) hy)
      exact .relax_node h₁ h₂ (fun x hx ↦ hle (mem_splitNode.2 (.inl hx)))
        (fun x hx ↦ hle (mem_splitNode.2 (.inr hx))) 1 key value
    · obtain ⟨hl, hr, hly, hry⟩ := h
      refine .relax_node (ihl hl) hr (fun x hx ↦ ?_) hry size k v
      rcases mem_insertNode hx with hx | rfl
      · exact hly x hx
      · exact UInt32.not_lt.1 hy
    · obtain ⟨hl, hr, hly, hry⟩ := h
      refine .relax_node hl (ihr hr) hly (fun x hx ↦ ?_) size k v
      rcases mem_insertNode hx with hx | rfl
      · exact hry x hx
      · exact UInt32.not_lt.1 hy
    · exact h

theorem insertNode_sized (h : t.Sized) (key : K) (value : V) (y : UInt32) :
    (t.insertNode C key value y).Sized := by
  induction t with
  | null => exact ⟨trivial, trivial, rfl⟩
  | node left right size k v y' ihl ihr =>
    rw [insertNode]
    split_ifs
    · obtain ⟨h₁, h₂⟩ := splitNode_sized (C := C) h key
      exact h₁.relax_node h₂ 1 key value y
    · exact (ihl h.1).relax_node h.2.1 size k v y'
    · exact h.1.relax_node (ihr h.2.1) size k v y'
    · exact h.relax

/-! ## remove_node -/

/-- `remove_node` takes one entry of the key out, or there is none. -/
theorem removeNode_cases (h : C.Sorted t.entries) (key : K) :
    (∃ front x back, t.entries = front ++ x :: back ∧ C.toKeyEq.eq x.1 key = true ∧
      (t.removeNode C key).entries = front ++ back) ∨
    (t.removeNode C key).entries = t.entries ∧
      ∀ x ∈ t.entries, C.toKeyEq.eq x.1 key = false := by
  induction t with
  | null => exact .inr ⟨rfl, by simp⟩
  | node left right size k v y ihl ihr =>
    obtain ⟨hleft, hright, -, -⟩ := KeyOrder.sorted_append_cons.1 h
    rw [removeNode]
    split_ifs with hless hgreater
    · rcases ihl hleft with ⟨front, x, back, heq, hkey, heq'⟩ | ⟨heq, hne⟩
      · refine .inl ⟨front, x, back ++ (k, v, y) :: right.entries, ?_, hkey, ?_⟩
        · rw [entries_node, heq, List.append_assoc, List.cons_append]
        · rw [entries_relax, entries_node, heq', List.append_assoc]
      · refine .inr ⟨by rw [entries_relax, entries_node, heq, entries_node], fun x hx ↦ ?_⟩
        rcases List.mem_append.1 hx with hx | hx
        · exact hne x hx
        · exact Bool.eq_false_iff.2 (KeyOrder.not_eq' (h.less_back hless x hx))
    · rcases ihr hright with ⟨front, x, back, heq, hkey, heq'⟩ | ⟨heq, hne⟩
      · refine .inl ⟨left.entries ++ (k, v, y) :: front, x, back, ?_, hkey, ?_⟩
        · rw [entries_node, heq, List.append_assoc, List.cons_append]
        · rw [entries_relax, entries_node, heq', List.append_assoc, List.cons_append]
      · refine .inr ⟨by rw [entries_relax, entries_node, heq, entries_node], fun x hx ↦ ?_⟩
        rw [entries_node, List.append_cons] at hx
        rcases List.mem_append.1 hx with hx | hx
        · exact Bool.eq_false_iff.2 (KeyOrder.not_eq (h.less_front hgreater x hx))
        · exact hne x hx
    · refine .inl ⟨left.entries, (k, v, y), right.entries, rfl, ?_, ?_⟩
      · exact KeyOrder.eq_iff.2 ⟨hgreater, hless⟩
      · rw [entries_relax, entries_mergeNode]

theorem mem_removeNode {x : K × V × UInt32} (hx : x ∈ (t.removeNode C key).entries) :
    x ∈ t.entries := by
  induction t with
  | null => exact hx
  | node left right size k v y ihl ihr =>
    rw [removeNode] at hx
    split_ifs at hx
    · rw [entries_relax, entries_node, List.mem_append] at hx
      exact List.mem_append.2 (hx.imp_left ihl)
    · rw [entries_relax, entries_node, List.mem_append, List.mem_cons] at hx
      rw [entries_node, List.mem_append, List.mem_cons]
      exact hx.imp_right (Or.imp_right ihr)
    · rw [entries_relax, entries_mergeNode, List.mem_append] at hx
      rw [entries_node, List.mem_append, List.mem_cons]
      exact hx.imp_right .inr

theorem removeNode_heapOrdered (h : t.HeapOrdered) (key : K) :
    (t.removeNode C key).HeapOrdered := by
  induction t with
  | null => exact h
  | node left right size k v y ihl ihr =>
    obtain ⟨hl, hr, hly, hry⟩ := h
    rw [removeNode]
    split_ifs
    · exact .relax_node (ihl hl) hr (fun x hx ↦ hly x (mem_removeNode hx)) hry size k v
    · exact .relax_node hl (ihr hr) hly (fun x hx ↦ hry x (mem_removeNode hx)) size k v
    · exact (heapOrdered_relax _).2 (mergeNode_heapOrdered hl hr)

theorem removeNode_sized (h : t.Sized) (key : K) : (t.removeNode C key).Sized := by
  induction t with
  | null => exact h
  | node left right size k v y ihl ihr =>
    rw [removeNode]
    split_ifs
    · exact (ihl h.1).relax_node h.2.1 size k v y
    · exact h.1.relax_node (ihr h.2.1) size k v y
    · exact (mergeNode_sized h.1 h.2.1).relax

/-! ## get_node -/

/-- `get_node` finds an entry of the key, or there is none. -/
theorem getNode_cases (h : C.Sorted t.entries) (key : K) :
    (∃ x ∈ t.entries, C.toKeyEq.eq x.1 key = true ∧ t.getNode C key = some x.2.1) ∨
    t.getNode C key = none ∧ ∀ x ∈ t.entries, C.toKeyEq.eq x.1 key = false := by
  induction t with
  | null => exact .inr ⟨rfl, by simp⟩
  | node left right size k v y ihl ihr =>
    obtain ⟨hleft, hright, -, -⟩ := KeyOrder.sorted_append_cons.1 h
    rw [getNode]
    split_ifs with hless hgreater
    · rcases ihl hleft with ⟨x, hx, hkey, hget⟩ | ⟨hget, hne⟩
      · exact .inl ⟨x, List.mem_append_left _ hx, hkey, hget⟩
      · refine .inr ⟨hget, fun x hx ↦ ?_⟩
        rcases List.mem_append.1 hx with hx | hx
        · exact hne x hx
        · exact Bool.eq_false_iff.2 (KeyOrder.not_eq' (h.less_back hless x hx))
    · rcases ihr hright with ⟨x, hx, hkey, hget⟩ | ⟨hget, hne⟩
      · exact .inl ⟨x, List.mem_append_right _ (List.mem_cons_of_mem _ hx), hkey, hget⟩
      · refine .inr ⟨hget, fun x hx ↦ ?_⟩
        rw [entries_node, List.append_cons] at hx
        rcases List.mem_append.1 hx with hx | hx
        · exact Bool.eq_false_iff.2 (KeyOrder.not_eq (h.less_front hgreater x hx))
        · exact hne x hx
    · refine .inl ⟨(k, v, y), List.mem_append_right _ List.mem_cons_self, ?_, rfl⟩
      exact KeyOrder.eq_iff.2 ⟨hgreater, hless⟩

/-- `get_node_by_idx` counts the entries in their order. -/
theorem getNodeByIdx_eq (h : t.Sized) {i : ℕ} {x : K × V × UInt32} (hx : t.entries[i]? = some x) :
    t.getNodeByIdx i = .ok x.2.1 := by
  induction t generalizing i with
  | null => cases hx
  | node left right size k v y ihl ihr =>
    obtain ⟨hl, hr, -⟩ := h
    rw [entries_node] at hx
    rw [getNodeByIdx, hl.size_eq]
    split_ifs with hlt heq
    · rw [List.getElem?_append_left hlt] at hx
      exact ihl hl hx
    · subst heq
      rw [List.getElem?_append_right le_rfl, Nat.sub_self, List.getElem?_cons_zero] at hx
      rw [← Option.some.inj hx]
    · refine ihr hr ?_
      rw [List.getElem?_append_right (Nat.not_lt.1 hlt)] at hx
      obtain ⟨j, hj⟩ : ∃ j, i - left.entries.length = j + 1 :=
        Nat.exists_eq_succ_of_ne_zero (by omega)
      rw [hj, List.getElem?_cons_succ] at hx
      rw [hj, Nat.add_sub_cancel]
      exact hx

/-! ## Runs -/

/-- The queries of a tree in order. -/
theorem Good.of_sorted (hsorted : C.Sorted t.entries) (hheap : t.HeapOrdered) (hsized : t.Sized)
    (hrep : C.toKeyEq.Represents (t.entries : Multiset (K × V × UInt32)) m) : Good C t m := by
  have hget (key : K) : t.getNode C key = (m key).map Prod.fst := by
    rcases getNode_cases hsorted key with ⟨x, hx, hkey, hget⟩ | ⟨hget, hne⟩
    · rw [hget, hrep.of_mem (Multiset.mem_coe.2 hx) hkey, Option.map_some]
    · rw [hget, (hrep.eq_none_iff key).2 fun x hx ↦ hne x (Multiset.mem_coe.1 hx),
        Option.map_none]
  refine ⟨hsorted, hheap, hsized, hrep, hget, fun key ↦ ?_, fun random ↦ ?_⟩
  · rw [exists_, hget, Option.isSome_map]
  · rw [getRandom, hsized.size_eq]
    split_ifs with hzero
    · exact .inl ⟨List.length_eq_zero_iff.1 hzero, rfl⟩
    · have hlt := Nat.mod_lt random.toNat (Nat.pos_of_ne_zero hzero)
      have hx := List.getElem?_eq_getElem hlt
      generalize t.entries[random.toNat % t.entries.length] = x at hx
      refine .inr ⟨x.1, x.2.1, x.2.2, ?_, ?_⟩
      · exact hrep.of_mem (Multiset.mem_coe.2 (List.mem_of_getElem? hx)) (C.toKeyEq.refl _)
      · rw [getNodeByIdx_eq hsized hx]
        rfl

theorem Good.null : Good C (null : DecTree K V) fun _ ↦ none :=
  .of_sorted List.Pairwise.nil trivial trivial .empty

/-- `insert` of a new key, or of one that it meets. -/
theorem Good.insert (h : Good C t m) (hdrawn : ∀ value' y', m key = some (value', y') → y ≤ y') :
    Good C (t.insertNode C key value y) (C.toKeyEq.emplace m key (value, y)) := by
  have hheap := insertNode_heapOrdered (C := C) h.heap key value y
  have hsized := insertNode_sized (C := C) h.sized key value y
  rcases insertNode_cases h.sorted h.heap key value y with ⟨heq, x, hx, hkey, -⟩ |
    ⟨front, back, heq, heq', hfront, hback, hlt⟩
  · rw [KeyEq.emplace_of_some _ (h.represents.of_mem (Multiset.mem_coe.2 hx) hkey)]
    exact .of_sorted (heq ▸ h.sorted) hheap hsized (heq ▸ h.represents)
  · have hnone : m key = none := by
      cases hm : m key with
      | none => rfl
      | some w =>
        obtain ⟨x, hx, hkey, rfl⟩ := (h.represents.lookup key w).1 hm
        have hy := hlt x (Multiset.mem_coe.1 hx) hkey
        exact absurd (hdrawn _ _ hm) (UInt32.not_le.2 hy)
    have hperm : ((front ++ (key, value, y) :: back : List _) : Multiset (K × V × UInt32)) =
        (key, value, y) ::ₘ (t.entries : Multiset (K × V × UInt32)) := by
      rw [heq, Multiset.cons_coe, Multiset.coe_eq_coe]
      exact List.perm_middle
    refine .of_sorted ?_ hheap hsized ?_
    · rw [heq']
      refine (heq ▸ h.sorted : C.Sorted (front ++ back)).insert (fun x hx ↦ ?_) hback
      have hmem : x ∈ t.entries := heq ▸ List.mem_append_left _ hx
      have hne := (h.represents.eq_none_iff key).1 hnone x (Multiset.mem_coe.2 hmem)
      refine KeyOrder.less_of_not (hfront x hx) ?_
      rw [C.toKeyEq.eq_comm, hne]
      exact Bool.false_ne_true
    · rw [heq', hperm, KeyEq.emplace_of_none _ hnone]
      exact h.represents.insert hnone (value, y)

/-- `remove` -/
theorem Good.remove (h : Good C t m) (key : K) :
    Good C (t.removeNode C key) (C.toKeyEq.erase m key) := by
  have hheap := removeNode_heapOrdered (C := C) h.heap key
  have hsized := removeNode_sized (C := C) h.sized key
  rcases removeNode_cases h.sorted key with ⟨front, x, back, heq, hkey, heq'⟩ | ⟨heq, hne⟩
  · refine .of_sorted ?_ hheap hsized ?_
    · rw [heq']
      refine h.sorted.sublist ?_
      rw [heq]
      exact (List.Sublist.refl front).append (List.sublist_cons_self x back)
    · have hperm : (t.entries : Multiset (K × V × UInt32)) = x ::ₘ (front ++ back : List _) := by
        rw [heq, Multiset.cons_coe, Multiset.coe_eq_coe]
        exact List.perm_middle
      rw [heq']
      exact (hperm ▸ h.represents).erase hkey
  · have hnone : m key = none :=
      (h.represents.eq_none_iff key).2 fun x hx ↦ hne x (Multiset.mem_coe.1 hx)
    refine .of_sorted (heq ▸ h.sorted) hheap hsized ?_
    rw [heq]
    exact h.represents.erase_none hnone

/-- `insert` with a priority that is too great puts the key in twice. -/
theorem Good.not_sorted (h : Good C t m) {value' : V} {y' : UInt32}
    (hm : m key = some (value', y')) (hlt : ¬y ≤ y') :
    ¬C.Sorted (t.insertNode C key value y).entries := by
  obtain ⟨x, hx, hkey, hxy⟩ := (h.represents.lookup key _).1 hm
  rw [Multiset.mem_coe] at hx
  rcases insertNode_cases h.sorted h.heap key value y with ⟨-, z, hz, hkey', hle⟩ |
    ⟨front, back, heq, heq', -⟩
  · have hmz := h.represents.of_mem (Multiset.mem_coe.2 hz) hkey'
    rw [hm, Option.some.injEq] at hmz
    rw [← hmz] at hle
    exact absurd hle hlt
  · rw [heq']
    exact fun hsorted ↦ hsorted.not_eq (heq ▸ hx) hkey

theorem good_of_drawn {ops : List (Op K V)} (h : Drawn C ops) :
    Good C (run C ops) (inserted C ops) := by
  induction ops using List.reverseRecOn with
  | nil => exact Good.null
  | append_singleton ops op ih =>
    have hgood : Good C (run C ops) (inserted C ops) := by
      refine ih fun before key value y after heq ↦ ?_
      exact h before key value y (after ++ [op]) (by rw [heq, List.append_assoc]; rfl)
    rw [run, inserted, List.foldl_append, List.foldl_append]
    cases op with
    | insert key value y => exact hgood.insert (h ops key value y [] rfl)
    | remove key => exact hgood.remove key

/-- The tree is in order after all calls of a run if and only if no key is inserted again with a
greater priority than it has. -/
theorem run_good_iff (C : KeyOrder K) (ops : List (Op K V)) :
    (∀ before after, ops = before ++ after → Good C (run C before) (inserted C before)) ↔
      Drawn C ops := by
  constructor
  · rintro hgood before key value y after rfl value' y' hm
    by_contra hlt
    have hbefore := hgood before _ rfl
    have hafter := hgood (before ++ [.insert key value y]) after (List.append_cons ..)
    rw [run, List.foldl_append] at hafter
    exact hbefore.not_sorted hm hlt hafter.sorted
  · rintro hdrawn before after rfl
    refine good_of_drawn fun before' key value y after' heq ↦ ?_
    exact hdrawn before' key value y (after' ++ after) (by rw [heq, List.append_assoc]; rfl)

/-- `std::less` of numbers -/
def natOrder : KeyOrder ℕ where
  less a b := decide (a < b)
  irrefl := by simp
  trans {a b c} := by simpa using Nat.lt_trans
  between {a b} h c := by
    simp only [decide_eq_true_eq] at h ⊢
    omega

/-- A key that was inserted again with a greater priority exists after it was removed. -/
theorem exists_after_remove :
    (run natOrder [.insert 5 'a' 1, .insert 5 'b' 2, .remove 5]).exists_ natOrder 5 = true := by
  have hrun : run natOrder [.insert 5 'a' 1, .insert 5 'b' 2, .remove 5] =
      relax (mergeNode (node null null 1 5 'a' 1) null) := rfl
  rw [hrun, mergeNode]
  rfl

end DecTree

end PxcCore
