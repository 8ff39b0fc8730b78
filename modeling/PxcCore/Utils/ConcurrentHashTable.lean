import PxcCore.Lib.LinearProbing
import PxcCore.Lib.Simulation

/-!
# ConcurrentHashMap

`ConcurrentHashTable.h`, for calls that are made one after another: an array of nodes with linear
probing in a part of the array, which migrates to one of twice the size when there is no room.
-/

namespace PxcCore.ConcurrentHashMap

open Lib

/-! ## Definitions -/

/-- `AtomicHashArray::Node` -/
structure Node (KeyT ValueT : Type) where
  key : KeyT
  value : ValueT
deriving DecidableEq

/-- `AtomicHashArray` -/
abbrev HashArray (KeyT ValueT : Type) := List (Node KeyT ValueT)

variable {KeyT ValueT Result : Type} [Zero KeyT] [DecidableEq KeyT]

section Calls

variable [Zero ValueT]

/-- `AtomicHashArray(n)` -/
def newArray (n : ℕ) : HashArray KeyT ValueT := List.replicate n ⟨0, 0⟩

/-- The loop of `with_value`, with what `f` returns if it was called. -/
def withValueLoop (key : KeyT) (shouldCreate : Bool) (f : ValueT → Result × ValueT) :
    ℕ → ℕ → HashArray KeyT ValueT → Option Result × HashArray KeyT ValueT
  | 0, _, nodes => (none, nodes)
  | n + 1, pos, nodes =>
    let pos := if pos + 1 ≥ nodes.length then 0 else pos + 1
    match nodes[pos]? with
    | none => (none, nodes)
    | some node =>
      if node.key = 0 then
        if !shouldCreate then (none, nodes)
        else
          let (result, value) := f node.value
          (some result, nodes.set pos ⟨key, value⟩)
      else if node.key = key then
        let (result, value) := f node.value
        (some result, nodes.set pos ⟨node.key, value⟩)
      else withValueLoop key shouldCreate f n pos nodes

/-- The number of nodes that `with_value` looks at. -/
def window (size : ℕ) : ℕ := min (max 300 (size / 16 + 2)) size

variable (toSize : KeyT → ℕ)

/-- `with_value`, where `toSize` is the cast of a key to `size_t`. -/
def withValue (key : KeyT) (shouldCreate : Bool) (f : ValueT → Result × ValueT)
    (nodes : HashArray KeyT ValueT) : Option Result × HashArray KeyT ValueT :=
  withValueLoop key shouldCreate f (window nodes.length) (toSize key % nodes.length) nodes

variable [DecidableEq ValueT] [One ValueT]

/-- `migrate_value` -/
def migrateValue : ValueT := 1

/-- `run_task`, for the nodes from `i` on. -/
def runTask : ℕ → ℕ → HashArray KeyT ValueT → HashArray KeyT ValueT →
    Except String (HashArray KeyT ValueT × HashArray KeyT ValueT)
  | 0, _, source, target => .ok (source, target)
  | n + 1, i, source, target =>
    match source[i]? with
    | none => .ok (source, target)
    | some node =>
      let source := source.set i { node with value := migrateValue }
      if node.value = 0 then runTask n (i + 1) source target
      else
        match withValue toSize node.key true (fun _ ↦ ((), node.value)) target with
        | (none, _) => .error "Migration overflow"
        | (some _, target) => runTask n (i + 1) source target

/-- `task_creator.chunk_size` -/
def chunkSize : ℕ := 100

/-- `run_migrate`, where `pos` is `task_creator.pos`. -/
def runMigrate : ℕ → ℕ → HashArray KeyT ValueT → HashArray KeyT ValueT →
    Except String (HashArray KeyT ValueT)
  | 0, _, _, _ => .error "fuel"
  | fuel + 1, pos, source, target => do
    let start := pos * chunkSize
    let stop := if start + chunkSize > source.length then source.length else start + chunkSize
    if start ≥ stop then return target
    let (source, target) ← runTask toSize (stop - start) start source target
    runMigrate fuel (pos + 1) source target

/-- `do_migrate` of the array that is the current one. -/
def doMigrate (nodes : HashArray KeyT ValueT) : Except String (HashArray KeyT ValueT) :=
  runMigrate toSize (nodes.length + 1) 0 nodes (newArray (nodes.length * 2))

/-- What `insert` does to the value of a node: the value that is there then, or `none` if the node
has migrated. -/
def insertValue (value nodeValue : ValueT) : Option ValueT × ValueT :=
  if nodeValue = 0 then (some value, value)
  else if nodeValue = migrateValue then (none, nodeValue)
  else (some nodeValue, nodeValue)

/-- The loop of `insert`. -/
def insertLoop (key : KeyT) (value : ValueT) :
    ℕ → HashArray KeyT ValueT → Except String (ValueT × HashArray KeyT ValueT)
  | 0, _ => .error "fuel"
  | fuel + 1, nodes =>
    match withValue toSize key true (insertValue value) nodes with
    | (some (some insertedValue), nodes) => .ok (insertedValue, nodes)
    | (_, nodes) => do
      let nodes ← doMigrate toSize nodes
      insertLoop key value fuel nodes

/-- `insert`. There is room after four migrations. -/
def insert (nodes : HashArray KeyT ValueT) (key : KeyT) (value : ValueT) :
    Except String (ValueT × HashArray KeyT ValueT) :=
  if key = 0 then .error "CHECK(key != empty_key())"
  else if value = migrateValue then .error "CHECK(value != migrate_value())"
  else insertLoop toSize key value 5 nodes

/-- The loop of `find`. -/
def findLoop (key : KeyT) : ℕ → HashArray KeyT ValueT → ValueT →
    Except String (ValueT × HashArray KeyT ValueT)
  | 0, _, _ => .error "fuel"
  | fuel + 1, nodes, value =>
    match withValue toSize key false (fun nodeValue ↦ (nodeValue, nodeValue)) nodes with
    | (none, nodes) => .ok (value, nodes)
    | (some value, nodes) =>
      if value ≠ migrateValue then .ok (value, nodes)
      else do
        let nodes ← doMigrate toSize nodes
        findLoop key fuel nodes value

/-- `find`. A migration is over before it. -/
def find (nodes : HashArray KeyT ValueT) (key : KeyT) (value : ValueT) :
    Except String (ValueT × HashArray KeyT ValueT) :=
  findLoop toSize key 1 nodes value

/-- The calls, with the default value of `find`. -/
inductive Op (KeyT ValueT : Type) where
  | insert (key : KeyT) (value : ValueT)
  | find (key : KeyT) (value : ValueT)

def step (nodes : HashArray KeyT ValueT) :
    Op KeyT ValueT → Except String (ValueT × HashArray KeyT ValueT)
  | .insert key value => insert toSize nodes key value
  | .find key value => find toSize nodes key value

end Calls

/-- The value of the first insert of a key. -/
def firstValue (key : KeyT) : List (Op KeyT ValueT) → Option ValueT
  | [] => none
  | .insert key' value :: ops => if key' = key then some value else firstValue key ops
  | .find _ _ :: ops => firstValue key ops

example : (runProgram (step (fun key : ℕ ↦ key))
    [.insert 7 5, .insert 3 6, .insert 7 8, .find 3 9, .find 4 9] (newArray 1)).map Prod.fst =
    .ok [5, 6, 5, 6, 9] := by decide

/-! ## Looking for a key -/

open LinearProbing

variable {toSize : KeyT → ℕ} {nodes nodes' : HashArray KeyT ValueT} {node : Node KeyT ValueT}
  {r : KeyT → ValueT → Prop} {key k : KeyT} {value v : ValueT} {b t : ℕ}

/-- The key in a node, if there is one. -/
def keyAt (nodes : HashArray KeyT ValueT) (b : ℕ) : Option KeyT :=
  (nodes[b]?).bind fun node ↦ if node.key = 0 then none else some node.key

theorem keyAt_eq_some : keyAt nodes b = some k ↔ k ≠ 0 ∧ ∃ v, nodes[b]? = some ⟨k, v⟩ := by
  rw [keyAt, Option.bind_eq_some_iff]
  constructor
  · rintro ⟨node, hnode, hk⟩
    split_ifs at hk with hzero
    obtain rfl := Option.some.inj hk
    exact ⟨hzero, node.value, hnode⟩
  · rintro ⟨hk, v, hnode⟩
    exact ⟨_, hnode, if_neg hk⟩

theorem keyAt_eq_none (hnode : nodes[b]? = some node) : keyAt nodes b = none ↔ node.key = 0 := by
  rw [keyAt, hnode, Option.bind_some]
  split_ifs with hzero
  · exact iff_of_true rfl hzero
  · exact iff_of_false (by simp) hzero

/-- The loop stops at a node without a key, and at the key. -/
def stops (key : KeyT) (nodes : HashArray KeyT ValueT) (b : ℕ) : Bool :=
  keyAt nodes b = none ∨ keyAt nodes b = some key

theorem stops_eq_true :
    stops key nodes b = true ↔ keyAt nodes b = none ∨ keyAt nodes b = some key :=
  decide_eq_true_iff

/-- The node where the loop stops. -/
def search (key : KeyT) (nodes : HashArray KeyT ValueT) (steps start : ℕ) :
    Option (Node KeyT ValueT × ℕ) :=
  (probe (next nodes.length) (stops key nodes) steps start).bind fun t ↦ (nodes[t]?).map (·, t)

/-- What the loop does there. -/
def visit (key : KeyT) (shouldCreate : Bool) (f : ValueT → Result × ValueT)
    (nodes : HashArray KeyT ValueT) :
    Option (Node KeyT ValueT × ℕ) → Option Result × HashArray KeyT ValueT
  | none => (none, nodes)
  | some (node, t) =>
    if node.key = 0 ∧ shouldCreate = false then (none, nodes)
    else (some (f node.value).1, nodes.set t ⟨key, (f node.value).2⟩)

/-- The loop is a walk around the ring. -/
theorem withValueLoop_eq (hkey : key ≠ 0) (shouldCreate : Bool) (f : ValueT → Result × ValueT)
    (n : ℕ) {pos : ℕ} (hpos : pos < nodes.length) :
    withValueLoop key shouldCreate f n pos nodes =
      visit key shouldCreate f nodes (search key nodes n (next nodes.length pos)) := by
  induction n generalizing pos with
  | zero => rfl
  | succ n ih =>
    have hnext : (if pos + 1 ≥ nodes.length then 0 else pos + 1) = next nodes.length pos := by
      rw [next_eq hpos]
      split_ifs <;> omega
    have hlt := next_lt (by omega : 0 < nodes.length) pos
    obtain ⟨node, hnode⟩ : ∃ node, nodes[next nodes.length pos]? = some node :=
      ⟨_, List.getElem?_eq_getElem hlt⟩
    rw [withValueLoop, search, probe]
    simp only [hnext, hnode]
    by_cases hzero : node.key = 0
    · have hstop : stops key nodes (next nodes.length pos) = true :=
        stops_eq_true.2 (.inl ((keyAt_eq_none hnode).2 hzero))
      rw [if_pos hzero, if_pos hstop]
      cases shouldCreate <;> simp [hnode, visit, hzero]
    · by_cases hsame : node.key = key
      · have hstop : stops key nodes (next nodes.length pos) = true :=
          stops_eq_true.2 (.inr (keyAt_eq_some.2 ⟨hkey, node.value, by rw [hnode, ← hsame]⟩))
        rw [if_neg hzero, if_pos hsame, if_pos hstop]
        simp [hnode, visit, hsame, hkey]
      · have hstop : stops key nodes (next nodes.length pos) ≠ true := by
          rw [Ne, stops_eq_true, keyAt_eq_none hnode, keyAt_eq_some, hnode]
          rintro (hzero' | ⟨-, v, hv⟩)
          · exact hzero hzero'
          · exact hsame (congrArg Node.key (Option.some.inj hv))
        rw [if_neg hzero, if_neg hsame, if_neg hstop, ih hlt, search]

/-! ## The invariant -/

omit [Zero KeyT] [DecidableEq KeyT] in
theorem window_le (size : ℕ) : window size ≤ size := min_le_right _ _

/-- Where the search for a key begins. -/
def home (toSize : KeyT → ℕ) (size : ℕ) (key : KeyT) : ℕ := next size (toSize key % size)

omit [Zero KeyT] [DecidableEq KeyT] in
theorem home_lt (toSize : KeyT → ℕ) {size : ℕ} (hsize : 0 < size) (key : KeyT) :
    home toSize size key < size := next_lt hsize _

variable [Zero ValueT]

/-- The array holds this relation between keys and values: no key is there twice, and every key is
found from its home. -/
structure Holds (toSize : KeyT → ℕ) (nodes : HashArray KeyT ValueT) (r : KeyT → ValueT → Prop) :
    Prop where
  pos : 0 < nodes.length
  probing : Probing nodes.length (home toSize nodes.length) (keyAt nodes)
  within : ∀ b < nodes.length, ∀ k, keyAt nodes b = some k →
    ringDist nodes.length (home toSize nodes.length k) b < window nodes.length
  inj : ∀ b b' k, keyAt nodes b = some k → keyAt nodes b' = some k → b = b'
  mem : ∀ k v, r k v ↔ k ≠ 0 ∧ ∃ b : ℕ, nodes[b]? = some (Node.mk k v)
  empty : ∀ (b : ℕ) v, nodes[b]? = some (Node.mk 0 v) → v = 0

omit [DecidableEq KeyT] in
theorem newArray_getElem? {n : ℕ} (h : (newArray n : HashArray KeyT ValueT)[b]? = some node) :
    node = ⟨0, 0⟩ := by
  rw [newArray, List.getElem?_replicate] at h
  split_ifs at h
  exact (Option.some.inj h).symm

theorem Holds.init {n : ℕ} (hn : 0 < n) :
    Holds toSize (newArray n : HashArray KeyT ValueT) fun _ _ ↦ False := by
  have hkey : ∀ b k, keyAt (newArray n : HashArray KeyT ValueT) b ≠ some k := by
    intro b k hk
    obtain ⟨hzero, v, hnode⟩ := keyAt_eq_some.1 hk
    exact hzero (congrArg Node.key (newArray_getElem? hnode))
  refine ⟨by rwa [newArray, List.length_replicate], fun b _ k hk ↦ absurd hk (hkey b k),
    fun b _ k hk ↦ absurd hk (hkey b k), fun b _ k hk ↦ absurd hk (hkey b k), fun k v ↦ ?_,
    fun b v hnode ↦ congrArg Node.value (newArray_getElem? hnode)⟩
  refine iff_of_false id ?_
  rintro ⟨hk, b, hnode⟩
  exact hk (congrArg Node.key (newArray_getElem? hnode))

omit [Zero ValueT] in
theorem withValue_eq (hpos : 0 < nodes.length) (hkey : key ≠ 0) (shouldCreate : Bool)
    (f : ValueT → Result × ValueT) : withValue toSize key shouldCreate f nodes =
      visit key shouldCreate f nodes
        (search key nodes (window nodes.length) (home toSize nodes.length key)) :=
  withValueLoop_eq hkey _ _ _ (Nat.mod_lt _ hpos)

theorem Holds.congr (h : Holds toSize nodes r) {r' : KeyT → ValueT → Prop}
    (hr : ∀ k v, r k v ↔ r' k v) : Holds toSize nodes r' where
  pos := h.pos
  probing := h.probing
  within := h.within
  inj := h.inj
  mem k v := (hr k v).symm.trans (h.mem k v)
  empty := h.empty

/-- The key is found. -/
theorem Holds.withValue_of_mem (h : Holds toSize nodes r) (hr : r key v) (shouldCreate : Bool)
    (f : ValueT → Result × ValueT) : ∃ t : ℕ, nodes[t]? = some (Node.mk key v) ∧
      withValue toSize key shouldCreate f nodes = (some (f v).1, nodes.set t ⟨key, (f v).2⟩) := by
  obtain ⟨hkey, b, hb⟩ := (h.mem key v).1 hr
  have hkeyAt : keyAt nodes b = some key := keyAt_eq_some.2 ⟨hkey, v, hb⟩
  have hlt := (List.getElem?_eq_some_iff.1 hb).1
  have hhome := home_lt toSize h.pos key
  have hstop : stops key nodes b = true := stops_eq_true.2 (.inr hkeyAt)
  refine ⟨b, hb, ?_⟩
  rw [withValue_eq h.pos hkey, search]
  rcases @probe_within _ (stops key nodes) _ hhome _ (window_le nodes.length) with
    ⟨t, ht, hprobe, -, hst, hv⟩ | ⟨-, hv⟩
  · obtain rfl : t = b := by
      rcases stops_eq_true.1 hst with hnone | hsome
      · have hlt' := h.probing.lt_of_none hlt ht hkeyAt hhome hnone
        rw [hv b hlt hlt'] at hstop
        exact absurd hstop (by simp)
      · exact h.inj t b key hsome hkeyAt
    rw [hprobe, Option.bind_some, hb, Option.map_some, visit, if_neg fun hzero ↦ hkey hzero.1]
  · have hfalse := hv b hlt (h.within b hlt key hkeyAt)
    rw [hstop] at hfalse
    exact absurd hfalse (by simp)

omit [Zero ValueT] in
/-- A node gets a key and a value. -/
theorem keyAt_set (ht : t < nodes.length) (hkey : key ≠ 0) :
    keyAt (nodes.set t ⟨key, v⟩) = Function.update (keyAt nodes) t (some key) := by
  funext b
  rw [keyAt, List.getElem?_set]
  by_cases hb : b = t
  · subst hb
    simp [ht, hkey]
  · rw [if_neg (Ne.symm hb), Function.update_of_ne hb, keyAt]

/-- A key is put in the first node without a key. -/
theorem Holds.set (h : Holds toSize nodes r) (hkey : key ≠ 0) (hr : ∀ v, ¬r key v)
    (ht : t < nodes.length)
    (hwithin : ringDist nodes.length (home toSize nodes.length key) t < window nodes.length)
    (hnone : keyAt nodes t = none)
    (hfirst : ∀ x < nodes.length, ringDist nodes.length (home toSize nodes.length key) x <
      ringDist nodes.length (home toSize nodes.length key) t → keyAt nodes x ≠ none) :
    Holds toSize (nodes.set t ⟨key, value⟩) fun k v ↦ r k v ∨ k = key ∧ v = value := by
  have hkeyAt := keyAt_set (v := value) ht hkey
  have habsent : ∀ b, keyAt nodes b ≠ some key := by
    intro b hb
    obtain ⟨hkey, v, hnode⟩ := keyAt_eq_some.1 hb
    exact hr v ((h.mem key v).2 ⟨hkey, b, hnode⟩)
  refine ⟨?_, ?_, ?_, ?_, fun k v ↦ ?_, fun b v hnode ↦ ?_⟩
  · rw [List.length_set]
    exact h.pos
  · rw [List.length_set, hkeyAt]
    exact h.probing.insert hfirst
  · rw [List.length_set, hkeyAt]
    intro b hb k hk
    by_cases hbt : b = t
    · subst hbt
      rw [Function.update_self, Option.some.injEq] at hk
      exact hk ▸ hwithin
    · rw [Function.update_of_ne hbt] at hk
      exact h.within b hb k hk
  · rw [hkeyAt]
    intro b b' k hk hk'
    rw [Function.update_apply] at hk hk'
    split_ifs at hk hk' with hbt hbt' hbt'
    · rw [hbt, hbt']
    · exact absurd (hk'.trans hk.symm) (habsent b')
    · exact absurd (hk.trans hk'.symm) (habsent b)
    · exact h.inj b b' k hk hk'
  · rw [h.mem]
    constructor
    · rintro (⟨hk, b, hb⟩ | ⟨rfl, rfl⟩)
      · have hbt : t ≠ b := by
          rintro rfl
          exact absurd (hnone.symm.trans (keyAt_eq_some.2 ⟨hk, v, hb⟩)) (by simp)
        exact ⟨hk, b, (List.getElem?_set_ne hbt).trans hb⟩
      · exact ⟨hkey, t, by rw [List.getElem?_set_self ht]⟩
    · rintro ⟨hk, b, hb⟩
      rw [List.getElem?_set] at hb
      split_ifs at hb
      · cases hb
        exact .inr ⟨rfl, rfl⟩
      · exact .inl ⟨hk, b, hb⟩
  · rw [List.getElem?_set] at hnode
    split_ifs at hnode with hbt
    · exact absurd (congrArg Node.key (Option.some.inj hnode)) hkey
    · exact h.empty b v hnode

/-- A key that is not there is not found, or it is put in the first node without a key. -/
theorem Holds.withValue_of_notMem (h : Holds toSize nodes r) (hkey : key ≠ 0)
    (hr : ∀ v, ¬r key v) (f : ValueT → Result × ValueT) :
    withValue toSize key false f nodes = (none, nodes) ∧
    ((withValue toSize key true f nodes = (none, nodes) ∧
      ∀ x < nodes.length, ringDist nodes.length (home toSize nodes.length key) x <
        window nodes.length → keyAt nodes x ≠ none) ∨
    ∃ nodes', withValue toSize key true f nodes = (some (f 0).1, nodes') ∧
      nodes'.length = nodes.length ∧
      Holds toSize nodes' fun k v ↦ r k v ∨ k = key ∧ v = (f 0).2) := by
  have hhome := home_lt toSize h.pos key
  have hkept : ∀ x, stops key nodes x = false → keyAt nodes x ≠ none := by
    intro x hx hnone
    rw [stops_eq_true.2 (.inl hnone)] at hx
    exact absurd hx (by simp)
  rw [withValue_eq h.pos hkey, withValue_eq h.pos hkey, search]
  rcases @probe_within _ (stops key nodes) _ hhome _ (window_le nodes.length) with
    ⟨t, ht, hprobe, hwithin, hst, hv⟩ | ⟨hprobe, hv⟩
  · obtain ⟨⟨k, v⟩, hnode⟩ : ∃ node, nodes[t]? = some node := ⟨_, List.getElem?_eq_getElem ht⟩
    have hnone : keyAt nodes t = none := by
      refine (stops_eq_true.1 hst).resolve_right fun hsome ↦ ?_
      obtain ⟨-, v, hnode⟩ := keyAt_eq_some.1 hsome
      exact hr v ((h.mem key v).2 ⟨hkey, t, hnode⟩)
    obtain rfl : k = 0 := (keyAt_eq_none hnode).1 hnone
    obtain rfl : v = 0 := h.empty t v hnode
    rw [hprobe, Option.bind_some, hnode, Option.map_some, visit, visit]
    refine ⟨if_pos ⟨rfl, rfl⟩, .inr ⟨_, if_neg (by simp), List.length_set, ?_⟩⟩
    exact h.set hkey hr ht hwithin hnone fun x hx hlt ↦ hkept x (hv x hx hlt)
  · rw [hprobe, Option.bind_none]
    exact ⟨rfl, .inl ⟨rfl, fun x hx hlt ↦ hkept x (hv x hx hlt)⟩⟩

/-! ## Migration -/

variable {source target : HashArray KeyT ValueT} {i n : ℕ}

/-- The keys and values of the first nodes. -/
def firstNodes (nodes : HashArray KeyT ValueT) (i : ℕ) (k : KeyT) (v : ValueT) : Prop :=
  k ≠ 0 ∧ ∃ b < i, nodes[b]? = some (Node.mk k v)

omit [DecidableEq KeyT] [Zero ValueT] in
theorem firstNodes_succ (hnode : nodes[i]? = some ⟨k, v⟩) {k' : KeyT} {v' : ValueT} :
    firstNodes nodes (i + 1) k' v' ↔ firstNodes nodes i k' v' ∨ k' ≠ 0 ∧ k' = k ∧ v' = v := by
  rw [firstNodes, firstNodes, ← and_or_left]
  refine and_congr_right fun _ ↦ ?_
  constructor
  · rintro ⟨b, hb, hbnode⟩
    rcases Nat.lt_succ_iff_lt_or_eq.1 hb with hb | rfl
    · exact .inl ⟨b, hb, hbnode⟩
    · rw [hnode] at hbnode
      cases hbnode
      exact .inr ⟨rfl, rfl⟩
  · rintro (⟨b, hb, hbnode⟩ | ⟨rfl, rfl⟩)
    · exact ⟨b, by omega, hbnode⟩
    · exact ⟨i, by omega, hnode⟩

/-- After the last node all keys and values are there. -/
theorem Holds.firstNodes_iff (h : Holds toSize nodes r) (hi : nodes.length ≤ i) :
    firstNodes nodes i k v ↔ r k v := by
  rw [firstNodes, h.mem]
  refine and_congr_right fun _ ↦ ⟨fun ⟨b, _, hb⟩ ↦ ⟨b, hb⟩, fun ⟨b, hb⟩ ↦ ⟨b, ?_, hb⟩⟩
  have := (List.getElem?_eq_some_iff.1 hb).1
  omega

variable [DecidableEq ValueT] [One ValueT]

/-- A key comes with a value. -/
def Filled (r : KeyT → ValueT → Prop) : Prop := ∀ k v, r k v → v ≠ 0 ∧ v ≠ migrateValue

/-- Migrating nodes copies them, or there is no room for one of them. -/
theorem runTask_spec (h : Holds toSize nodes r) (hfilled : Filled r)
    (hsource : ∀ j ≥ i, source[j]? = nodes[j]?) (hlength : source.length = nodes.length)
    (htarget : Holds toSize target (firstNodes nodes i)) (hn : i + n ≤ nodes.length) :
    runTask toSize n i source target = .error "Migration overflow" ∨
    ∃ source' target', runTask toSize n i source target = .ok (source', target') ∧
      (∀ j ≥ i + n, source'[j]? = nodes[j]?) ∧ source'.length = nodes.length ∧
      target'.length = target.length ∧ Holds toSize target' (firstNodes nodes (i + n)) := by
  induction n generalizing i source target with
  | zero => exact .inr ⟨source, target, rfl, hsource, hlength, rfl, htarget⟩
  | succ n ih =>
    obtain ⟨⟨k, v⟩, hnode⟩ : ∃ node, nodes[i]? = some node :=
      ⟨_, List.getElem?_eq_getElem (by omega)⟩
    rw [runTask, hsource i le_rfl, hnode]
    dsimp only
    have hsource' : ∀ j ≥ i + 1, (source.set i ⟨k, migrateValue⟩)[j]? = nodes[j]? := by
      intro j hj
      rw [List.getElem?_set_ne (by omega)]
      exact hsource j (by omega)
    have hlength' : (source.set i ⟨k, migrateValue⟩).length = nodes.length := by
      rw [List.length_set, hlength]
    have hsucc : i + (n + 1) = i + 1 + n := by omega
    by_cases hv : v = 0
    · subst hv
      have hk : k = 0 := by
        by_contra hk
        exact (hfilled k 0 ((h.mem k 0).2 ⟨hk, i, hnode⟩)).1 rfl
      rw [if_pos rfl, hsucc]
      refine ih hsource' hlength' (htarget.congr fun k' v' ↦ ?_) (by omega)
      rw [firstNodes_succ hnode]
      exact ⟨.inl, fun hor ↦ hor.resolve_right fun hnew ↦ hnew.1 (hnew.2.1.trans hk)⟩
    · have hk : k ≠ 0 := by
        rintro rfl
        exact hv (h.empty i v hnode)
      have hnew : ∀ w, ¬firstNodes nodes i k w := by
        rintro w ⟨-, b, hb, hbnode⟩
        have := h.inj b i k (keyAt_eq_some.2 ⟨hk, w, hbnode⟩) (keyAt_eq_some.2 ⟨hk, v, hnode⟩)
        omega
      rw [if_neg hv]
      rcases (htarget.withValue_of_notMem hk hnew fun _ ↦ ((), v)).2 with
        ⟨hfull, -⟩ | ⟨target', hroom, hlength'', htarget'⟩
      · rw [hfull]
        exact .inl rfl
      · rw [hroom, hsucc]
        refine (ih hsource' hlength' (htarget'.congr fun k' v' ↦ ?_) (by omega)).imp id ?_
        · rw [firstNodes_succ hnode]
          refine or_congr_right ?_
          constructor
          · rintro ⟨rfl, rfl⟩
            exact ⟨hk, rfl, rfl⟩
          · exact And.right
        · rintro ⟨source', target'', htask, hsource'', hlength₁, hlength₂, htarget''⟩
          exact ⟨source', target'', htask, hsource'', hlength₁, hlength₂.trans hlength'', htarget''⟩

/-- The tasks cover the array, so that every node is copied once. -/
theorem runMigrate_spec (h : Holds toSize nodes r) (hfilled : Filled r) {fuel pos : ℕ}
    (hfuel : fuel + pos = nodes.length + 1) (hpos : pos ≤ nodes.length)
    (hsource : ∀ j ≥ pos * chunkSize, source[j]? = nodes[j]?)
    (hlength : source.length = nodes.length)
    (htarget : Holds toSize target (firstNodes nodes (pos * chunkSize))) :
    runMigrate toSize fuel pos source target = .error "Migration overflow" ∨
    ∃ target', runMigrate toSize fuel pos source target = .ok target' ∧
      target'.length = target.length ∧ Holds toSize target' r := by
  induction fuel generalizing pos source target with
  | zero => omega
  | succ fuel ih =>
    rw [runMigrate, hlength]
    dsimp only
    rcases Nat.lt_or_ge (pos * chunkSize) nodes.length with hlt | hge
    · obtain ⟨stop, hstop⟩ : ∃ stop, stop = if pos * chunkSize + chunkSize > nodes.length then
          nodes.length else pos * chunkSize + chunkSize := ⟨_, rfl⟩
      have hchunk : chunkSize = 100 := rfl
      have hpos' : pos < nodes.length := by
        rw [hchunk] at hlt
        omega
      have hstart : pos * chunkSize < stop ∧ stop ≤ nodes.length ∧
          stop ≤ (pos + 1) * chunkSize ∧
          (stop = (pos + 1) * chunkSize ∨ stop = nodes.length) := by
        rw [hstop, Nat.add_one_mul]
        split_ifs <;> omega
      obtain ⟨hstart, hle, hle', hend⟩ := hstart
      rw [← hstop, if_neg (by omega)]
      rcases runTask_spec (n := stop - pos * chunkSize) h hfilled hsource hlength htarget
        (by omega) with htask | ⟨source', target', htask, hsource', hlength', htlength, htarget'⟩
      · rw [htask]
        exact .inl rfl
      · rw [htask, ok_bind]
        rw [Nat.add_sub_cancel' hstart.le] at hsource' htarget'
        have htarget'' : Holds toSize target' (firstNodes nodes ((pos + 1) * chunkSize)) := by
          rcases hend with hend | hend
          · rwa [hend] at htarget'
          · refine htarget'.congr fun k v ↦ ?_
            have hge : nodes.length ≤ (pos + 1) * chunkSize := hend ▸ hle'
            rw [h.firstNodes_iff hend.ge, h.firstNodes_iff hge]
        rw [← htlength]
        exact ih (by omega) hpos' (fun j hj ↦ hsource' j (by omega)) hlength' htarget''
    · have hstop : pos * chunkSize ≥ if pos * chunkSize + chunkSize > nodes.length then
          nodes.length else pos * chunkSize + chunkSize := by
        split_ifs <;> omega
      rw [if_pos hstop]
      exact .inr ⟨target, rfl, rfl, htarget.congr fun k v ↦ h.firstNodes_iff hge⟩

/-- A migration keeps all keys and values. -/
theorem doMigrate_spec (h : Holds toSize nodes r) (hfilled : Filled r) :
    doMigrate toSize nodes = .error "Migration overflow" ∨
    ∃ nodes', doMigrate toSize nodes = .ok nodes' ∧ nodes'.length = nodes.length * 2 ∧
      Holds toSize nodes' r := by
  have hpos := h.pos
  have hnew : Holds toSize (newArray (nodes.length * 2) : HashArray KeyT ValueT)
      (firstNodes nodes (0 * chunkSize)) := by
    refine (Holds.init (by omega)).congr fun k v ↦ ?_
    simp [firstNodes]
  have hmigrate := runMigrate_spec h hfilled (Nat.add_zero _) (Nat.zero_le _) (fun _ _ ↦ rfl) rfl
    hnew
  rwa [newArray, List.length_replicate] at hmigrate

/-! ## Calls -/

omit [DecidableEq ValueT] [One ValueT] in
/-- The nodes that are looked at have keys of their own. -/
theorem Holds.window_le_card (h : Holds toSize nodes r) {keys : List KeyT}
    (hkeys : ∀ k v, r k v → k ∈ keys)
    (hfull : ∀ x < nodes.length, ringDist nodes.length (home toSize nodes.length key) x <
      window nodes.length → keyAt nodes x ≠ none) : window nodes.length ≤ keys.length := by
  have hhome := home_lt toSize h.pos key
  have hwindow := window_le nodes.length
  let f (d : ℕ) : KeyT := (keyAt nodes ((home toSize nodes.length key + d) % nodes.length)).getD 0
  have hf : ∀ d < window nodes.length,
      keyAt nodes ((home toSize nodes.length key + d) % nodes.length) = some (f d) := by
    intro d hd
    obtain ⟨k, hk⟩ := Option.ne_none_iff_exists'.1 (hfull _ (Nat.mod_lt _ h.pos)
      (by rwa [ringDist_add_mod hhome (hd.trans_le hwindow)]))
    simp only [f, hk, Option.getD_some]
  have hnodup : ((List.range (window nodes.length)).map f).Nodup := by
    refine List.Nodup.map_on ?_ List.nodup_range
    intro d hd e he hde
    rw [List.mem_range] at hd he
    have heq := h.inj _ _ _ (hf d hd) (hde ▸ hf e he)
    have hdist := congrArg (ringDist nodes.length (home toSize nodes.length key)) heq
    rwa [ringDist_add_mod hhome (hd.trans_le hwindow),
      ringDist_add_mod hhome (he.trans_le hwindow)] at hdist
  have hsubset : (List.range (window nodes.length)).map f ⊆ keys := by
    intro k hk
    obtain ⟨d, hd, rfl⟩ := List.mem_map.1 hk
    obtain ⟨hzero, v, hnode⟩ := keyAt_eq_some.1 (hf d (List.mem_range.1 hd))
    exact hkeys _ v ((h.mem _ _).2 ⟨hzero, _, hnode⟩)
  simpa using (hnodup.subperm hsubset).length_le

/-- The window of an array of this size has room for one more key. -/
theorem lt_window {size : ℕ} (hsize : 0 < size) : size < window (size * 2 ^ 4) := by
  rw [window, lt_min_iff, lt_max_iff]
  omega

/-- `insert` with room for one more key after four migrations. -/
theorem insertLoop_spec {fuel j size : ℕ} (h : Holds toSize nodes r) (hfilled : Filled r)
    (hkey : key ≠ 0) {keys : List KeyT} (hkeys : ∀ k v, r k v → k ∈ keys)
    (hsize : keys.length ≤ size) (hpos : 0 < size) (hfuel : fuel + j = 5) (hlt : j < 5)
    (hlength : nodes.length = size * 2 ^ j) :
    insertLoop toSize key value fuel nodes = .error "Migration overflow" ∨
    ∃ nodes' v, insertLoop toSize key value fuel nodes = .ok (v, nodes') ∧
      ((r key v ∧ Holds toSize nodes' r) ∨
        ((∀ w, ¬r key w) ∧ v = value ∧
          Holds toSize nodes' fun k v ↦ r k v ∨ k = key ∧ v = value)) := by
  induction fuel generalizing j nodes with
  | zero => omega
  | succ fuel ih =>
    rw [insertLoop]
    by_cases hr : ∃ v, r key v
    · obtain ⟨v, hv⟩ := hr
      obtain ⟨t, ht, hwith⟩ := h.withValue_of_mem hv true (insertValue value)
      have hinsert : insertValue value v = (some v, v) := by
        rw [insertValue, if_neg (hfilled key v hv).1, if_neg (hfilled key v hv).2]
      rw [hwith, hinsert]
      refine .inr ⟨_, v, rfl, .inl ⟨hv, ?_⟩⟩
      rwa [set_eq_self ht]
    · have hr : ∀ w, ¬r key w := fun w hw ↦ hr ⟨w, hw⟩
      have hinsert : insertValue value (0 : ValueT) = (some value, value) := if_pos rfl
      rcases (h.withValue_of_notMem hkey hr (insertValue value)).2 with
        ⟨hwith, hfull⟩ | ⟨nodes', hwith, -, hnodes'⟩
      · have hcard := h.window_le_card hkeys hfull
        have hj : j ≠ 4 := by
          rintro rfl
          have := lt_window hpos
          rw [hlength] at hcard
          omega
        rw [hwith]
        dsimp only
        rcases doMigrate_spec h hfilled with hmigrate | ⟨nodes', hmigrate, hlength', hnodes'⟩
        · rw [hmigrate]
          exact .inl rfl
        · rw [hmigrate, ok_bind]
          refine ih hnodes' (j := j + 1) (by omega) (by omega) ?_
          rw [hlength', hlength, pow_succ, mul_assoc]
      · rw [hinsert] at hwith hnodes'
        rw [hwith]
        exact .inr ⟨nodes', value, rfl, .inr ⟨hr, rfl, hnodes'⟩⟩

theorem insert_spec (h : Holds toSize nodes r) (hfilled : Filled r) (hkey : key ≠ 0)
    (hvalue : value ≠ migrateValue) :
    insert toSize nodes key value = .error "Migration overflow" ∨
    ∃ nodes' v, insert toSize nodes key value = .ok (v, nodes') ∧
      ((r key v ∧ Holds toSize nodes' r) ∨
        ((∀ w, ¬r key w) ∧ v = value ∧
          Holds toSize nodes' fun k v ↦ r k v ∨ k = key ∧ v = value)) := by
  have hkeys : ∀ k v, r k v → k ∈ nodes.map Node.key := by
    intro k v hr
    obtain ⟨-, b, hnode⟩ := (h.mem k v).1 hr
    exact List.mem_map.2 ⟨_, List.mem_of_getElem? hnode, rfl⟩
  rw [insert, if_neg hkey, if_neg hvalue]
  exact insertLoop_spec h hfilled hkey hkeys (List.length_map _).le h.pos (Nat.add_zero 5)
    (by omega) (Nat.mul_one _).symm

theorem find_spec (h : Holds toSize nodes r) (hfilled : Filled r) (hkey : key ≠ 0) :
    ∃ v, find toSize nodes key value = .ok (v, nodes) ∧
      (r key v ∨ (∀ w, ¬r key w) ∧ v = value) := by
  rw [find, findLoop]
  by_cases hr : ∃ v, r key v
  · obtain ⟨v, hv⟩ := hr
    obtain ⟨t, ht, hwith⟩ := h.withValue_of_mem hv false fun nodeValue ↦ (nodeValue, nodeValue)
    rw [hwith]
    dsimp only
    rw [if_pos (hfilled key v hv).2, set_eq_self ht]
    exact ⟨v, rfl, .inl hv⟩
  · have hr : ∀ w, ¬r key w := fun w hw ↦ hr ⟨w, hw⟩
    rw [(h.withValue_of_notMem hkey hr fun nodeValue ↦ (nodeValue, nodeValue)).1]
    exact ⟨value, rfl, .inr ⟨hr, rfl⟩⟩

/-! ## Runs -/

section Firsts

omit [Zero KeyT] [Zero ValueT] [DecidableEq ValueT] [One ValueT]

/-- The values of the first inserts. -/
def firsts (ops : List (Op KeyT ValueT)) (k : KeyT) (v : ValueT) : Prop :=
  firstValue k ops = some v

/-- What a call returns after the calls before it. -/
def answer (before : List (Op KeyT ValueT)) : Op KeyT ValueT → ValueT
  | .insert key value => (firstValue key before).getD value
  | .find key value => (firstValue key before).getD value

variable {before : List (Op KeyT ValueT)}

theorem firstValue_concat (k : KeyT) (ops : List (Op KeyT ValueT)) (op : Op KeyT ValueT) :
    firstValue k (ops ++ [op]) = (firstValue k ops).or (firstValue k [op]) := by
  induction ops with
  | nil => rfl
  | cons op' ops ih =>
    cases op' with
    | find key value => exact ih
    | insert key value =>
      rw [List.cons_append, firstValue, firstValue]
      split_ifs with hkey
      · rfl
      · exact ih

theorem firsts_find : firsts (before ++ [.find key value]) = firsts before := by
  funext k v
  rw [firsts, firstValue_concat, firsts]
  simp [firstValue]

theorem firsts_insert_of_some (hsome : firstValue key before = some v) :
    firsts (before ++ [.insert key value]) = firsts before := by
  funext k w
  rw [firsts, firstValue_concat, firsts]
  by_cases hk : key = k
  · subst hk
    rw [hsome, Option.some_or]
  · simp [firstValue, hk]

theorem firsts_insert_of_none (hnone : firstValue key before = none) :
    firsts (before ++ [.insert key value]) = fun k v ↦ firsts before k v ∨ k = key ∧ v = value := by
  funext k w
  rw [firsts, firstValue_concat, firsts]
  by_cases hk : key = k
  · subst hk
    simp [hnone, firstValue, eq_comm]
  · simp [firstValue, hk, Ne.symm hk]

end Firsts

/-- A call with a key, and with a value that stands for one. -/
def Op.Plain : Op KeyT ValueT → Prop
  | .insert key value => key ≠ 0 ∧ value ≠ 0 ∧ value ≠ migrateValue
  | .find key _ => key ≠ 0

variable {before : List (Op KeyT ValueT)} {op : Op KeyT ValueT}

/-- Every call answers with the first value. -/
theorem step_spec (h : Holds toSize nodes (firsts before)) (hfilled : Filled (firsts before))
    (hop : op.Plain) :
    step toSize nodes op = .error "Migration overflow" ∨
    ∃ nodes', step toSize nodes op = .ok (answer before op, nodes') ∧
      Holds toSize nodes' (firsts (before ++ [op])) ∧ Filled (firsts (before ++ [op])) := by
  cases op with
  | insert key value =>
    obtain ⟨hkey, hzero, hmigrate⟩ := hop
    rcases insert_spec h hfilled hkey hmigrate with
      herror | ⟨nodes', v, hinsert, ⟨hr, h'⟩ | ⟨hr, rfl, h'⟩⟩
    · exact .inl herror
    · refine .inr ⟨nodes', ?_, ?_⟩
      · rw [step, hinsert, answer, hr, Option.getD_some]
      · rw [firsts_insert_of_some hr]
        exact ⟨h', hfilled⟩
    · have hnone : firstValue key before = none := Option.eq_none_iff_forall_ne_some.2 hr
      refine .inr ⟨nodes', ?_, ?_⟩
      · rw [step, hinsert, answer, hnone, Option.getD_none]
      · rw [firsts_insert_of_none hnone]
        refine ⟨h', ?_⟩
        rintro k w (hw | ⟨rfl, rfl⟩)
        · exact hfilled k w hw
        · exact ⟨hzero, hmigrate⟩
  | find key value =>
    obtain ⟨v, hfind, hr⟩ : ∃ v, find toSize nodes key value = .ok (v, nodes) ∧
        (firsts before key v ∨ (∀ w, ¬firsts before key w) ∧ v = value) := find_spec h hfilled hop
    refine .inr ⟨nodes, ?_, ?_⟩
    · rw [step, hfind, answer]
      rcases hr with hr | ⟨hr, rfl⟩
      · rw [hr, Option.getD_some]
      · rw [Option.eq_none_iff_forall_ne_some.2 hr, Option.getD_none]
    · rw [firsts_find]
      exact ⟨h, hfilled⟩

/-- What one call does, a run does call by call, if no migration overflows. -/
theorem run_spec {ops : List (Op KeyT ValueT)} (hops : ∀ op ∈ ops, op.Plain)
    (h : Holds toSize nodes (firsts before)) (hfilled : Filled (firsts before)) :
    runProgram (step toSize) ops nodes = .error "Migration overflow" ∨
    ∃ outs nodes', runProgram (step toSize) ops nodes = .ok (outs, nodes') ∧
      ∀ done op after, ops = done ++ op :: after →
        outs[done.length]? = some (answer (before ++ done) op) := by
  induction ops generalizing nodes before with
  | nil => exact .inr ⟨[], nodes, rfl, fun done op after hsplit ↦ by simp at hsplit⟩
  | cons op ops ih =>
    rcases step_spec h hfilled (hops op (by simp)) with hstep | ⟨nodes₁, hstep, h₁, hfilled₁⟩
    · exact .inl (by simp only [runProgram, hstep, error_bind])
    · rcases ih (fun op hop ↦ hops op (List.mem_cons_of_mem _ hop)) h₁ hfilled₁ with
        hrun | ⟨outs, nodes', hrun, houts⟩
      · exact .inl (by simp only [runProgram, hstep, ok_bind, hrun, error_bind])
      · refine .inr ⟨answer before op :: outs, nodes',
          by simp only [runProgram, hstep, ok_bind, hrun, pure_eq_ok], ?_⟩
        intro done op' after hsplit
        cases done with
        | nil =>
          rw [List.nil_append, List.cons.injEq] at hsplit
          obtain ⟨rfl, -⟩ := hsplit
          rw [List.append_nil]
          rfl
        | cons op₁ done =>
          rw [List.cons_append, List.cons.injEq] at hsplit
          obtain ⟨rfl, hsplit⟩ := hsplit
          have hout := houts done op' after hsplit
          rwa [List.append_assoc] at hout

/-- In every run of calls with keys and values, one after another, `find` returns the value of the
first insert of its key or the default, and `insert` returns the value that is stored then; unless a
migration overflows, every call returns. -/
theorem run_first (toSize : KeyT → ℕ) (ops : List (Op KeyT ValueT))
    (hops : ∀ op ∈ ops, op.Plain) :
    runProgram (step toSize) ops (newArray 1) = .error "Migration overflow" ∨
    ∃ outs nodes, runProgram (step toSize) ops (newArray 1) = .ok (outs, nodes) ∧
      (∀ done key value after, ops = done ++ .find key value :: after →
        outs[done.length]? = some ((firstValue key done).getD value)) ∧
      ∀ done key value after, ops = done ++ .insert key value :: after →
        outs[done.length]? = firstValue key (done ++ [.insert key value]) := by
  have h : Holds toSize (newArray 1 : HashArray KeyT ValueT) (firsts []) :=
    (Holds.init Nat.one_pos).congr fun k v ↦ by simp [firsts, firstValue]
  have hfilled : Filled (firsts ([] : List (Op KeyT ValueT))) := by
    intro k v hr
    simp [firsts, firstValue] at hr
  rcases run_spec hops h hfilled with herror | ⟨outs, nodes, hrun, houts⟩
  · exact .inl herror
  · refine .inr ⟨outs, nodes, hrun, ?_, ?_⟩
    · intro done key value after hsplit
      exact houts done _ after hsplit
    · intro done key value after hsplit
      rw [houts done _ after hsplit, firstValue_concat, List.nil_append, answer]
      cases firstValue key done <;> simp [firstValue]

/-- Two keys, and a migration between them. -/
theorem run_first_two : ∃ outs nodes,
    runProgram (step UInt64.toNat) [.insert 7 (5 : UInt64), .insert 3 6, .insert 7 8, .find 3 9]
      (newArray 1) = .ok (outs, nodes) ∧ outs[2]? = some 5 ∧ outs[3]? = some 6 := by
  rcases run_first UInt64.toNat [.insert 7 (5 : UInt64), .insert 3 6, .insert 7 8, .find 3 9]
    (by simp [Op.Plain, migrateValue]) with herror | ⟨outs, nodes, hrun, hfind, hinsert⟩
  · exact absurd herror (by decide)
  · exact ⟨outs, nodes, hrun, hinsert [.insert 7 5, .insert 3 6] 7 8 [.find 3 9] rfl,
      hfind [.insert 7 5, .insert 3 6, .insert 7 8] 3 9 [] rfl⟩

/-- The first value is not kept if it is the empty one. -/
theorem empty_value_replaced :
    (runProgram (step UInt64.toNat) [.insert 1 (0 : UInt64), .insert 1 5, .find 1 9]
      (newArray 1)).map Prod.fst = .ok [0, 5, 5] ∧
    firstValue (1 : UInt64) [.insert 1 (0 : UInt64), .insert 1 5] = some 0 := by
  decide

end PxcCore.ConcurrentHashMap
