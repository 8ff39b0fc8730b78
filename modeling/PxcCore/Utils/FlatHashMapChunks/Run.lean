import PxcCore.Utils.FlatHashMapChunks.Erase

/-!
# Runs of operations on a chunked table

The map that a table stands for is computed from the history of its operations, by `Op.apply`.
`run_consistent` compares the two after every run that returns, and `Consistent` lists what the
control bytes and the counters then show.
-/

namespace PxcCore.FlatHashMapChunks

open Lib TriangularProbing Buckets

variable {K V : Type} {T : HashTraits K}

/-! ## Operations on models -/

namespace Table

variable {t : Table K V} {m : K → Option V}

theorem Models.init : Models T ({} : Table K V) (fun _ ↦ none) where
  shape := Or.inl rfl
  represents := by
    rw [entries, contents_none]
    exact .empty

theorem Models.used_le (h : Models T t m) : t.usedNodes ≤ t.nodesSize := by
  rw [← h.card_entries]
  exact card_contents_le _ _

/-- After `try_grow` there is an empty slot. -/
theorem Models.tryGrow (h : Models T t m) : t.tryGrow T = .error .check ∨
    ∃ t', t.tryGrow T = .ok t' ∧ Allocated T t' ∧ Models T t' m ∧ t'.usedNodes < t'.nodesSize := by
  have hle := h.used_le
  unfold Table.tryGrow
  by_cases hg : shouldGrow (t.usedNodes + 1) t.nodesSize = true
  · rw [if_pos hg, grow]
    obtain ⟨k, hk, -, hlt⟩ := normalize_eq (2 * t.nodesSize - if t.nodesSize = 0 then 0 else 1)
    rcases h.resize (2 * t.nodesSize - if t.nodesSize = 0 then 0 else 1) with
      ⟨f, hr, hf⟩ | ⟨t', hr, ha, hm, hu, hs⟩
    · left
      rcases hf with rfl | hf
      · exact hr
      · split_ifs at hf hlt <;> omega
    · right
      refine ⟨t', hr, ha, hm, ?_⟩
      rw [hu, hs]
      split_ifs at hlt ⊢ <;> omega
  · right
    rw [if_neg hg]
    simp only [shouldGrow, decide_eq_true_eq] at hg
    refine ⟨t, rfl, ?_, h, by omega⟩
    rcases h.shape with rfl | ha
    · simp at hg
    · exact ha

/-- Putting in a node with a new key. -/
theorem Models.placed (h : Models T t m) (ha : Allocated T t) {key : K} (hm : m key = none)
    (hk : T.isHashTableKeyEmpty key = false) {value : V} {j p : ℕ} {t' : Table K V}
    (hp : PlacedAt T t (key, value) (homeChunk T t.chunksSize key) 0 j p t') :
    Models T t' (T.insert m key value) := by
  refine ⟨Or.inr (hp.allocated ha hk), ?_⟩
  rw [hp.entries ha (ha.home_lt _)]
  exact h.represents.insert hm value

/-- `emplace` of a key that `find` has not found. -/
theorem emplace_new {key : K} (hk : T.isHashTableKeyEmpty key = false)
    (hr : t.find T key = .ok none) (value : V) :
    t.emplace T key value = t.tryGrow T >>= fun t ↦ t.emplaceNode T (key, value) >>= fun r ↦
      .ok ((r.1, true), r.2) := by
  rw [Table.emplace, hk, hr]
  rfl

/-- `emplace`, when it returns. -/
theorem Models.emplace (h : Models T t m) {key : K} (hk : T.isHashTableKeyEmpty key = false)
    (value : V) : (∃ f, t.emplace T key value = .error f) ∨
      ∃ b t', t.emplace T key value = .ok ((b, (m key).isNone), t') ∧
        Models T t' (T.emplace m key value) ∧
        (t'.nodes b).map Prod.snd = T.emplace m key value key := by
  rcases h.find hk with ⟨b, x, hr, -, -, hx, -, hm⟩ | ⟨hm, ⟨hr, -⟩ | ⟨hr, -⟩⟩
  · right
    refine ⟨b, t, by simp [Table.emplace, hk, hr, hm], ?_, ?_⟩
    · rwa [T.emplace_of_some hm]
    · rw [T.emplace_of_some hm, hx, hm]
      rfl
  swap
  · left
    exact ⟨.fuel, by simp [Table.emplace, hk, hr]⟩
  rw [emplace_new hk hr, hm]
  rcases h.tryGrow with hg | ⟨t₁, hg, ha, hm₁, hlt⟩
  · left
    exact ⟨.check, by rw [hg, error_bind]⟩
  rcases ha.emplaceNode (key, value) with ⟨j, p, t', hr', hp⟩ | ⟨hr', -⟩ | ⟨hr', -⟩
  · right
    refine ⟨t₁.walk T key j * chunkSize + p, t', by rw [hg, ok_bind, hr']; rfl, ?_, ?_⟩
    · rw [T.emplace_of_none hm]
      exact hm₁.placed ha hm hk hp
    · rw [T.emplace_of_none hm, hp.nodes, T.insert_self]
      simp [walk]
  · left
    exact ⟨.check, by rw [hg, ok_bind, hr', error_bind]⟩
  · left
    exact ⟨.fuel, by rw [hg, ok_bind, hr', error_bind]⟩

/-- `erase(Iterator)`. -/
theorem Models.eraseIterator (h : Models T t m) (it : ℕ) :
    t.eraseIterator T it = .error .badIterator ∧ ¬(it < t.nodesSize ∧ (t.nodes it).isSome) ∨
      ∃ x t', it < t.nodesSize ∧ t.nodes it = some x ∧ m x.1 = some x.2 ∧
        t.eraseIterator T it = .ok t' ∧ Models T t' (T.erase m x.1) ∧
        x ::ₘ t'.entries = t.entries ∧ t'.nodesSize = t.nodesSize ∧
        t'.nodes = Function.update t.nodes it none := by
  by_cases hit : it < t.nodesSize
  swap
  · left
    simp [Table.eraseIterator, hit]
  cases hx : t.nodes it with
  | none =>
    left
    simp [Table.eraseIterator, hit, hx]
  | some x =>
    right
    have ha : Allocated T t := by
      rcases h.shape with rfl | ha
      · simp at hx
      · exact ha
    obtain ⟨t', hr, ha', hent, hs, hn⟩ := ha.eraseNode hit hx
    have hrep := h.represents
    have hm := hrep.of_mem (mem_contents.2 ⟨it, hit, hx⟩) (T.refl x.1)
    rw [← hent] at hrep
    exact ⟨x, t', hit, rfl, hm, by simp [Table.eraseIterator, hit, hx, hr],
      ⟨Or.inr ha', hrep.erase (T.refl x.1)⟩, hent, hs, hn⟩

theorem erase_congr {a b : K} (h : T.eq a b = true) (m : K → Option V) :
    T.erase m a = T.erase m b := by
  funext k
  simp only [KeyEq.erase]
  rw [T.eq_comm a k, T.eq_comm b k, T.eq_congr_right h k]

/-- `try_shrink`, when it returns. -/
theorem Models.tryShrink (h : Models T t m) : t.tryShrink T = .error .check ∨
    ∃ t', t.tryShrink T = .ok t' ∧ Models T t' m := by
  unfold Table.tryShrink
  by_cases hs : shouldShrink t.usedNodes t.nodesSize = true
  · rw [if_pos hs, shrink]
    obtain ⟨k, hk, -, hlt⟩ := normalize_eq ((t.usedNodes + 1) * 5 / 3 + 1)
    rcases h.resize ((t.usedNodes + 1) * 5 / 3 + 1) with ⟨f, hr, rfl | hf⟩ | ⟨t', hr, -, hm, -⟩
    · exact Or.inl hr
    · omega
    · exact Or.inr ⟨t', hr, hm⟩
  · rw [if_neg hs]
    exact Or.inr ⟨t, rfl, h⟩

/-- `erase(const KeyT &)`, when it returns. -/
theorem Models.erase (h : Models T t m) {key : K} (hk : T.isHashTableKeyEmpty key = false) :
    (∃ f, t.erase T key = .error f) ∨
      ∃ t', t.erase T key = .ok (if (m key).isSome then 1 else 0, t') ∧
        Models T t' (T.erase m key) := by
  rcases h.find hk with ⟨b, x, hr, -, hb, hx, hxk, hm⟩ | ⟨hm, ⟨hr, -⟩ | ⟨hr, -⟩⟩
  · obtain ⟨-, hbad⟩ | ⟨y, t₁, -, hy, -, he, hm₁, -⟩ := h.eraseIterator b
    · simp [hb, hx] at hbad
    rw [hx, Option.some.injEq] at hy
    subst hy
    rw [erase_congr hxk] at hm₁
    rcases hm₁.tryShrink with hs | ⟨t', hs, hm'⟩
    · left
      exact ⟨.check, by simp [Table.erase, hr, he, hs]⟩
    · right
      exact ⟨t', by simp [Table.erase, hr, he, hs, hm], hm'⟩
  · right
    exact ⟨t, by simp [Table.erase, hr, hm], h.shape, h.represents.erase_none hm⟩
  · left
    exact ⟨.fuel, by simp [Table.erase, hr]⟩

end Table

/-! ## Histories -/

/-- An operation; `resize` is called with sizes that `normalize` gives. -/
inductive Op (T : HashTraits K) (V : Type) where
  | emplace (key : T.Key) (value : V)
  | find (key : T.Key)
  | erase (key : T.Key)
  | eraseIterator (it : ℕ)
  | clear
  | reserve (size : ℕ)
  | resize (size : ℕ)

/-- What an operation returns.  `node` is the value of the node and whether it is new, `erased` the
key of the node an iterator pointed to. -/
inductive Result (K V : Type) where
  | node (value : Option V) (inserted : Bool)
  | found (value : Option V)
  | number (n : ℕ)
  | erased (key : Option K)
  | done

section

variable (T)

/-- One operation. -/
def step (t : Table K V) : Op T V → Except Fault (Result K V × Table K V)
  | .emplace key value => do
    let ((it, inserted), t) ← t.emplace T key.1 value
    return (.node ((t.nodes it).map Prod.snd) inserted, t)
  | .find key => do
    let it ← t.find T key.1
    return (.found ((it.bind t.nodes).map Prod.snd), t)
  | .erase key => do
    let (n, t) ← t.erase T key.1
    return (.number n, t)
  | .eraseIterator it => do
    let t' ← t.eraseIterator T it
    return (.erased ((t.nodes it).map Prod.fst), t')
  | .clear => return (.done, t.clear)
  | .reserve size => do
    let t ← t.reserve T size
    return (.done, t)
  | .resize size => do
    let t ← t.resize T (normalize size)
    return (.done, t)

/-- A sequence of operations, with what each returns. -/
def run : List (Op T V) → Table K V → Except Fault (List (Result K V) × Table K V)
  | [], t => .ok ([], t)
  | op :: ops, t => do
    let (r, t) ← step T t op
    let (rs, t) ← run ops t
    return (r :: rs, t)

variable {T}

/-- The map after an operation that returned `r`. -/
def Op.apply (m : K → Option V) : Op T V → Result K V → K → Option V
  | .emplace key value, _ => T.emplace m key.1 value
  | .erase key, _ => T.erase m key.1
  | .eraseIterator _, .erased (some key) => T.erase m key
  | .clear, _ => fun _ ↦ none
  | _, _ => m

/-- What an operation has to return on the map `m`. -/
def Op.Returns (m : K → Option V) : Op T V → Result K V → Prop
  | .emplace key value, r => r = .node (T.emplace m key.1 value key.1) (m key.1).isNone
  | .find key, r => r = .found (m key.1)
  | .erase key, r => r = .number (if (m key.1).isSome then 1 else 0)
  | .eraseIterator _, r => ∃ key, r = .erased (some key) ∧ (m key).isSome
  | _, r => r = .done

/-- The map after a history. -/
def history : List (Op T V) → List (Result K V) → (K → Option V) → K → Option V
  | op :: ops, r :: rs, m => history ops rs (op.apply m r)
  | _, _, m => m

/-- Every operation of a history returned what it has to. -/
def Returned : List (Op T V) → List (Result K V) → (K → Option V) → Prop
  | op :: ops, r :: rs, m => op.Returns m r ∧ Returned ops rs (op.apply m r)
  | [], [], _ => True
  | _, _, _ => False

/-- A step that returns does to the table what it does to the map. -/
theorem step_spec {t t' : Table K V} {m : K → Option V} (h : Table.Models T t m) {op : Op T V}
    {r : Result K V} (hs : step T t op = .ok (r, t')) :
    op.Returns m r ∧ Table.Models T t' (op.apply m r) := by
  cases op with
  | emplace key value =>
    rcases h.emplace key.2 value with ⟨f, hr⟩ | ⟨b, t₁, hr, hm, hv⟩
    · simp [step, hr] at hs
    · simp only [step, hr, ok_bind, pure_eq_ok, Except.ok.injEq, Prod.mk.injEq] at hs
      obtain ⟨rfl, rfl⟩ := hs
      exact ⟨by rw [Op.Returns, hv], hm⟩
  | find key =>
    rcases h.find key.2 with ⟨b, x, hr, -, -, hx, -, hm⟩ | ⟨hm, ⟨hr, -⟩ | ⟨hr, -⟩⟩
    · simp only [step, hr, ok_bind, pure_eq_ok, Except.ok.injEq, Prod.mk.injEq] at hs
      obtain ⟨rfl, rfl⟩ := hs
      exact ⟨by simp [Op.Returns, hx, hm], h⟩
    · simp only [step, hr, ok_bind, pure_eq_ok, Except.ok.injEq, Prod.mk.injEq] at hs
      obtain ⟨rfl, rfl⟩ := hs
      exact ⟨by simp [Op.Returns, hm], h⟩
    · simp [step, hr] at hs
  | erase key =>
    rcases h.erase key.2 with ⟨f, hr⟩ | ⟨t₁, hr, hm⟩
    · simp [step, hr] at hs
    · simp only [step, hr, ok_bind, pure_eq_ok, Except.ok.injEq, Prod.mk.injEq] at hs
      obtain ⟨rfl, rfl⟩ := hs
      exact ⟨rfl, hm⟩
  | eraseIterator it =>
    rcases h.eraseIterator it with ⟨hr, -⟩ | ⟨x, t₁, -, hx, hmx, hr, hm, -⟩
    · simp [step, hr] at hs
    · simp only [step, hr, hx, ok_bind, pure_eq_ok, Except.ok.injEq, Prod.mk.injEq] at hs
      obtain ⟨rfl, rfl⟩ := hs
      exact ⟨⟨x.1, rfl, by simp [hmx]⟩, hm⟩
  | clear =>
    simp only [step, pure_eq_ok, Except.ok.injEq, Prod.mk.injEq] at hs
    obtain ⟨rfl, rfl⟩ := hs
    exact ⟨rfl, .init⟩
  | reserve size =>
    simp only [step, bind_eq_ok, pure_eq_ok, Except.ok.injEq, Prod.mk.injEq] at hs
    obtain ⟨t₁, hr, rfl, rfl⟩ := hs
    refine ⟨rfl, ?_⟩
    unfold Table.reserve at hr
    simp only at hr
    split_ifs at hr
    · rcases h.resize (size * 14 / 12 + 1) with ⟨f, hf, -⟩ | ⟨t₂, hr', -, hm, -⟩
      · simp [hf] at hr
      · rw [hr', Except.ok.injEq] at hr
        exact hr ▸ hm
    · rw [Except.ok.injEq] at hr
      exact hr ▸ h
  | resize size =>
    simp only [step, bind_eq_ok, pure_eq_ok, Except.ok.injEq, Prod.mk.injEq] at hs
    obtain ⟨t₁, hr, rfl, rfl⟩ := hs
    refine ⟨rfl, ?_⟩
    rcases h.resize size with ⟨f, hf, -⟩ | ⟨t₂, hr', -, hm, -⟩
    · simp [hf] at hr
    · rw [hr', Except.ok.injEq] at hr
      exact hr ▸ hm

theorem run_spec {ops : List (Op T V)} {t t' : Table K V} {m : K → Option V}
    {rs : List (Result K V)}
    (h : Table.Models T t m) (hr : run T ops t = .ok (rs, t')) :
    Returned ops rs m ∧ Table.Models T t' (history ops rs m) := by
  induction ops generalizing t m rs with
  | nil =>
    simp only [run, Except.ok.injEq, Prod.mk.injEq] at hr
    obtain ⟨rfl, rfl⟩ := hr
    exact ⟨trivial, h⟩
  | cons op ops ih =>
    simp only [run, bind_eq_ok, pure_eq_ok, Except.ok.injEq, Prod.mk.injEq] at hr
    obtain ⟨⟨r, t₁⟩, hs, ⟨rs', t₂⟩, hr, rfl, rfl⟩ := hr
    obtain ⟨hret, hm⟩ := step_spec h hs
    obtain ⟨hrets, hm'⟩ := ih hm hr
    exact ⟨⟨hret, hrets⟩, hm'⟩

/-- The books of a table that holds the map `m`: the control bytes show which slots are empty and
the small hash of the others; `skipped_cnt` of a chunk is the number of stored nodes whose walk
passes over it before the chunk that holds them; `used_nodes_` is the number of nodes; a search that
returns finds what the map has; the walk of every key comes to every chunk; and while there are
fewer nodes than slots an insertion finds an empty one. -/
structure Consistent (T : HashTraits K) (t : Table K V) (m : K → Option V) : Prop where
  ctrl_zero : ∀ c < t.chunksSize, ∀ p < chunkSize,
    (t.chunks c).ctrl p = 0 ↔ t.nodes (c * chunkSize + p) = none
  ctrl_node : ∀ c < t.chunksSize, ∀ p < chunkSize, ∀ x, t.nodes (c * chunkSize + p) = some x →
    (t.chunks c).ctrl p = (0x80 ||| T.hash x.1).toUInt8
  skipped : ∀ c < t.chunksSize, (t.chunks c).skippedCnt = passed t.chunksSize (t.placed T) c
  used : t.usedNodes = t.entries.card
  find : ∀ key : T.Key, ∀ r, t.find T key.1 = .ok r → (r.bind t.nodes).map Prod.snd = m key.1
  visits : ∀ key, ∀ c < t.chunksSize, ∃ i < t.chunksSize, t.walk T key i = c
  room : ∀ node, t.usedNodes < t.nodesSize → t.emplaceNode T node ≠ .error .fuel

theorem Table.Models.consistent {t : Table K V} {m : K → Option V} (h : Table.Models T t m) :
    Consistent T t m := by
  have hfind (key : T.Key) (r : Option ℕ) (hr : t.find T key.1 = .ok r) :
      (r.bind t.nodes).map Prod.snd = m key.1 := by
    rcases h.find key.2 with ⟨b, x, hr', -, -, hx, -, hm⟩ | ⟨hm, ⟨hr', -⟩ | ⟨hr', -⟩⟩
    · rw [hr', Except.ok.injEq] at hr
      simp [← hr, hx, hm]
    · rw [hr', Except.ok.injEq] at hr
      simp [← hr, hm]
    · simp [hr'] at hr
  rcases h.shape with rfl | ha
  · exact
      { ctrl_zero := by simp
        ctrl_node := by simp
        skipped := by simp
        used := by simp [Table.entries]
        find := hfind
        visits := by simp
        room := by simp }
  · exact
      { ctrl_zero := fun c hc p hp ↦ by rw [ha.ctrl c hc p hp, ctrlByte_eq_zero]
        ctrl_node := fun c hc p hp x hx ↦ by rw [ha.ctrl c hc p hp, hx]; rfl
        skipped := ha.skipped
        used := ha.used
        find := hfind
        visits := fun key c hc ↦ ha.exists_walk key hc
        room := fun node hlt ↦ ha.emplaceNode_ne_fuel hlt node }

end

end PxcCore.FlatHashMapChunks
