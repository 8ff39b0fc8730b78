import PxcCore.Utils.FlatHashTable.Fill
import PxcCore.Utils.Tl.Helpers

/-!
# What `parse` reads

The meaning of a byte string for each type: the object that it is parsed to, and when it can be
parsed at all (`Parsable`).  Only sets can fail, and only because of their keys.
-/

namespace PxcCore.Tl

open Lib FlatHashTable

/-! ## Reading from a stream -/

/-- `get_left_len`. -/
def Stream.length : Stream → ℕ
  | some bytes => bytes.length
  | none => 0

def readInt32 (s : Stream) : Int32 × Stream :=
  ((UInt32.ofNat (ofLe (s.take 4).1)).toInt32, (s.take 4).2)

def readInt64 (s : Stream) : Int64 × Stream :=
  ((UInt64.ofNat (ofLe (s.take 8).1)).toInt64, (s.take 8).2)

/-- The number of elements of a container. -/
def readSize (s : Stream) : ℕ × Stream := ((readInt32 s).1.toUInt32.toNat, (readInt32 s).2)

/-- A number of elements. -/
def readAll {α : Type} (read : Stream → α × Stream) : ℕ → Stream → List α × Stream
  | 0, s => ([], s)
  | n + 1, s =>
    let (val, s) := read s
    let (vals, s) := readAll read n s
    (val :: vals, s)

/-- The alternative of a variant, if it has that many. -/
def alternative (n : ℕ) (typeOffset : Int32) : Option (Fin n) :=
  if h : 0 ≤ typeOffset.toInt ∧ typeOffset.toInt < n then some (toOffset h) else none

/-- The object, if all its sets can be filled. -/
def read : {k : Bool} → {α : Type} → TlType k α → Stream → α × Stream
  | _, _, .bool, s => ((readInt32 s).1 != 0, (readInt32 s).2)
  | _, _, .int32, s => readInt32 s
  | _, _, .uint32, s => ((readInt32 s).1.toUInt32, (readInt32 s).2)
  | _, _, .int64, s => readInt64 s
  | _, _, .uint64, s => ((readInt64 s).1.toUInt64, (readInt64 s).2)
  | _, _, .enum w _, s => (int32ToEnum w (readInt32 s).1, (readInt32 s).2)
  | _, _, .double, s => ((readInt64 s).1.toUInt64, (readInt64 s).2)
  | _, _, .string, s => s.string
  | _, _, .vector t, s =>
    let (size, s) := readSize s
    if s.length < size then ([], none) else readAll (read t) size s
  | _, _, .pair t u, s =>
    let (first, s) := read t s
    let (second, s) := read u s
    ((first, second), s)
  | _, _, @TlType.variant _ n _ _ ts, s =>
    let (typeOffset, s) := readInt32 s
    match alternative n typeOffset with
    | none => (none, none)
    | some i =>
      let (value, s) := read (ts i) s
      (some ⟨i, value⟩, s)
  | _, _, .uniquePtr t, s =>
    let (value, s) := read t s
    (some value, s)
  | _, _, .flatHashSet T t, s =>
    let (size, s) := readSize s
    if s.length < size then ({}, none)
    else
      let (keys, s) := readAll (read t) size s
      ((insertAll T keys {}).toOption.getD {}, s)

/-- All elements can be parsed. -/
def AllParsable {α : Type} (read : Stream → α × Stream) (parsable : Stream → Prop) :
    ℕ → Stream → Prop
  | 0, _ => True
  | n + 1, s => parsable s ∧ AllParsable read parsable n (read s).2

/-- No set in the object meets an empty key or more distinct keys than fit into a table. -/
def Parsable : {k : Bool} → {α : Type} → TlType k α → Stream → Prop
  | _, _, .vector t, s =>
    let (size, s) := readSize s
    size ≤ s.length → AllParsable (read t) (Parsable t) size s
  | _, _, .pair t u, s => Parsable t s ∧ Parsable u (read t s).2
  | _, _, @TlType.variant _ n _ _ ts, s =>
    let (typeOffset, s) := readInt32 s
    ∀ i ∈ alternative n typeOffset, Parsable (ts i) s
  | _, _, .uniquePtr t, s => Parsable t s
  | _, _, .flatHashSet T t, s =>
    let (size, s) := readSize s
    size ≤ s.length →
      let keys := (readAll (read t) size s).1
      (∀ key ∈ keys, T.isHashTableKeyEmpty key = false) ∧ Fits T (distinct T keys).length
  | _, _, _, _ => True

/-! ## Parsing as reading -/

/-- A parser reads `v` and leaves `s` if `P` holds, and is stopped by a hash table if not. -/
structure Parses {α : Type} (p : TlParser) (P : Prop) (r : Except Fault (α × TlParser)) (v : α)
    (s : Stream) : Prop where
  fetches : P → p.Fetches r v s
  fails : ¬P → ∃ f, r = .error (.table f)

section

variable {α β : Type} {p : TlParser} {P Q : Prop} {r : Except Fault (α × TlParser)} {v : α}
  {w : β} {s s' : Stream} {f : α × TlParser → Except Fault (β × TlParser)}

theorem Parses.of_fetches (h : p.Fetches r v s) : Parses p True r v s :=
  ⟨fun _ ↦ h, fun hn ↦ (hn trivial).elim⟩

/-- Nothing is read. -/
theorem Parses.done (h : p.At 0 s) (v : α) : Parses p True (.ok (v, p)) v s :=
  .of_fetches ⟨p, rfl, h, .refl p⟩

/-- One parser after another. -/
theorem Parses.bind (h : Parses p P r v s)
    (h' : ∀ p', p'.At 0 s → Parses p' Q (f (v, p')) w s') : Parses p (P ∧ Q) (r >>= f) w s' where
  fetches hPQ := by
    obtain ⟨p', rfl, ha, hk⟩ := h.fetches hPQ.1
    exact .of_keeps hk ((h' p' ha).fetches hPQ.2)
  fails hPQ := by
    by_cases hP : P
    · obtain ⟨p', rfl, ha, -⟩ := h.fetches hP
      exact (h' p' ha).fails fun hQ ↦ hPQ ⟨hP, hQ⟩
    · obtain ⟨e, rfl⟩ := h.fails hP
      exact ⟨e, rfl⟩

theorem Parses.congr (h : Parses p P r v s) (hPQ : P ↔ Q) : Parses p Q r v s :=
  ⟨fun hQ ↦ h.fetches (hPQ.2 hQ), fun hQ ↦ h.fails fun hP ↦ hQ (hPQ.1 hP)⟩

/-- A fetch and what comes behind it. -/
theorem Parses.bind_fetches (h : p.Fetches r v s)
    (h' : ∀ p', p'.At 0 s → Parses p' Q (f (v, p')) w s') : Parses p Q (r >>= f) w s' :=
  ((Parses.of_fetches h).bind h').congr (iff_of_eq (true_and Q))

/-- The result is converted. -/
theorem Parses.map (h : Parses p P r v s) (g : α → β) :
    Parses p P (r >>= fun x ↦ pure (g x.1, x.2)) (g v) s :=
  (h.bind fun _ ha ↦ .done ha (g v)).congr (iff_of_eq (and_true P))

/-- An error is set. -/
theorem Parses.setError (h : p.At 0 s) {msg : String} (hm : msg ≠ "") (v : α) :
    Parses p True (p.setError msg >>= fun p ↦ pure (v, p)) v none := by
  obtain ⟨p', hr, ha, -, hk⟩ := h.setError hm
  exact .of_fetches ⟨p', by rw [hr]; rfl, ha, hk⟩

end

theorem TlParser.At.leftLen {p : TlParser} {s : Stream} (h : p.At 0 s) : p.leftLen = s.length := by
  cases s with
  | none => exact h.2.2.1
  | some bytes => exact h.2.2.1

/-! ## The containers -/

section

variable {α : Type} {parse : TlParser → Except Fault (α × TlParser)} {read : Stream → α × Stream}
  {parsable : Stream → Prop} {p : TlParser} {s : Stream}

theorem parseAll_spec
    (h : ∀ p s, p.At 0 s → Parses p (parsable s) (parse p) (read s).1 (read s).2) (n : ℕ)
    (hp : p.At 0 s) :
    Parses p (AllParsable read parsable n s) (parseAll parse n p) (readAll read n s).1
      (readAll read n s).2 := by
  induction n generalizing p s with
  | zero => exact .done hp []
  | succ n ih =>
    refine (h p s hp).bind fun p' hp' ↦ ?_
    exact (ih hp').map ((read s).1 :: ·)

/-- The keys are read and put into the set one by one. -/
theorem parseKeys_spec {T : Traits α}
    (h : ∀ (p : TlParser) s, p.At 0 s → p.Fetches (parse p) (read s).1 (read s).2) {keys : List α}
    {t : Table α Unit} (ht : t.Filled T keys) (n : ℕ) (hp : p.At 0 s) :
    Parses p ((∀ key ∈ (readAll read n s).1, T.isHashTableKeyEmpty key = false) ∧
        Fits T ((readAll read n s).1.foldl (addKey T) keys).length) (parseKeys T parse n t p)
      ((insertAll T (readAll read n s).1 t).toOption.getD {}) (readAll read n s).2 := by
  induction n generalizing p s t keys with
  | zero =>
    refine (Parses.done hp t).congr (iff_of_true trivial ⟨fun key hkey ↦ ?_, ht.fits⟩)
    cases hkey
  | succ n ih =>
    refine .bind_fetches (h p s hp) fun p' hp' ↦ ?_
    change Parses p' ((∀ key ∈ (read s).1 :: (readAll read n (read s).2).1, _) ∧
      Fits T ((readAll read n (read s).2).1.foldl _ (addKey T keys (read s).1)).length) _
      ((insertAll T ((read s).1 :: (readAll read n (read s).2).1) t).toOption.getD {}) _
    rw [List.forall_mem_cons, insertAll]
    dsimp only
    cases hk : T.isHashTableKeyEmpty (read s).1 with
    | true =>
      refine ⟨fun hall ↦ Bool.noConfusion hall.1.1, fun _ ↦ ⟨.emptyKey, ?_⟩⟩
      rw [Table.emplace_emptyKey hk]
      rfl
    | false =>
      obtain ⟨hok, herr⟩ := ht.emplace hk
      by_cases hf : Fits T (addKey T keys (read s).1).length
      · obtain ⟨b, t', hr, ht'⟩ := hok hf
        rw [hr]
        refine (ih ht' hp').congr ?_
        rw [and_iff_right rfl]
      · refine ⟨fun hall ↦ ?_, fun _ ↦ ⟨.tooLarge, ?_⟩⟩
        · exact (hf (hall.2.mono (length_le_foldl_addKey _ _))).elim
        · rw [herr hf]
          rfl

end

/-! ## All types -/

theorem allParsable_of_forall {α : Type} {parsable : Stream → Prop} (h : ∀ s, parsable s)
    (read : Stream → α × Stream) (n : ℕ) (s : Stream) : AllParsable read parsable n s := by
  induction n generalizing s with
  | zero => trivial
  | succ n ih => exact ⟨h s, ih _⟩

/-- There are no sets in keys. -/
theorem parsable_of_key {k : Bool} {α : Type} (t : TlType k α) (hk : k = true) (s : Stream) :
    Parsable t s := by
  induction t generalizing s with
  | vector t ih => exact fun _ ↦ allParsable_of_forall (ih hk) _ _ _
  | pair t u iht ihu => exact ⟨iht hk _, ihu hk _⟩
  | variant hn ts ih => exact fun i _ ↦ ih i hk _
  | uniquePtr t ih => cases hk
  | flatHashSet T t ih => cases hk
  | bool | int32 | uint32 | int64 | uint64 | enum | double | string => trivial

theorem parse_spec {k : Bool} {α : Type} (t : TlType k α) {p : TlParser} {s : Stream}
    (hp : p.At 0 s) : Parses p (Parsable t s) (parse t t.default p) (read t s).1 (read t s).2 := by
  induction t generalizing p s with
  | bool => exact (Parses.of_fetches hp.fetchInt).map (· != 0)
  | int32 => exact .of_fetches hp.fetchInt
  | uint32 => exact (Parses.of_fetches hp.fetchInt).map Int32.toUInt32
  | int64 => exact .of_fetches hp.fetchLong
  | uint64 => exact (Parses.of_fetches hp.fetchLong).map Int64.toUInt64
  | enum w signed => exact (Parses.of_fetches hp.fetchInt).map (int32ToEnum w)
  | double => exact .of_fetches hp.fetchDouble
  | string => exact .of_fetches hp.fetchString
  | vector t ih =>
    refine .bind_fetches hp.fetchInt fun p' hp' ↦ ?_
    rw [read, Parsable]
    dsimp only
    change p'.At 0 (readSize s).2 at hp'
    rw [hp'.leftLen]
    change Parses p' _ (if (readSize s).2.length < (readSize s).1 then _ else _) _ _
    split_ifs with hlt
    · refine (Parses.setError hp' (by decide : "Wrong vector length" ≠ "") []).congr ?_
      exact iff_of_true trivial fun hle ↦ absurd hle (not_le.2 hlt)
    · exact (parseAll_spec (fun p s hp ↦ ih hp) _ hp').congr (imp_iff_right (not_lt.1 hlt)).symm
  | pair t u iht ihu =>
    refine (iht hp).bind fun p' hp' ↦ ?_
    exact (ihu hp').map ((read t s).1, ·)
  | @variant k n types hn ts ih =>
    refine .bind_fetches hp.fetchInt fun p' hp' ↦ ?_
    rw [read, Parsable]
    dsimp only
    change p'.At 0 (readInt32 s).2 at hp'
    change Parses p' _ (if h : 0 ≤ (readInt32 s).1.toInt ∧ (readInt32 s).1.toInt < n then _ else _)
      _ _
    by_cases h : 0 ≤ (readInt32 s).1.toInt ∧ (readInt32 s).1.toInt < n
    · rw [alternative, dif_pos h, dif_pos h]
      let i : Fin n := toOffset h
      refine ((ih i hp').map fun value ↦ (some ⟨i, value⟩ : Option (Σ i, types i))).congr ?_
      exact ⟨fun hi j hj ↦ Option.some.inj hj ▸ hi, fun hall ↦ hall i rfl⟩
    · rw [alternative, dif_neg h, dif_neg h]
      refine (Parses.setError hp' (by decide : "Invalid type" ≠ "") none).congr ?_
      refine iff_of_true trivial fun i hi ↦ ?_
      cases hi
  | uniquePtr t ih => exact (ih hp).map some
  | flatHashSet T t ih =>
    refine .bind_fetches hp.fetchInt fun p' hp' ↦ ?_
    rw [read, Parsable]
    dsimp only
    change p'.At 0 (readSize s).2 at hp'
    rw [hp'.leftLen]
    change Parses p' _ (if (readSize s).2.length < (readSize s).1 then _ else _) _ _
    split_ifs with hlt
    · refine Parses.congr ?_ (P := True) ?_
      · exact .setError hp' (by decide : "Wrong set length" ≠ "") _
      · exact iff_of_true trivial fun hle ↦ absurd hle (not_le.2 hlt)
    · have hkey (p : TlParser) (s : Stream) (hp : p.At 0 s) :
          p.Fetches (parse t t.default p) (read t s).1 (read t s).2 :=
        (ih hp).fetches (parsable_of_key t rfl s)
      exact (parseKeys_spec hkey .init _ hp').congr (imp_iff_right (not_lt.1 hlt)).symm

/-! ## `unserialize` -/

/-- The object and the status that a byte string is unserialized to. -/
theorem unserialize_spec {k : Bool} {α : Type} (t : TlType k α) (data : List UInt8)
    (aligned : Bool) :
    (Parsable t (some data) → ∃ p : TlParser, p.At 0 (read t (some data)).2.finish ∧
      unserialize t t.default data aligned = .ok ((read t (some data)).1, p.getStatus)) ∧
    (¬Parsable t (some data) →
      ∃ f, unserialize t t.default data aligned = .error (.table f)) := by
  obtain ⟨p, hr, ha, -⟩ := TlParser.new_spec data aligned
  have hparse := parse_spec t ha
  constructor
  · intro hP
    obtain ⟨p', hr', ha', -⟩ := hparse.fetches hP
    obtain ⟨p'', hr'', ha'', -⟩ := ha'.fetchEnd
    refine ⟨p'', ha'', ?_⟩
    rw [unserialize, hr, ok_bind, hr', ok_bind]
    dsimp only
    rw [hr'']
    rfl
  · intro hP
    obtain ⟨f, hf⟩ := hparse.fails hP
    exact ⟨f, by rw [unserialize, hr, ok_bind, hf]; rfl⟩

/-- `unserialize` returns, with a value or an error, exactly if no set in the object meets an empty
key or too many of them. -/
theorem unserialize_returns_iff {k : Bool} {α : Type} (t : TlType k α) (data : List UInt8)
    (aligned : Bool) :
    (∃ r, unserialize t t.default data aligned = .ok r) ↔ Parsable t (some data) := by
  obtain ⟨hok, herr⟩ := unserialize_spec t data aligned
  constructor
  · rintro ⟨r, hr⟩
    by_contra hP
    obtain ⟨f, hf⟩ := herr hP
    rw [hr] at hf
    cases hf
  · intro hP
    obtain ⟨p, -, hr⟩ := hok hP
    exact ⟨_, hr⟩

/-- A set with the key zero. -/
theorem zero_key_aborts :
    unserialize (.flatHashSet { HashTraits.identity with sizeofNode := 4 } .uint32) {}
      [1, 0, 0, 0, 0, 0, 0, 0] true = .error (.table .emptyKey) := rfl

end PxcCore.Tl
