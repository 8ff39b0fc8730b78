import PxcCore.Utils.FlatHashTable.Size
import PxcCore.Utils.Tl.Encode
import PxcCore.Utils.Tl.Read

/-!
# Unserializing what was serialized

The bytes of an object are read back as the same object.  Two sets are the same if they have the
same keys: their arrays may differ.
-/

namespace PxcCore.Tl

open Lib FlatHashTable

/-! ## Objects that can be stored -/

/-- A set that the operations of the table can make. -/
structure IsSet {α : Type} (T : Traits α) (s : Table α Unit) : Prop where
  models : ∃ m, s.Models T m
  le_max : s.bucketCount ≤ maxBucketCount T

theorem isSet_of_run {α ι : Type} [DecidableEq ι] {T : Traits α} {ops : List (Op T Unit ι)}
    {rs : List (Result α Unit)} {tables : ι → Table α Unit}
    (h : run T ops (fun _ ↦ {}) = .ok (rs, tables)) (i : ι) : IsSet T (tables i) := by
  obtain ⟨hm, hle⟩ := run_le_max (fun _ ↦ .init) (fun _ ↦ Nat.zero_le _) h i
  exact ⟨hm, hle⟩

/-- The sizes are in range, pointers are not null, variants are not empty, and every `enum` has a
value that an `int32` can hold. -/
def Storable : {k : Bool} → {α : Type} → TlType k α → α → Prop
  | _, _, .enum w _, x => w ≤ 32 ∨ (-2 ^ 31 ≤ x.toInt ∧ x.toInt < 2 ^ 31)
  | _, _, .string, x => x.length < 2 ^ 32
  | _, _, .vector t, x => x.length < 2 ^ 31 ∧ ∀ value ∈ x, Storable t value
  | _, _, .pair t u, x => Storable t x.1 ∧ Storable u x.2
  | _, _, .variant _ ts, x => ∃ i value, x = some ⟨i, value⟩ ∧ Storable (ts i) value
  | _, _, .uniquePtr t, x => ∃ value, x = some value ∧ Storable t value
  | _, _, .flatHashSet T t, x => IsSet T x ∧ ∀ node ∈ x.entries, Storable t node.1
  | _, _, _, _ => True

/-- The objects are the same, up to the arrays of sets. -/
def Same : {k : Bool} → {α : Type} → TlType k α → α → α → Prop
  | _, _, .vector t, x, y => List.Forall₂ (Same t) x y
  | _, _, .pair t u, x, y => Same t x.1 y.1 ∧ Same u x.2 y.2
  | _, _, .variant _ ts, x, y =>
    ∃ i value value', x = some ⟨i, value⟩ ∧ y = some ⟨i, value'⟩ ∧ Same (ts i) value value'
  | _, _, .uniquePtr t, x, y =>
    ∃ value value', x = some value ∧ y = some value' ∧ Same t value value'
  | _, _, .flatHashSet _ _, x, y => x.entries = y.entries
  | _, _, _, x, y => x = y

/-- Keys are the same if they are equal. -/
theorem Same.eq {k : Bool} {α : Type} {t : TlType k α} (hk : k = true) {x y : α}
    (h : Same t x y) : x = y := by
  induction t with
  | vector t ih => exact List.forall₂_eq_eq_eq ▸ h.imp fun _ _ ↦ ih hk
  | pair t u iht ihu => exact Prod.ext (iht hk h.1) (ihu hk h.2)
  | variant hn ts ih =>
    obtain ⟨i, value, value', rfl, rfl, hs⟩ := h
    rw [ih i hk hs]
  | uniquePtr t ih => cases hk
  | flatHashSet T t ih => cases hk
  | bool | int32 | uint32 | int64 | uint64 | enum | double | string => exact h

/-! ## Numbers -/

theorem take_append (bytes rest : List UInt8) :
    Stream.take bytes.length (some (bytes ++ rest)) = (bytes, some rest) := by
  rw [Stream.take, if_pos (by rw [List.length_append]; exact Nat.le_add_right _ _),
    List.take_left, List.drop_left]

theorem take_leBytes (n x : ℕ) (rest : List UInt8) :
    Stream.take n (some (leBytes n x ++ rest)) = (leBytes n x, some rest) := by
  have := take_append (leBytes n x) rest
  rwa [length_leBytes] at this

theorem readInt32_int32Bytes (x : Int32) (rest : List UInt8) :
    readInt32 (some (int32Bytes x ++ rest)) = (x, some rest) := by
  have hlt : x.toUInt32.toNat < 256 ^ 4 := x.toUInt32.toNat_lt
  rw [readInt32, int32Bytes, take_leBytes, ofLe_leBytes_of_lt hlt, UInt32.ofNat_toNat]
  rfl

theorem readInt64_int64Bytes (x : Int64) (rest : List UInt8) :
    readInt64 (some (int64Bytes x ++ rest)) = (x, some rest) := by
  have hlt : x.toUInt64.toNat < 256 ^ 8 := x.toUInt64.toNat_lt
  rw [readInt64, int64Bytes, take_leBytes, ofLe_leBytes_of_lt hlt, UInt64.ofNat_toNat]
  rfl

theorem readSize_int32Bytes {n : ℕ} (h : n < 2 ^ 31) (rest : List UInt8) :
    readSize (some (int32Bytes (Int32.ofNat n) ++ rest)) = (n, some rest) := by
  rw [readSize, readInt32_int32Bytes, Int32.toUInt32_ofNat', UInt32.toNat_ofNat',
    Nat.mod_eq_of_lt (by omega)]

theorem alternative_ofNat {n : ℕ} (hn : n < 2 ^ 31) (i : Fin n) :
    alternative n (Int32.ofNat i) = some i := by
  have hi : (Int32.ofNat i).toInt = (i : ℕ) := Int32.toInt_ofNat_of_lt (i.isLt.trans hn)
  rw [alternative, dif_pos ⟨by omega, by omega⟩]
  congr 1
  apply Fin.ext
  change (Int32.ofNat i).toInt.toNat = i
  rw [hi, Int.toNat_natCast]

/-- An `enum` that an `int32` can hold. -/
theorem int32ToEnum_enumToInt32 {w : ℕ} (signed : Bool) {x : BitVec w}
    (h : w ≤ 32 ∨ (-2 ^ 31 ≤ x.toInt ∧ x.toInt < 2 ^ 31)) :
    int32ToEnum w (enumToInt32 signed x) = x := by
  rw [int32ToEnum, enumToInt32, Int32.toBitVec_ofBitVec]
  by_cases hw : w ≤ 32
  · rw [BitVec.signExtend_eq_setWidth_of_le _ hw]
    split_ifs
    · apply BitVec.eq_of_getLsbD_eq
      intro i hi
      rw [BitVec.getLsbD_setWidth, BitVec.getLsbD_signExtend]
      simp [hi, hi.trans_le hw]
    · rw [BitVec.setWidth_setWidth_of_le _ hw, BitVec.setWidth_eq]
  · obtain ⟨hlo, hhi⟩ := h.resolve_left hw
    have hcast : (if signed then x.signExtend 32 else x.setWidth 32) = x.setWidth 32 := by
      split_ifs
      · exact BitVec.signExtend_eq_setWidth_of_le x (by omega)
      · rfl
    apply BitVec.eq_of_toInt_eq
    have hdvd : 2 ^ 32 ∣ 2 ^ w := Nat.pow_dvd_pow 2 (by omega)
    rw [hcast, BitVec.toInt_signExtend_of_le (by omega), BitVec.toInt_setWidth,
      ← Int.bmod_bmod_of_dvd hdvd, ← BitVec.toInt_eq_toNat_bmod]
    exact Int.bmod_eq_of_le (by omega) (by omega)

/-! ## Bytes that are read back -/

/-- The bytes are read as `x`, whatever is behind them. -/
structure ReadsBack {α : Type} (read : Stream → α × Stream) (parsable : Stream → Prop)
    (bytes : List UInt8) (x : α) : Prop where
  length : 4 ≤ bytes.length
  parsable : ∀ rest, parsable (some (bytes ++ rest))
  read : ∀ rest, read (some (bytes ++ rest)) = (x, some rest)

theorem readAll_encodeAll {α β : Type} {read : Stream → α × Stream} {parsable : Stream → Prop}
    {f : ℕ → β → Option (List UInt8)} {R : β → α → Prop} {xs : List β}
    (h : ∀ i, ∀ x ∈ xs, ∃ bytes x', f i x = some bytes ∧ R x x' ∧
      ReadsBack read parsable bytes x') (i : ℕ) :
    ∃ bytes xs', encodeAll f i xs = some bytes ∧ List.Forall₂ R xs xs' ∧
      xs.length ≤ bytes.length ∧
      (∀ rest, AllParsable read parsable xs.length (some (bytes ++ rest))) ∧
      ∀ rest, readAll read xs.length (some (bytes ++ rest)) = (xs', some rest) := by
  induction xs generalizing i with
  | nil => exact ⟨[], [], rfl, .nil, le_rfl, fun _ ↦ trivial, fun _ ↦ rfl⟩
  | cons x xs ih =>
    obtain ⟨bytes, x', hf, hs, hb⟩ := h i x List.mem_cons_self
    obtain ⟨bytes', xs', hf', hs', hlen, hp, hr⟩ :=
      ih (fun i x hx ↦ h i x (List.mem_cons_of_mem _ hx)) (i + 1)
    refine ⟨bytes ++ bytes', x' :: xs', ?_, .cons hs hs', ?_, fun rest ↦ ?_, fun rest ↦ ?_⟩
    · rw [encodeAll, hf, hf']
      rfl
    · have := hb.length
      rw [List.length_append, List.length_cons]
      omega
    · rw [List.append_assoc]
      refine ⟨hb.parsable _, ?_⟩
      rw [hb.read]
      exact hp rest
    · rw [List.append_assoc, List.length_cons, readAll, hb.read]
      dsimp only
      rw [hr]

theorem readsBack_encode {k : Bool} {α : Type} (t : TlType k α) (random : List ℕ → UInt32) {x : α}
    (h : Storable t x) :
    ∃ bytes x', encode t random x = some bytes ∧ Same t x x' ∧
      ReadsBack (read t) (Parsable t) bytes x' := by
  induction t generalizing random with
  | bool =>
    refine ⟨_, x, rfl, rfl, ?_, fun _ ↦ trivial, fun rest ↦ ?_⟩
    · rw [int32Bytes, length_leBytes]
    · rw [read, readInt32_int32Bytes]
      cases x <;> rfl
  | int32 =>
    refine ⟨_, x, rfl, rfl, ?_, fun _ ↦ trivial, fun rest ↦ ?_⟩
    · rw [int32Bytes, length_leBytes]
    · exact readInt32_int32Bytes x rest
  | uint32 =>
    refine ⟨_, x, rfl, rfl, ?_, fun _ ↦ trivial, fun rest ↦ ?_⟩
    · rw [length_leBytes]
    · exact congrArg (fun r ↦ (r.1.toUInt32, r.2)) (readInt32_int32Bytes x.toInt32 rest)
  | int64 =>
    refine ⟨_, x, rfl, rfl, ?_, fun _ ↦ trivial, fun rest ↦ ?_⟩
    · rw [int64Bytes, length_leBytes]
      decide
    · exact readInt64_int64Bytes x rest
  | uint64 =>
    refine ⟨_, x, rfl, rfl, ?_, fun _ ↦ trivial, fun rest ↦ ?_⟩
    · rw [length_leBytes]
      decide
    · exact congrArg (fun r ↦ (r.1.toUInt64, r.2)) (readInt64_int64Bytes x.toInt64 rest)
  | enum w signed =>
    refine ⟨_, x, rfl, rfl, ?_, fun _ ↦ trivial, fun rest ↦ ?_⟩
    · rw [int32Bytes, length_leBytes]
    · rw [read, readInt32_int32Bytes, int32ToEnum_enumToInt32 signed h]
  | double =>
    refine ⟨_, x, rfl, rfl, ?_, fun _ ↦ trivial, fun rest ↦ ?_⟩
    · rw [length_leBytes]
      decide
    · exact congrArg (fun r ↦ (r.1.toUInt64, r.2)) (readInt64_int64Bytes x.toInt64 rest)
  | string =>
    refine ⟨_, x, if_pos h, rfl, ?_, fun _ ↦ trivial, fun rest ↦ ?_⟩
    · exact four_le_length_encodeString x
    · exact Stream.string_encodeString h rest
  | vector t ih =>
    obtain ⟨hlen, hall⟩ := h
    have helems (i : ℕ) (value : _) (hvalue : value ∈ x) : ∃ bytes value',
        encode t (fun way ↦ random (i :: way)) value = some bytes ∧ Same t value value' ∧
          ReadsBack (read t) (Parsable t) bytes value' := ih _ (hall value hvalue)
    obtain ⟨bytes, x', henc, hs, hle, hp, hr⟩ := readAll_encodeAll helems 0
    have hsize (rest : List UInt8) : x.length ≤ Stream.length (some (bytes ++ rest)) := by
      change x.length ≤ (bytes ++ rest).length
      rw [List.length_append]
      exact Nat.le_add_right_of_le hle
    refine ⟨int32Bytes (Int32.ofNat x.length) ++ bytes, x', ?_, hs, ?_, fun rest ↦ ?_,
      fun rest ↦ ?_⟩
    · rw [encode, if_pos hlen, henc]
      rfl
    · rw [List.length_append, int32Bytes, length_leBytes]
      exact Nat.le_add_right 4 _
    · rw [List.append_assoc, Parsable, readSize_int32Bytes hlen]
      exact fun _ ↦ hp rest
    · rw [List.append_assoc, read, readSize_int32Bytes hlen]
      dsimp only
      rw [if_neg (not_lt.2 (hsize rest)), hr]
  | pair t u iht ihu =>
    obtain ⟨bytes, first, henc, hs, hb⟩ := iht (fun way ↦ random (0 :: way)) h.1
    obtain ⟨bytes', second, henc', hs', hb'⟩ := ihu (fun way ↦ random (1 :: way)) h.2
    refine ⟨bytes ++ bytes', (first, second), ?_, ⟨hs, hs'⟩, ?_, fun rest ↦ ?_, fun rest ↦ ?_⟩
    · rw [encode, henc, henc']
      rfl
    · rw [List.length_append]
      exact Nat.le_add_right_of_le hb.length
    · rw [List.append_assoc]
      refine ⟨hb.parsable _, ?_⟩
      rw [hb.read]
      exact hb'.parsable rest
    · rw [List.append_assoc, read, hb.read]
      dsimp only
      rw [hb'.read]
  | variant hn ts ih =>
    obtain ⟨i, value, rfl, hvalue⟩ := h
    obtain ⟨bytes, value', henc, hs, hb⟩ := ih i random hvalue
    refine ⟨int32Bytes (Int32.ofNat i) ++ bytes, some ⟨i, value'⟩, ?_, ⟨i, value, value', rfl, rfl,
      hs⟩, ?_, fun rest ↦ ?_, fun rest ↦ ?_⟩
    · rw [encode, henc]
      rfl
    · rw [List.length_append, int32Bytes, length_leBytes]
      exact Nat.le_add_right 4 _
    · rw [List.append_assoc, Parsable, readInt32_int32Bytes]
      dsimp only
      rw [alternative_ofNat hn]
      rintro j ⟨⟩
      exact hb.parsable rest
    · rw [List.append_assoc, read, readInt32_int32Bytes]
      dsimp only
      rw [alternative_ofNat hn]
      dsimp only
      rw [hb.read]
  | uniquePtr t ih =>
    obtain ⟨value, rfl, hvalue⟩ := h
    obtain ⟨bytes, value', henc, hs, hb⟩ := ih random hvalue
    refine ⟨bytes, some value', henc, ⟨value, value', rfl, rfl, hs⟩, hb.length, hb.parsable,
      fun rest ↦ ?_⟩
    rw [read, hb.read]
  | flatHashSet T t ih =>
    obtain ⟨⟨⟨m, hm⟩, hmax⟩, hall⟩ := h
    obtain ⟨nodes, hel, hent⟩ := hm.elements (random [])
    have helems (i : ℕ) (node : _ × Unit) (hnode : node ∈ nodes) : ∃ bytes key,
        encode t (fun way ↦ random (i :: way)) node.1 = some bytes ∧ Same t node.1 key ∧
          ReadsBack (read t) (Parsable t) bytes key :=
      ih _ (hall node (hent ▸ Multiset.mem_coe.2 hnode))
    obtain ⟨bytes, keys, henc, hs, hle, -, hr⟩ := readAll_encodeAll
      (f := fun i (node : _ × Unit) ↦ encode t (fun way ↦ random (i :: way)) node.1)
      (R := fun node key ↦ Same t node.1 key) helems 0
    obtain rfl : keys = nodes.map Prod.fst := by
      rw [← List.forall₂_eq_eq_eq, List.forall₂_map_right_iff]
      exact (hs.imp fun _ _ h ↦ (Same.eq rfl h).symm).flip
    obtain ⟨hkeys, hfits, x', hins, hx'⟩ := hm.insertAll hmax hent
    have hsize : x.size = nodes.length := by
      rw [hm.size, hm.represents.ncard_live, ← hent, Multiset.coe_card]
    have hlen : nodes.length < 2 ^ 31 := by
      have hcard : nodes.length ≤ x.bucketCount := by
        rw [← Multiset.coe_card, hent]
        exact Buckets.card_contents_le _ _
      have hlimit : maxBucketCount T ≤ 1 <<< 29 := min_le_left _ _
      omega
    have hleft (rest : List UInt8) : nodes.length ≤ Stream.length (some (bytes ++ rest)) := by
      change nodes.length ≤ (bytes ++ rest).length
      rw [List.length_append]
      exact Nat.le_add_right_of_le hle
    refine ⟨int32Bytes (Int32.ofNat nodes.length) ++ bytes, x', ?_, hx'.symm, ?_, fun rest ↦ ?_,
      fun rest ↦ ?_⟩
    · rw [encode, hsize, if_pos hlen, hel]
      dsimp only
      rw [henc]
      rfl
    · rw [List.length_append, int32Bytes, length_leBytes]
      exact Nat.le_add_right 4 _
    · rw [List.append_assoc, Parsable, readSize_int32Bytes hlen]
      dsimp only
      rw [hr]
      exact fun _ ↦ ⟨hkeys, hfits⟩
    · rw [List.append_assoc, read, readSize_int32Bytes hlen]
      dsimp only
      rw [if_neg (not_lt.2 (hleft rest)), hr]
      dsimp only
      rw [hins]
      rfl

/-! ## Round trip -/

/-- What is serialized from an object is unserialized to the same object, without an error, so all
of it is read. -/
theorem unserialize_serialize {k : Bool} {α : Type} (storage : StringStorage) (t : TlType k α)
    (random : List ℕ → UInt32) {x : α} (h : Storable t x)
    (hmem : ∀ bytes ∈ encode t random x, bytes.length < 2 ^ 64) :
    ∃ bytes x', serialize storage t random x = .ok bytes ∧ Same t x x' ∧
      ∀ aligned, unserialize t t.default bytes aligned = .ok (x', none) := by
  obtain ⟨bytes, x', henc, hs, hb⟩ := readsBack_encode t random h
  have hout := store_outcome t random x
  rw [henc] at hout
  refine ⟨bytes, x', serialize_eq storage t random x hout (hmem bytes henc), hs, fun aligned ↦ ?_⟩
  have hparsable := hb.parsable []
  have hread := hb.read []
  rw [List.append_nil] at hparsable hread
  obtain ⟨p, hp, hr⟩ := (unserialize_spec t bytes aligned).1 hparsable
  rw [hread] at hp hr
  have hstatus : p.getStatus = none := if_pos hp.1
  rw [hr, hstatus]

/-- An `enum` of 64 bits may have a value that no `int32` can hold. -/
theorem wide_enum_truncated :
    serialize ⟨fun _ ↦ true, fun _ _ ↦ rfl⟩ (.enum 64 false : TlType true _) (fun _ ↦ 0)
        (4294967296 : BitVec 64) = .ok [0, 0, 0, 0] ∧
      unserialize (.enum 64 false : TlType true _) 0 [0, 0, 0, 0] true = .ok (0, none) :=
  ⟨rfl, rfl⟩

/-- A vector of two strings. -/
theorem unserialize_serialize_vector :
    ∃ bytes x', serialize ⟨fun _ ↦ true, fun _ _ ↦ rfl⟩ (.vector .string : TlType true _)
        (fun _ ↦ 0) [[97], []] = .ok bytes ∧ Same (.vector .string : TlType true _) [[97], []] x' ∧
      ∀ aligned,
        unserialize (.vector .string : TlType true _) [] bytes aligned = .ok (x', none) := by
  apply unserialize_serialize
  · refine ⟨by decide, fun value hvalue ↦ ?_⟩
    have hlen : value.length ≤ 1 := by
      revert value
      decide
    exact hlen.trans_lt (by decide)
  · intro bytes hbytes
    cases hbytes
    decide

end PxcCore.Tl
