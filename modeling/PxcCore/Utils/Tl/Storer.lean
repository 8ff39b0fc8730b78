import PxcCore.Utils.Tl.Parser

/-!
# `TlStorerUnsafe` and `TlStorerCalcLength`

`tl_storers.h`: the storer that writes and the one that only counts.  What is stored is written for
both of them, as for the `StorerT` of `tl_helpers.h`.
-/

namespace PxcCore.Tl

open Lib

/-- `StorerT`.  `store_binary` takes the bytes of its argument. -/
class Storer (S : Type) where
  storeBinary : List UInt8 → S → Except Fault S
  storeString : List UInt8 → S → Except Fault S

/-! ## Writing -/

/-- `TlStorerUnsafe`: what was written before `buf_` into a buffer of `size` bytes. -/
structure TlStorerUnsafe where
  size : ℕ
  written : List UInt8
  fits : written.length ≤ size
deriving DecidableEq, Repr

namespace TlStorerUnsafe

/-- The constructor, for a buffer of this size. -/
def new (size : ℕ) : TlStorerUnsafe := ⟨size, [], Nat.zero_le size⟩

/-- Bytes are written, if the buffer has room for them. -/
def write (s : TlStorerUnsafe) (bytes : List UInt8) : Except Fault TlStorerUnsafe :=
  if h : (s.written ++ bytes).length ≤ s.size then .ok ⟨s.size, s.written ++ bytes, h⟩
  else .error .outOfBounds

/-- The zeros behind a string. -/
def padding (len : ℕ) : List UInt8 :=
  if len &&& 3 = 1 then [0, 0, 0] else if len &&& 3 = 2 then [0, 0] else if len &&& 3 = 3 then [0]
  else []

/-- `store_string`. -/
def storeString (str : List UInt8) (s : TlStorerUnsafe) : Except Fault TlStorerUnsafe := do
  let len := str.length
  let (len, s) ←
    if len < 254 then do
      let s ← s.write [UInt8.ofNat len]
      pure (len + 1, s)
    else if len < 1 <<< 24 then do
      let s ← s.write [254, UInt8.ofNat (len &&& 255), UInt8.ofNat ((len >>> 8) &&& 255),
        UInt8.ofNat (len >>> 16)]
      pure (len, s)
    else if len < 1 <<< 32 then do
      let s ← s.write [255, UInt8.ofNat (len &&& 255), UInt8.ofNat ((len >>> 8) &&& 255),
        UInt8.ofNat ((len >>> 16) &&& 255), UInt8.ofNat ((len >>> 24) &&& 255), 0, 0, 0]
      pure (len, s)
    else throw .fatal
  let s ← s.write str
  s.write (padding len)

instance : Storer TlStorerUnsafe where
  storeBinary x s := s.write x
  storeString := storeString

end TlStorerUnsafe

/-! ## Counting -/

/-- `TlStorerCalcLength`. -/
structure TlStorerCalcLength where
  length : UInt64 := 0
deriving DecidableEq, Repr

namespace TlStorerCalcLength

/-- `store_string`. -/
def storeString (str : List UInt8) (s : TlStorerCalcLength) : TlStorerCalcLength :=
  let add := UInt64.ofNat str.length
  let add := if add < 254 then add + 1 else if add < (1 : UInt64) <<< 24 then add + 4 else add + 8
  let add := (add + 3) &&& -4
  { s with length := s.length + add }

instance : Storer TlStorerCalcLength where
  storeBinary x s := .ok { s with length := s.length + UInt64.ofNat x.length }
  storeString str s := .ok (s.storeString str)

end TlStorerCalcLength

/-! ## Both of them -/

/-- The number of bytes that the length of a string takes. -/
def headerLen (len : ℕ) : ℕ := if len < 254 then 1 else if len < 1 <<< 24 then 4 else 8

/-- The bytes that the length of a string is written as. -/
def lengthBytes (len : ℕ) : List UInt8 :=
  if len < 254 then [UInt8.ofNat len]
  else if len < 1 <<< 24 then 254 :: leBytes 3 len
  else 255 :: leBytes 7 len

/-- What `store_string` writes. -/
def encodeString (str : List UInt8) : List UInt8 :=
  lengthBytes str.length ++ str ++
    TlStorerUnsafe.padding (if str.length < 254 then str.length + 1 else str.length)

/-- Two programs for the storers store these bytes: one writes them, the other counts them. -/
structure Stores (f : TlStorerUnsafe → Except Fault TlStorerUnsafe)
    (g : TlStorerCalcLength → Except Fault TlStorerCalcLength) (bytes : List UInt8) : Prop where
  write : ∀ s, f s = s.write bytes
  count : ∀ s, g s = .ok { s with length := s.length + UInt64.ofNat bytes.length }
  aligned : 4 ∣ bytes.length

namespace TlStorerUnsafe

theorem write_nil (s : TlStorerUnsafe) : s.write [] = .ok s := by
  obtain ⟨size, written, fits⟩ := s
  simp [write, fits]

theorem write_bind_write (s : TlStorerUnsafe) (bytes bytes' : List UInt8) :
    (s.write bytes >>= fun s ↦ s.write bytes') = s.write (bytes ++ bytes') := by
  by_cases h : (s.written ++ bytes).length ≤ s.size
  · rw [write, dif_pos h, ok_bind]
    simp only [write, List.append_assoc]
  · rw [write, write, dif_neg h, dif_neg, error_bind]
    rw [List.length_append] at h
    rw [← List.append_assoc, List.length_append, List.length_append]
    omega

theorem length_padding (len : ℕ) : len + (padding len).length = (len + 3) / 4 * 4 := by
  have h3 : len &&& 3 = len % 4 := Nat.and_two_pow_sub_one_eq_mod len 2
  rw [padding, h3]
  split_ifs <;> simp only [List.length_cons, List.length_nil] <;> omega

end TlStorerUnsafe

namespace Stores

variable {f f' : TlStorerUnsafe → Except Fault TlStorerUnsafe}
  {g g' : TlStorerCalcLength → Except Fault TlStorerCalcLength} {bytes bytes' : List UInt8}

theorem nil : Stores .ok .ok [] where
  write s := s.write_nil.symm
  count s := by
    change Except.ok s = .ok { s with length := s.length + 0 }
    rw [UInt64.add_zero]
  aligned := ⟨0, rfl⟩

/-- One program after another. -/
theorem bind (h : Stores f g bytes) (h' : Stores f' g' bytes') :
    Stores (fun s ↦ f s >>= f') (fun s ↦ g s >>= g') (bytes ++ bytes') where
  write s := by
    rw [h.write, ← TlStorerUnsafe.write_bind_write]
    exact congrArg _ (funext h'.write)
  count s := by
    rw [h.count, ok_bind, h'.count, List.length_append, UInt64.ofNat_add, UInt64.add_assoc]
  aligned := by
    rw [List.length_append]
    exact Nat.dvd_add h.aligned h'.aligned

/-- `store_binary` of a type whose size is a multiple of four. -/
theorem storeBinary (h : 4 ∣ bytes.length) :
    Stores (Storer.storeBinary bytes) (Storer.storeBinary bytes) bytes where
  write _ := rfl
  count _ := rfl
  aligned := h

end Stores

/-! ## Strings -/

namespace TlStorerUnsafe

/-- A string is written as its length, itself, and zeros. -/
theorem write_three (s : TlStorerUnsafe) (header str pad : List UInt8) :
    (s.write header >>= fun s ↦ s.write str >>= fun s ↦ s.write pad) =
      s.write (header ++ str ++ pad) := by
  rw [← write_bind_write, ← write_bind_write, bind_assoc]

theorem byte_and (n : ℕ) : UInt8.ofNat (n &&& 255) = UInt8.ofNat n := by
  rw [← UInt8.toNat_inj, UInt8.toNat_ofNat', UInt8.toNat_ofNat',
    Nat.and_two_pow_sub_one_eq_mod n 8, Nat.mod_mod]

theorem storeString_eq {str : List UInt8} (h : str.length < 2 ^ 32) (s : TlStorerUnsafe) :
    storeString str s = s.write (encodeString str) := by
  rw [storeString, encodeString, lengthBytes]
  by_cases h1 : str.length < 254
  · rw [if_pos h1, if_pos h1, if_pos h1]
    exact s.write_three [UInt8.ofNat str.length] str (padding (str.length + 1))
  rw [if_neg h1, if_neg h1, if_neg h1]
  by_cases h2 : str.length < 1 <<< 24
  · rw [if_pos h2, if_pos h2]
    refine (s.write_three _ str (padding str.length)).trans ?_
    simp only [byte_and, leBytes, Nat.shiftRight_eq_div_pow, Nat.div_div_eq_div_mul]
  · have h3 : str.length < 1 <<< 32 := by
      rw [Nat.shiftLeft_eq]
      omega
    rw [if_neg h2, if_pos h3, if_neg h2]
    refine (s.write_three _ str (padding str.length)).trans ?_
    have h0 : str.length / 4294967296 = 0 := Nat.div_eq_of_lt h
    simp only [byte_and, leBytes, Nat.shiftRight_eq_div_pow, Nat.div_div_eq_div_mul, Nat.reducePow,
      Nat.reduceMul, h0]
    rfl

/-- A string that is too long is not stored. -/
theorem storeString_fatal {str : List UInt8} (h : 2 ^ 32 ≤ str.length) (s : TlStorerUnsafe) :
    storeString str s = .error .fatal := by
  have h1 : ¬str.length < 254 := by omega
  have h2 : ¬str.length < 1 <<< 24 := by
    rw [Nat.shiftLeft_eq]
    omega
  have h3 : ¬str.length < 1 <<< 32 := by
    rw [Nat.shiftLeft_eq]
    omega
  rw [storeString, if_neg h1, if_neg h2, if_neg h3]
  rfl

end TlStorerUnsafe

theorem length_lengthBytes (len : ℕ) : (lengthBytes len).length = headerLen len := by
  rw [lengthBytes, headerLen]
  split_ifs <;> simp only [List.length_cons, List.length_nil, length_leBytes]

theorem length_encodeString (str : List UInt8) :
    (encodeString str).length = (headerLen str.length + str.length + 3) / 4 * 4 := by
  have hpad := TlStorerUnsafe.length_padding str.length
  have hpad' := TlStorerUnsafe.length_padding (str.length + 1)
  rw [encodeString, List.length_append, List.length_append, length_lengthBytes, headerLen]
  split_ifs <;> omega

theorem four_le_length_encodeString (str : List UInt8) : 4 ≤ (encodeString str).length := by
  have : 1 ≤ headerLen str.length := by
    rw [headerLen]
    split_ifs <;> omega
  rw [length_encodeString]
  omega

/-- Clearing the two lowest bits rounds down to a multiple of four. -/
theorem toNat_and_neg_four (x : UInt64) : (x &&& -4).toNat = x.toNat / 4 * 4 := by
  have h4 : (-4 : UInt64).toNat = (2 ^ 62 - 1) <<< 2 := by decide
  have hlt : x.toNat < 2 ^ 64 := x.toNat_lt
  rw [UInt64.toNat_and, h4, ← TlParser.shift_two]
  apply Nat.eq_of_testBit_eq
  intro i
  rw [Nat.testBit_and, Nat.testBit_shiftLeft, Nat.testBit_shiftLeft, Nat.testBit_two_pow_sub_one,
    Nat.testBit_shiftRight]
  by_cases hi : 2 ≤ i
  · by_cases hi' : i < 64
    · simp [hi, show i - 2 < 62 by omega, show 2 + (i - 2) = i by omega]
    · have : x.toNat.testBit i = false :=
        Nat.testBit_lt_two_pow (hlt.trans_le (Nat.pow_le_pow_right (by decide) (by omega)))
      simp [hi, this, show 2 + (i - 2) = i by omega]
  · simp [hi]

theorem TlStorerCalcLength.storeString_eq {str : List UInt8} (h : str.length < 2 ^ 32)
    (s : TlStorerCalcLength) :
    s.storeString str = { s with length := s.length + UInt64.ofNat (encodeString str).length } := by
  have hlen : (UInt64.ofNat str.length).toNat = str.length :=
    UInt64.toNat_ofNat_of_lt' (by rw [UInt64.size]; omega)
  have hadd (n : UInt64) (hn : n.toNat ≤ 8) :
      (UInt64.ofNat str.length + n + 3) &&& -4 =
        UInt64.ofNat ((n.toNat + str.length + 3) / 4 * 4) := by
    have h3 : (3 : UInt64).toNat = 3 := rfl
    rw [← UInt64.toNat_inj, toNat_and_neg_four, UInt64.toNat_add, UInt64.toNat_add, hlen, h3,
      UInt64.toNat_ofNat_of_lt' (by rw [UInt64.size]; omega)]
    omega
  have h254 : UInt64.ofNat str.length < 254 ↔ str.length < 254 := by
    rw [UInt64.lt_iff_toNat_lt, hlen]
    rfl
  have h24 : UInt64.ofNat str.length < (1 : UInt64) <<< 24 ↔ str.length < 1 <<< 24 := by
    rw [UInt64.lt_iff_toNat_lt, hlen]
    rfl
  rw [storeString, length_encodeString, headerLen]
  simp only [h254, h24]
  split_ifs
  · rw [hadd 1 (by decide)]
    rfl
  · rw [hadd 4 (by decide)]
    rfl
  · rw [hadd 8 (by decide)]
    rfl

/-- `store_string`. -/
theorem Stores.storeString {str : List UInt8} (h : str.length < 2 ^ 32) :
    Stores (Storer.storeString str) (Storer.storeString str) (encodeString str) where
  write := TlStorerUnsafe.storeString_eq h
  count s := congrArg _ (TlStorerCalcLength.storeString_eq h s)
  aligned := by
    rw [length_encodeString]
    exact Nat.dvd_mul_left 4 _

/-! ## Reading a string back -/

namespace Stream

theorem stringHeader_lengthBytes {len : ℕ} (h : len < 2 ^ 32) (rest : List UInt8) :
    stringHeader (lengthBytes len ++ rest) = (headerLen len, len) := by
  rw [lengthBytes, headerLen]
  split_ifs with h1 h2
  · have hb : ofLe (([UInt8.ofNat len] ++ rest).take 1) = len := by
      have hlt : len < 256 ^ 1 := by omega
      exact ofLe_leBytes_of_lt hlt
    rw [stringHeader, hb]
    exact if_pos h1
  · have hb : ofLe (((254 :: leBytes 3 len ++ rest).drop 1).take 3) = len := by
      rw [List.cons_append, List.drop_one, List.tail_cons, List.take_left' (length_leBytes 3 len)]
      exact ofLe_leBytes_of_lt h2
    rw [stringHeader, hb]
    rfl
  · have hb : ofLe (((255 :: leBytes 7 len ++ rest).drop 1).take 7) = len := by
      rw [List.cons_append, List.drop_one, List.tail_cons, List.take_left' (length_leBytes 7 len)]
      exact ofLe_leBytes_of_lt (h.trans (by decide))
    rw [stringHeader, hb]
    rfl

/-- A string that was stored is read back. -/
theorem string_encodeString {str : List UInt8} (h : str.length < 2 ^ 32) (rest : List UInt8) :
    string (some (encodeString str ++ rest)) = (str, some rest) := by
  have hlen := length_encodeString str
  have h4 : 4 ≤ (encodeString str ++ rest).length := by
    rw [List.length_append]
    exact Nat.le_add_right_of_le (four_le_length_encodeString str)
  have hheader : stringHeader (encodeString str ++ rest) = (headerLen str.length, str.length) := by
    rw [encodeString, List.append_assoc, List.append_assoc]
    exact stringHeader_lengthBytes h _
  have htotal : (headerLen str.length + str.length + 3) / 4 * 4 ≤
      (encodeString str ++ rest).length := by
    rw [List.length_append]
    omega
  rw [string, if_pos h4, hheader, content, if_pos htotal, ← hlen, List.drop_left]
  congr 1
  rw [encodeString, List.append_assoc, List.append_assoc,
    List.drop_left' (length_lengthBytes str.length), List.take_left]

end Stream

end PxcCore.Tl
