import PxcCore.Lib.BitString
import PxcCore.Lib.Result
import PxcCore.Utils.Base64
import PxcCore.Utils.HttpUrl

/-!
# Base32

`base32_encode` and `base32_decode` of `base64.cpp`.  Both shift their input through a register of
32 bits that is never masked, so only its low `length` bits say anything.
-/

namespace PxcCore.Base32

open Lib Base64 HttpUrl

/-! ## Definitions -/

/-- `get_base32_characters` -/
def getBase32Characters (upperCase : Bool) : List UInt8 :=
  if upperCase then ascii "ABCDEFGHIJKLMNOPQRSTUVWXYZ234567"
  else ascii "abcdefghijklmnopqrstuvwxyz234567"

/-- `characters[value]` -/
def base32Character (upperCase : Bool) (value : ℕ) : UInt8 :=
  (getBase32Characters upperCase).getD value 0

/-- `get_base32_character_table`: the place of a character in the alphabet of its case, which is 32
if it is in neither. -/
def base32CharacterTable (c : UInt8) : ℕ :=
  min ((getBase32Characters false).idxOf c) ((getBase32Characters true).idxOf c)

/-- The inner loop of `base32_encode`: what it pushes, and the `length` it leaves. -/
def pushCharacters (upperCase : Bool) (c : ℕ) : ℕ → List UInt8 × ℕ
  | length + 5 =>
    let rest := pushCharacters upperCase c length
    (base32Character upperCase ((c >>> length) &&& 31) :: rest.1, rest.2)
  | length => ([], length)

/-- The outer loop of `base32_encode`, and the last character behind it. -/
def encodeLoop (upperCase : Bool) : ℕ → ℕ → List UInt8 → List UInt8
  | c, length, [] =>
    if length ≠ 0 then
      [base32Character upperCase ((c <<< (5 - length)) % 2 ^ 32 &&& 31)]
    else []
  | c, length, x :: input =>
    let c := (c <<< 8) % 2 ^ 32 ||| x.toNat
    let (base32, length) := pushCharacters upperCase c (length + 8)
    base32 ++ encodeLoop upperCase c length input

/-- `base32_encode` -/
def base32Encode (input : List UInt8) (upperCase : Bool) : List UInt8 :=
  encodeLoop upperCase 0 0 input

/-- The loop of `base32_decode`, and the check behind it. -/
def decodeLoop : ℕ → ℕ → List UInt8 → Except String (List UInt8)
  | c, length, [] =>
    if c &&& (1 <<< length - 1) ≠ 0 then .error "Nonzero padding" else .ok []
  | c, length, x :: base32 =>
    let value := base32CharacterTable x
    if value = 32 then .error "Wrong character in the string"
    else
      let c := (c <<< 5) % 2 ^ 32 ||| value
      let length := length + 5
      if length ≥ 8 then do
        let res ← decodeLoop c (length - 8) base32
        return UInt8.ofNat ((c >>> (length - 8)) &&& 255) :: res
      else decodeLoop c length base32

/-- `base32_decode` -/
def base32Decode (base32 : List UInt8) : Except String (List UInt8) := decodeLoop 0 0 base32

/-! ## The alphabet -/

variable {upperCase : Bool} {c length : ℕ} {s t x y : List UInt8}

theorem base32CharacterTable_le (d : UInt8) : base32CharacterTable d ≤ 32 :=
  (min_le_left _ _).trans List.idxOf_le_length

theorem base32CharacterTable_character : ∀ (upperCase : Bool) (v : Fin 32),
    base32CharacterTable (base32Character upperCase v) = v := by
  decide +kernel

theorem exists_mem_getBase32Characters {d : UInt8} (hd : base32CharacterTable d ≠ 32) :
    ∃ upperCase, d ∈ getBase32Characters upperCase := by
  by_contra! hnone
  apply hd
  rw [base32CharacterTable, List.idxOf_eq_length_iff.2 (hnone false),
    List.idxOf_eq_length_iff.2 (hnone true)]
  rfl

theorem toLowerChar_base32Character : ∀ (upperCase : Bool) (v : Fin 32),
    toLowerChar (base32Character upperCase v) = base32Character false v := by
  decide +kernel

/-- A character that the table knows is the one its value stands for, up to its case. -/
theorem toLowerChar_eq_base32Character {d : UInt8} (hd : base32CharacterTable d ≠ 32) :
    toLowerChar d = base32Character false (base32CharacterTable d) := by
  obtain ⟨upperCase, hmem⟩ := exists_mem_getBase32Characters hd
  obtain ⟨v, hv, rfl⟩ := List.getElem_of_mem hmem
  have hlength : (getBase32Characters upperCase).length = 32 := by cases upperCase <;> rfl
  have hchar : (getBase32Characters upperCase)[v] = base32Character upperCase v :=
    (List.getD_eq_getElem _ _ hv).symm
  rw [hlength] at hv
  rw [hchar, toLowerChar_base32Character upperCase ⟨v, hv⟩,
    base32CharacterTable_character upperCase ⟨v, hv⟩]

/-- The numbers that characters stand for. -/
def values (s : List UInt8) : List ℕ := s.map base32CharacterTable

/-- The bytes of a string as numbers. -/
def byteValues (x : List UInt8) : List ℕ := x.map UInt8.toNat

theorem groups_byteValues_cons (b : UInt8) (x : List UInt8) :
    groups 8 (byteValues (b :: x)) = bits 8 b.toNat ++ groups 8 (byteValues x) := rfl

theorem values_map {vs : List ℕ} (hvs : ∀ v ∈ vs, v < 2 ^ 5) :
    values (vs.map (base32Character upperCase)) = vs := by
  rw [values, List.map_map]
  conv_rhs => rw [← List.map_id vs]
  apply List.map_congr_left
  intro v hv
  exact base32CharacterTable_character upperCase ⟨v, hvs v hv⟩

/-! ## The encoder -/

/-- What is shifted into the register comes behind the bits that count. -/
theorem bits_shift {k v : ℕ} (hv : v < 2 ^ k) (hlength : length + k ≤ 32) :
    bits (length + k) ((c <<< k) % 2 ^ 32 ||| v) = bits length c ++ bits k v := by
  rw [← bits_shiftLeft_or hv]
  apply bits_congr
  intro i hi
  rw [Nat.testBit_or, Nat.testBit_or, Nat.testBit_mod_two_pow,
    decide_eq_true (hi.trans_le hlength), Bool.true_and]

/-- The inner loop pushes the high groups of five bits. -/
theorem pushCharacters_spec (upperCase : Bool) (c length : ℕ) :
    ∃ vs : List ℕ, pushCharacters upperCase c length =
        (vs.map (base32Character upperCase), length % 5) ∧
      (∀ v ∈ vs, v < 2 ^ 5) ∧ bits length c = groups 5 vs ++ bits (length % 5) c := by
  induction length using pushCharacters.induct upperCase c with
  | case1 length ih =>
    obtain ⟨vs, hpush, hvs, hbits⟩ := ih
    refine ⟨((c >>> length) &&& 31) :: vs, ?_, ?_, ?_⟩
    · rw [pushCharacters, hpush]
      exact Prod.ext rfl (Nat.add_mod_right length 5).symm
    · intro v hv
      rcases List.mem_cons.1 hv with rfl | hv
      · exact Nat.and_lt_two_pow _ (by norm_num)
      · exact hvs v hv
    · have hmask : (c >>> length) &&& 31 = (c >>> length) % 2 ^ 5 :=
        Nat.and_two_pow_sub_one_eq_mod _ 5
      have hsplit : bits (length + 5) c = bits 5 (c >>> length) ++ bits length c := by
        rw [Nat.add_comm, bits_add]
      have hmod : (length + 5) % 5 = length % 5 := Nat.add_mod_right length 5
      change bits (length + 5) c = _ ++ bits ((length + 5) % 5) c
      rw [hmod, hsplit, hbits, groups_cons, hmask, bits_mod _ le_rfl, List.append_assoc]
  | case2 length hlength =>
    have hlt : length < 5 := by
      by_contra hge
      exact hlength (length - 5) (by omega)
    refine ⟨[], ?_, fun v hv ↦ absurd hv List.not_mem_nil, ?_⟩
    · rw [pushCharacters.eq_2 _ _ _ hlength, Nat.mod_eq_of_lt hlt]
      rfl
    · rw [Nat.mod_eq_of_lt hlt]
      rfl

/-- The characters are the bits of the register and of the input in groups of five, filled up with
fewer than five zeros. -/
theorem encodeLoop_spec (upperCase : Bool) (c : ℕ) (hlength : length < 5) (x : List UInt8) :
    ∃ vs : List ℕ, encodeLoop upperCase c length x = vs.map (base32Character upperCase) ∧
      (∀ v ∈ vs, v < 2 ^ 5) ∧ ∃ pad < 5, groups 5 vs =
        bits length c ++ groups 8 (byteValues x) ++ List.replicate pad false := by
  induction x generalizing c length with
  | nil =>
    rw [encodeLoop]
    split_ifs with h
    · refine ⟨[(c <<< (5 - length)) % 2 ^ 32 &&& 31], rfl, ?_, 5 - length, by omega, ?_⟩
      · intro v hv
        rw [List.mem_singleton.1 hv]
        exact Nat.and_lt_two_pow _ (by norm_num)
      · have hmask : (c <<< (5 - length)) % 2 ^ 32 &&& 31 = (c <<< (5 - length)) % 2 ^ 32 % 2 ^ 5 :=
          Nat.and_two_pow_sub_one_eq_mod _ 5
        have hbits := bits_shift (c := c) (Nat.two_pow_pos (5 - length))
          (show length + (5 - length) ≤ 32 by omega)
        rw [Nat.or_zero, Nat.add_sub_cancel' hlength.le, bits_zero] at hbits
        rw [groups_cons, groups_nil, hmask, bits_mod _ le_rfl, hbits, List.append_nil]
        exact (congrArg (· ++ _) (List.append_nil _)).symm
    · obtain rfl : length = 0 := not_not.1 h
      exact ⟨[], rfl, fun v hv ↦ absurd hv List.not_mem_nil, 0, by omega, rfl⟩
  | cons b x ih =>
    obtain ⟨vs, hpush, hvs, hbits⟩ :=
      pushCharacters_spec upperCase ((c <<< 8) % 2 ^ 32 ||| b.toNat) (length + 8)
    obtain ⟨ws, hloop, hws, pad, hpad, hrest⟩ :=
      ih ((c <<< 8) % 2 ^ 32 ||| b.toNat) (Nat.mod_lt (length + 8) (by omega))
    refine ⟨vs ++ ws, ?_, ?_, pad, hpad, ?_⟩
    · rw [encodeLoop, hpush, List.map_append, ← hloop]
    · intro v hv
      exact (List.mem_append.1 hv).elim (hvs v) (hws v)
    · rw [bits_shift b.toNat_lt (by omega)] at hbits
      rw [groups_append, hrest, groups_byteValues_cons]
      simp only [← List.append_assoc]
      rw [← hbits]

/-- `base32_encode` writes the bits of its input in groups of five, filled up with fewer than five
zeros. -/
theorem base32Encode_spec (x : List UInt8) (upperCase : Bool) :
    ∃ vs : List ℕ, base32Encode x upperCase = vs.map (base32Character upperCase) ∧
      (∀ v ∈ vs, v < 2 ^ 5) ∧ ∃ pad < 5, groups 5 vs =
        groups 8 (byteValues x) ++ List.replicate pad false :=
  encodeLoop_spec upperCase 0 (by omega) x

/-! ## The decoder -/

/-- The loop succeeds exactly if its characters are in the alphabet and the bits of the register
and of the characters are those of the result and fewer than eight zeros. -/
theorem decodeLoop_eq_ok (hlength : length < 8) :
    decodeLoop c length s = .ok x ↔ (∀ v ∈ values s, v < 2 ^ 5) ∧ ∃ left < 8,
      bits length c ++ groups 5 (values s) =
        groups 8 (byteValues x) ++ List.replicate left false := by
  induction s generalizing c length x with
  | nil =>
    have hmask : c &&& (1 <<< length - 1) = c % 2 ^ length := by
      rw [Nat.one_shiftLeft, Nat.and_two_pow_sub_one_eq_mod]
    rw [decodeLoop, hmask, ite_not, values, List.map_nil, groups_nil, List.append_nil]
    constructor
    · intro h
      split_ifs at h with hzero
      obtain rfl : [] = x := Except.ok.inj h
      exact ⟨fun v hv ↦ absurd hv List.not_mem_nil, length, hlength, bits_eq_replicate.2 hzero⟩
    · rintro ⟨-, left, hleft, hbits⟩
      have hcount := congrArg List.length hbits
      rw [length_bits, List.length_append, length_groups, List.length_replicate, byteValues,
        List.length_map] at hcount
      obtain rfl : x = [] := List.eq_nil_of_length_eq_zero (by omega)
      obtain rfl : length = left := by
        rw [List.length_nil] at hcount
        omega
      rw [if_pos (bits_eq_replicate.1 hbits)]
  | cons d s ih =>
    rw [decodeLoop]
    by_cases hd : base32CharacterTable d = 32
    · rw [if_pos hd]
      constructor
      · exact fun h ↦ absurd h (by simp)
      · rintro ⟨hvs, -⟩
        exact absurd (hvs _ (List.mem_map_of_mem List.mem_cons_self)) (by rw [hd]; decide)
    have hlt : base32CharacterTable d < 2 ^ 5 := lt_of_le_of_ne (base32CharacterTable_le d) hd
    have hvalues : (∀ v ∈ values (d :: s), v < 2 ^ 5) ↔ ∀ v ∈ values s, v < 2 ^ 5 := by
      rw [values, List.map_cons, List.forall_mem_cons]
      exact and_iff_right hlt
    rw [if_neg hd, hvalues]
    have hshift := bits_shift (c := c) hlt (show length + 5 ≤ 32 by omega)
    have hgroups : bits length c ++ groups 5 (values (d :: s)) =
        bits (length + 5) ((c <<< 5) % 2 ^ 32 ||| base32CharacterTable d) ++
          groups 5 (values s) := by
      rw [hshift, List.append_assoc]
      rfl
    rw [hgroups]
    generalize (c <<< 5) % 2 ^ 32 ||| base32CharacterTable d = c'
    by_cases hge : length + 5 ≥ 8
    · rw [if_pos hge, bind_eq_ok]
      obtain ⟨rest, rfl⟩ : ∃ rest, length = rest + 3 := ⟨length - 3, by omega⟩
      have hbyte : bits 8 (UInt8.ofNat ((c' >>> rest) &&& 255)).toNat = bits 8 (c' >>> rest) := by
        have hmask : (c' >>> rest) &&& 255 = (c' >>> rest) % 2 ^ 8 :=
          Nat.and_two_pow_sub_one_eq_mod _ 8
        rw [hmask, UInt8.toNat_ofNat', Nat.mod_mod, bits_mod _ le_rfl]
      have hsplit : bits (rest + 3 + 5) c' = bits 8 (c' >>> rest) ++ bits rest c' := by
        rw [Nat.add_assoc, Nat.add_comm, bits_add]
      have hleft : rest + 3 + 5 - 8 = rest := rfl
      have hiff := fun x ↦ ih (c := c') (x := x) (show rest < 8 by omega)
      rw [hsplit, ← hbyte, hleft]
      generalize UInt8.ofNat ((c' >>> rest) &&& 255) = byte
      constructor
      · rintro ⟨res, hres, hx⟩
        obtain rfl : byte :: res = x := Except.ok.inj hx
        obtain ⟨hvs, left, hleft, hbits⟩ := (hiff res).1 hres
        refine ⟨hvs, left, hleft, ?_⟩
        rw [List.append_assoc, hbits, ← List.append_assoc]
        rfl
      · rintro ⟨hvs, left, hleft, hbits⟩
        have hcount := congrArg List.length hbits
        cases x with
        | nil =>
          rw [List.append_assoc, List.length_append, length_bits, byteValues, List.map_nil,
            groups_nil, List.nil_append, List.length_replicate] at hcount
          omega
        | cons b x =>
          rw [groups_byteValues_cons, List.append_assoc, List.append_assoc] at hbits
          obtain ⟨hb, hrest⟩ := List.append_inj hbits (by rw [length_bits, length_bits])
          obtain rfl : byte = b := UInt8.toNat_inj.1 (bits_inj byte.toNat_lt b.toNat_lt hb)
          exact ⟨x, (hiff x).2 ⟨hvs, left, hleft, hrest⟩, rfl⟩
    · rw [if_neg hge]
      exact ih (by omega)

theorem length_values : (values s).length = s.length := List.length_map _

theorem length_byteValues : (byteValues x).length = x.length := List.length_map _

/-- `base32_decode` succeeds exactly if its characters are in the alphabet and their bits are those
of the result and fewer than eight zeros. -/
theorem base32Decode_eq_ok : base32Decode s = .ok x ↔ (∀ v ∈ values s, v < 2 ^ 5) ∧ ∃ left < 8,
    groups 5 (values s) = groups 8 (byteValues x) ++ List.replicate left false :=
  decodeLoop_eq_ok (by omega)

/-! ## Round trip -/

/-- What was encoded is decoded, in either case and at any length. -/
theorem base32Decode_base32Encode (x : List UInt8) (upperCase : Bool) :
    base32Decode (base32Encode x upperCase) = .ok x := by
  obtain ⟨vs, hencode, hvs, pad, hpad, hbits⟩ := base32Encode_spec x upperCase
  rw [base32Decode_eq_ok, hencode, values_map hvs]
  exact ⟨hvs, pad, hpad.trans (by omega), hbits⟩

/-! ## What else is accepted -/

theorem toLower_eq_map (hs : ∀ v ∈ values s, v < 2 ^ 5) :
    toLower s = (values s).map (base32Character false) := by
  rw [toLower, values, List.map_map]
  apply List.map_congr_left
  intro d hd
  exact toLowerChar_eq_base32Character (hs _ (List.mem_map_of_mem hd)).ne

/-- The lengths that leave five, six or seven zeros, which no encoding has. -/
def HasStrayCharacter (s : List UInt8) : Prop := s.length % 8 ∈ [1, 3, 6]

instance HasStrayCharacter.decidable (s : List UInt8) : Decidable (HasStrayCharacter s) :=
  inferInstanceAs (Decidable (_ ∈ _))

/-- An accepted string is, up to its case, the encoding of what it is decoded to, unless it ends
with a character that carries zeros alone. -/
theorem toLower_eq_base32Encode_iff (hs : base32Decode s = .ok x) :
    toLower s = base32Encode x false ↔ ¬HasStrayCharacter s := by
  obtain ⟨hlt, left, hleft, hbits⟩ := base32Decode_eq_ok.1 hs
  obtain ⟨vs, hencode, hvs, pad, hpad, hgroups⟩ := base32Encode_spec x false
  have hcount := congrArg List.length hbits
  have hcount' := congrArg List.length hgroups
  simp only [List.length_append, length_groups, List.length_replicate, length_values,
    length_byteValues] at hcount hcount'
  have hstray : HasStrayCharacter s ↔ ¬left < 5 := by
    have hcases : ∀ r < 8, r ∈ [1, 3, 6] ↔ ¬5 * r % 8 < 5 := by decide
    obtain rfl : left = 5 * (s.length % 8) % 8 := by omega
    exact hcases _ (Nat.mod_lt _ (by omega))
  rw [hstray, not_not, hencode, toLower_eq_map hlt]
  constructor
  · intro h
    have hlength : (values s).length = vs.length := by
      simpa only [List.length_map] using congrArg List.length h
    rw [length_values] at hlength
    omega
  · intro hleft
    obtain rfl : left = pad := by omega
    rw [← hgroups] at hbits
    have hlength : (values s).length = vs.length := by
      rw [length_values]
      omega
    have heq : values s = vs := by
      apply (groups_append_inj (a := []) (b := []) hlt hvs hlength _).1
      rw [hbits]
    rw [heq]

/-- An accepted string is, up to its case, the encoding of what it is decoded to, and the only such
string with this result, exactly if it does not end with a character that carries zeros alone. -/
theorem base32Decode_canonical_iff (hs : base32Decode s = .ok x) :
    (toLower s = base32Encode x false ↔ ¬HasStrayCharacter s) ∧
      ∀ t, base32Decode t = .ok x → ¬HasStrayCharacter t →
        (toLower s = toLower t ↔ ¬HasStrayCharacter s) := by
  refine ⟨toLower_eq_base32Encode_iff hs, fun t ht hstray ↦ ?_⟩
  rw [(toLower_eq_base32Encode_iff ht).2 hstray]
  exact toLower_eq_base32Encode_iff hs

/-- One character of zeros is decoded like the empty string. -/
theorem base32Decode_canonical_stray :
    base32Decode (ascii "A") = .ok [] ∧ base32Decode [] = .ok [] ∧
      toLower (ascii "A") ≠ base32Encode [] false ∧ toLower (ascii "A") ≠ toLower [] := by
  decide

/-- Two characters are the encoding of one byte. -/
theorem base32Decode_canonical_two : toLower (ascii "AA") = base32Encode [0] false :=
  (base32Decode_canonical_iff (s := ascii "AA") (x := [0]) (by decide)).1.2 (by decide)

end PxcCore.Base32
