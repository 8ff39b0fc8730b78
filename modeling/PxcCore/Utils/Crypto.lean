import PxcCore.Lib.BlockModes
import PxcCore.Lib.LittleEndian
import PxcCore.Lib.Result

/-!
# Encryption in the IGE mode

`AesIgeState` of `crypto.cpp`, which encrypts in batches through the CBC mode of the library, over
a memory in which the source and the destination may be the same.
-/

namespace PxcCore.Crypto

open Lib

/-! ## Blocks -/

/-- The bytes of a block. -/
abbrev Block := Fin 16 → UInt8

/-- `AesBlock` -/
structure AesBlock where
  hi : UInt64
  lo : UInt64
deriving DecidableEq

namespace AesBlock

/-- The word that 8 bytes stand for on a little-endian host. -/
def word (bytes : ℕ → UInt8) : UInt64 := UInt64.ofNat (ofLe ((List.range 8).map bytes))

/-- `load` -/
def load (bytes : ℕ → UInt8) : AesBlock := ⟨word bytes, word fun i ↦ bytes (8 + i)⟩

/-- `raw` -/
def raw (block : AesBlock) : Block :=
  fun i ↦ (leBytes 8 block.hi.toNat ++ leBytes 8 block.lo.toNat).getD i 0

/-- The block that is written through `raw`. -/
def ofRaw (bytes : Block) : AesBlock := load fun i ↦ bytes (Fin.ofNat 16 i)

/-- `operator^` -/
instance instXorOp : XorOp AesBlock := ⟨fun a b ↦ ⟨a.hi ^^^ b.hi, a.lo ^^^ b.lo⟩⟩

end AesBlock

/-! ## Memory -/

/-- The bytes of the memory. -/
abbrev Memory := ℕ → UInt8

/-- `Slice` -/
structure Slice where
  ptr : ℕ
  size : ℕ
deriving DecidableEq

/-- `memcpy` to the memory. -/
def memcpy (mem : Memory) (dst n : ℕ) (bytes : ℕ → UInt8) : Memory :=
  fun a ↦ if dst ≤ a ∧ a < dst + n then bytes (a - dst) else mem a

/-- The bytes of an array of blocks. -/
def rawArray (data : ℕ → AesBlock) : ℕ → UInt8 := fun i ↦ (data (i / 16)).raw (Fin.ofNat 16 i)

/-! ## The library -/

/-- The ciphers that `init_encrypt_cbc` and `init_decrypt_ecb` choose. -/
inductive Cipher
  | encryptCbc
  | decryptEcb
deriving DecidableEq

/-- `Evp`, with the block that the next one is chained to. -/
structure Evp where
  cipher : Cipher
  key : List UInt8
  iv : Block

variable (aes : List UInt8 → Equiv.Perm Block)

namespace Evp

/-- `init_iv` -/
def initIv (evp : Evp) (iv : AesBlock) : Evp := { evp with iv := iv.raw }

/-- `encrypt` of an array of blocks in its place. -/
def encrypt (evp : Evp) (data : ℕ → AesBlock) (count : ℕ) :
    Except String (Evp × (ℕ → AesBlock)) :=
  match evp.cipher with
  | .decryptEcb => .error "LOG_IF(FATAL, res != 1)"
  | .encryptCbc =>
    let cipher := chain (cbcStep (aes evp.key)) evp.iv fun i ↦ (data i).raw
    .ok ({ evp with iv := cipher count }, fun i ↦ .ofRaw (cipher (i + 1)))

/-- `decrypt` of a block in its place. -/
def decrypt (evp : Evp) (block : AesBlock) : Except String AesBlock :=
  match evp.cipher with
  | .encryptCbc => .error "LOG_IF(FATAL, res != 1)"
  | .decryptEcb => .ok (.ofRaw ((aes evp.key).symm block.raw))

end Evp

/-! ## The state -/

/-- `AesIgeStateImpl` -/
structure AesIgeState where
  evp : Evp
  encryptedIv : AesBlock
  plaintextIv : AesBlock

namespace AesIgeState

/-- `init` -/
def init (key iv : List UInt8) (encrypt : Bool) : Except String AesIgeState := do
  if key.length ≠ 32 then throw "CHECK(key.size() == 32)"
  if iv.length ≠ 32 then throw "CHECK(iv.size() == 32)"
  return {
    evp := ⟨if encrypt then .encryptCbc else .decryptEcb, key, fun _ ↦ 0⟩
    encryptedIv := .load fun i ↦ iv.getD i 0
    plaintextIv := .load fun i ↦ iv.getD (16 + i) 0 }

/-- `get_iv` -/
def getIv (state : AesIgeState) : List UInt8 :=
  List.ofFn state.encryptedIv.raw ++ List.ofFn state.plaintextIv.raw

/-- `BLOCK_COUNT` -/
def blockCount : ℕ := 31

/-- `data_xored` before the encryption of a batch. -/
def dataXored (plaintextIv : AesBlock) (data : ℕ → AesBlock) : ℕ → AesBlock
  | 0 => data 0
  | 1 => plaintextIv ^^^ data 1
  | i + 2 => data i ^^^ data (i + 2)

/-- `data_xored` after the encryption of a batch. -/
def dataXoredAgain (plaintextIv : AesBlock) (data xored : ℕ → AesBlock) : ℕ → AesBlock
  | 0 => xored 0 ^^^ plaintextIv
  | i + 1 => xored (i + 1) ^^^ data i

/-- The loop of `encrypt`. -/
def encryptLoop (state : AesIgeState) (mem : Memory) (inp out len : ℕ) :
    Except String (AesIgeState × Memory) :=
  if len = 0 then .ok (state, mem) else do
    let count := min blockCount len
    let data := fun i ↦ AesBlock.load fun j ↦ mem (inp + 16 * i + j)
    let (evp, xored) ← (state.evp.initIv state.encryptedIv).encrypt aes
      (dataXored state.plaintextIv data) count
    let xored := dataXoredAgain state.plaintextIv data xored
    encryptLoop ⟨evp, xored (count - 1), data (count - 1)⟩
      (memcpy mem out (16 * count) (rawArray xored)) (inp + 16 * count) (out + 16 * count)
      (len - count)
termination_by len
decreasing_by
  rw [blockCount]
  omega

/-- `encrypt` -/
def encrypt (state : AesIgeState) (mem : Memory) (src dst : Slice) :
    Except String (AesIgeState × Memory) :=
  if src.size % 16 ≠ 0 then .error "CHECK(from.size() % AES_BLOCK_SIZE == 0)"
  else if dst.size < src.size then .error "CHECK(to.size() >= from.size())"
  else encryptLoop aes state mem src.ptr dst.ptr (dst.size / 16)

/-- The loop of `decrypt`. -/
def decryptLoop (state : AesIgeState) (mem : Memory) (inp out : ℕ) :
    ℕ → Except String (AesIgeState × Memory)
  | 0 => .ok (state, mem)
  | len + 1 => do
    let encrypted := AesBlock.load fun j ↦ mem (inp + j)
    let plain ← state.evp.decrypt aes (state.plaintextIv ^^^ encrypted)
    let plain := plain ^^^ state.encryptedIv
    decryptLoop ⟨state.evp, encrypted, plain⟩ (memcpy mem out 16 (rawArray fun _ ↦ plain))
      (inp + 16) (out + 16) len

/-- `decrypt` -/
def decrypt (state : AesIgeState) (mem : Memory) (src dst : Slice) :
    Except String (AesIgeState × Memory) :=
  if src.size % 16 ≠ 0 then .error "CHECK(from.size() % AES_BLOCK_SIZE == 0)"
  else if dst.size < src.size then .error "CHECK(to.size() >= from.size())"
  else decryptLoop aes state mem src.ptr dst.ptr (dst.size / 16)

end AesIgeState

/-- `aes_ige_encrypt`, which carries the initialization vectors in `iv`. -/
def aesIgeEncrypt (key iv : List UInt8) (mem : Memory) (src dst : Slice) :
    Except String (List UInt8 × Memory) := do
  let state ← AesIgeState.init key iv true
  let (state, mem) ← state.encrypt aes mem src dst
  return (state.getIv, mem)

/-- `aes_ige_decrypt` -/
def aesIgeDecrypt (key iv : List UInt8) (mem : Memory) (src dst : Slice) :
    Except String (List UInt8 × Memory) := do
  let state ← AesIgeState.init key iv false
  let (state, mem) ← state.decrypt aes mem src dst
  return (state.getIv, mem)

/-! ## Words and bytes -/

namespace AesBlock

theorem leBytes_word (bytes : ℕ → UInt8) :
    leBytes 8 (word bytes).toNat = (List.range 8).map bytes := by
  have hlt : ofLe ((List.range 8).map bytes) < 2 ^ 64 := by
    have := ofLe_lt ((List.range 8).map bytes)
    rw [List.length_map, List.length_range] at this
    exact this.trans_eq (by norm_num)
  rw [word, UInt64.toNat_ofNat', Nat.mod_eq_of_lt hlt]
  exact leBytes_ofLe ((List.range 8).map bytes)

theorem raw_load (bytes : ℕ → UInt8) : (load bytes).raw = fun i : Fin 16 ↦ bytes i := by
  funext i
  rw [raw, load, leBytes_word, leBytes_word]
  fin_cases i <;> rfl

theorem raw_ofRaw (bytes : Block) : (ofRaw bytes).raw = bytes := by
  rw [ofRaw, raw_load]
  funext i
  rw [Fin.ofNat_val_eq_self]

theorem raw_xor (a b : AesBlock) : (a ^^^ b).raw = a.raw ^^^ b.raw := by
  have hword (x y : UInt64) : (x ^^^ y).toNat = x.toNat ^^^ y.toNat := UInt64.toNat_xor x y
  funext i
  show (leBytes 8 (a.hi ^^^ b.hi).toNat ++ leBytes 8 (a.lo ^^^ b.lo).toNat).getD i 0 =
    a.raw i ^^^ b.raw i
  rw [hword, hword, leBytes_xor, leBytes_xor, raw, raw]
  fin_cases i <;> rfl

end AesBlock

/-! ## Blocks in the memory -/

/-- The blocks from an address on. -/
def blocks (mem : Memory) (p : ℕ) : ℕ → Block := fun i j ↦ mem (p + 16 * i + j)

/-- The bytes of blocks. -/
def bytesOf (data : ℕ → Block) : ℕ → UInt8 := fun i ↦ data (i / 16) (Fin.ofNat 16 i)

/-- Two buffers are the same or do not meet. -/
def SameOrApart (inp out n : ℕ) : Prop := inp = out ∨ inp + n ≤ out ∨ out + n ≤ inp

theorem rawArray_eq (data : ℕ → AesBlock) : rawArray data = bytesOf fun i ↦ (data i).raw := rfl

theorem memcpy_congr {mem : Memory} {dst n : ℕ} {bytes bytes' : ℕ → UInt8}
    (h : ∀ i < n, bytes i = bytes' i) : memcpy mem dst n bytes = memcpy mem dst n bytes' := by
  funext a
  rw [memcpy, memcpy]
  split_ifs with ha
  · exact h _ (by omega)
  · rfl

theorem memcpy_zero (mem : Memory) (dst : ℕ) (bytes : ℕ → UInt8) :
    memcpy mem dst 0 bytes = mem := by
  funext a
  exact if_neg (by omega)

/-- A block that was written. -/
theorem blocks_memcpy {mem : Memory} {dst n i : ℕ} {data : ℕ → Block} (hi : i < n) :
    blocks (memcpy mem dst (16 * n) (bytesOf data)) dst i = data i := by
  funext j
  have hj := j.isLt
  have haddr : dst + 16 * i + j - dst = 16 * i + j := by omega
  have hdiv : (16 * i + j) / 16 = i := by omega
  have hmod : Fin.ofNat 16 (16 * i + j) = j := by
    apply Fin.ext
    show (16 * i + j) % 16 = j
    omega
  rw [blocks, memcpy, if_pos (by omega), haddr, bytesOf, hdiv, hmod]

section Processed

variable {σ : Type*} (step : σ → Block → σ) (output : σ → Block)
variable {mem : Memory} {inp out n m : ℕ} {s : σ}

/-- The memory after `n` blocks are read, go through a state and are written. -/
def processed (mem : Memory) (inp out n : ℕ) (s : σ) : Memory :=
  memcpy mem out (16 * n) (bytesOf fun i ↦ output (chain step s (blocks mem inp) (i + 1)))

variable {step} in
/-- The blocks that are still to be read have not been written. -/
theorem chain_memcpy (h : SameOrApart inp out (16 * (n + m))) {bytes : ℕ → UInt8} {i : ℕ}
    (hi : i ≤ m) :
    chain step (chain step s (blocks mem inp) n)
        (blocks (memcpy mem out (16 * n) bytes) (inp + 16 * n)) i =
      chain step s (blocks mem inp) (n + i) := by
  rw [chain_add]
  refine chain_congr _ _ fun k hk ↦ ?_
  funext j
  have hj := j.isLt
  rw [SameOrApart] at h
  have haddr : inp + 16 * n + 16 * k + j = inp + 16 * (n + k) + j := by omega
  rw [blocks, memcpy, if_neg (by omega), haddr]
  rfl

/-- Blocks that are processed one part after the other. -/
theorem processed_add (h : SameOrApart inp out (16 * (n + m))) :
    processed step output (processed step output mem inp out n s) (inp + 16 * n) (out + 16 * n) m
        (chain step s (blocks mem inp) n) =
      processed step output mem inp out (n + m) s := by
  funext a
  rw [processed, memcpy]
  split_ifs with ha
  · obtain ⟨k, hk⟩ : ∃ k, a = out + 16 * n + k := Nat.exists_eq_add_of_le ha.1
    subst hk
    have hchain := @chain_memcpy _ step mem inp out n m s h
      (bytesOf fun i ↦ output (chain step s (blocks mem inp) (i + 1))) (k / 16 + 1) (by omega)
    have hdiv : (16 * n + k) / 16 = n + k / 16 := by omega
    have hmod : Fin.ofNat 16 (16 * n + k) = Fin.ofNat 16 k := by
      apply Fin.ext
      show (16 * n + k) % 16 = k % 16
      omega
    rw [processed, processed, memcpy, if_pos (by omega), Nat.add_sub_cancel_left, bytesOf, hchain,
      Nat.add_assoc out, Nat.add_sub_cancel_left, bytesOf, hdiv, hmod]
    rfl
  · rw [processed, processed, memcpy, memcpy]
    split_ifs with h₁ h₂ h₂
    · rfl
    · omega
    · omega
    · rfl

end Processed

/-! ## Encryption and decryption -/

namespace AesIgeState

variable {state : AesIgeState} {mem : Memory} {inp out n : ℕ}

/-- The initialization vectors. -/
def ivs (state : AesIgeState) : Block × Block := (state.encryptedIv.raw, state.plaintextIv.raw)

theorem raw_dataXored (plaintextIv : AesBlock) (data : ℕ → AesBlock) (i : ℕ) :
    (dataXored plaintextIv data i).raw = preXor plaintextIv.raw (fun i ↦ (data i).raw) i := by
  rcases i with - | - | i
  · rfl
  · exact AesBlock.raw_xor _ _
  · exact AesBlock.raw_xor _ _

/-- A batch is what the IGE mode makes of its blocks. -/
theorem raw_dataXoredAgain (encrypt : Block → Block) (encryptedIv plaintextIv : AesBlock)
    (data : ℕ → AesBlock) (i : ℕ) :
    (dataXoredAgain plaintextIv data (fun i ↦ .ofRaw (chain (cbcStep encrypt) encryptedIv.raw
        (fun i ↦ (dataXored plaintextIv data i).raw) (i + 1))) i).raw =
      (chain (igeEncryptStep encrypt) (encryptedIv.raw, plaintextIv.raw)
        (fun i ↦ (data i).raw) (i + 1)).1 := by
  rw [← chain_cbc_xor, funext (raw_dataXored plaintextIv data)]
  cases i with
  | zero =>
    rw [dataXoredAgain, AesBlock.raw_xor, AesBlock.raw_ofRaw]
    rfl
  | succ i =>
    rw [dataXoredAgain, AesBlock.raw_xor, AesBlock.raw_ofRaw]
    rfl

/-- The loop does what the IGE mode does block by block. -/
theorem encryptLoop_spec (hcipher : state.evp.cipher = .encryptCbc)
    (h : SameOrApart inp out (16 * n)) :
    ∃ state', encryptLoop aes state mem inp out n = .ok (state',
        processed (igeEncryptStep (aes state.evp.key)) Prod.fst mem inp out n state.ivs) ∧
      state'.ivs = chain (igeEncryptStep (aes state.evp.key)) state.ivs (blocks mem inp) n ∧
      state'.evp.cipher = .encryptCbc ∧ state'.evp.key = state.evp.key := by
  induction n using Nat.strong_induction_on generalizing state mem inp out with
  | _ n ih =>
    rw [encryptLoop]
    split_ifs with hn
    · subst hn
      refine ⟨state, ?_, rfl, hcipher, rfl⟩
      rw [processed, memcpy_zero]
    · obtain ⟨count, hcount⟩ : ∃ count, count = min blockCount n := ⟨_, rfl⟩
      have hpos : 0 < count := by
        rw [hcount, blockCount]
        omega
      obtain ⟨rest, rfl⟩ : ∃ rest, n = count + rest := Nat.exists_eq_add_of_le (by omega)
      let data := fun i ↦ AesBlock.load fun j ↦ mem (inp + 16 * i + j)
      have hdata : (fun i ↦ (data i).raw) = blocks mem inp := by
        funext i
        exact AesBlock.raw_load _
      let cipher := chain (cbcStep (aes state.evp.key)) state.encryptedIv.raw fun i ↦
        (dataXored state.plaintextIv data i).raw
      let xored := dataXoredAgain state.plaintextIv data fun i ↦ .ofRaw (cipher (i + 1))
      have hxored (i : ℕ) : (xored i).raw =
          (chain (igeEncryptStep (aes state.evp.key)) state.ivs (blocks mem inp) (i + 1)).1 := by
        rw [← hdata]
        exact raw_dataXoredAgain _ _ _ _ _
      have hencrypt : (state.evp.initIv state.encryptedIv).encrypt aes
            (dataXored state.plaintextIv data) count =
          .ok (⟨.encryptCbc, state.evp.key, cipher count⟩, fun i ↦ .ofRaw (cipher (i + 1))) := by
        rw [Evp.encrypt, Evp.initIv]
        simp only [hcipher]
        rfl
      have hmem : memcpy mem out (16 * count) (rawArray xored) =
          processed (igeEncryptStep (aes state.evp.key)) Prod.fst mem inp out count state.ivs := by
        rw [rawArray_eq, funext hxored]
        rfl
      let next : AesIgeState :=
        ⟨⟨.encryptCbc, state.evp.key, cipher count⟩, xored (count - 1), data (count - 1)⟩
      have hnext : next.ivs =
          chain (igeEncryptStep (aes state.evp.key)) state.ivs (blocks mem inp) count := by
        obtain ⟨last, rfl⟩ : ∃ last, count = last + 1 := ⟨count - 1, by omega⟩
        apply Prod.ext
        · exact hxored last
        · exact congrFun hdata last
      have hrest : SameOrApart (inp + 16 * count) (out + 16 * count) (16 * rest) := by
        rw [SameOrApart] at h ⊢
        omega
      obtain ⟨state', hloop, hivs, hcipher', hkey⟩ := @ih rest (by omega) next
        (processed (igeEncryptStep (aes state.evp.key)) Prod.fst mem inp out count state.ivs)
        (inp + 16 * count) (out + 16 * count) rfl hrest
      refine ⟨state', ?_, ?_, hcipher', hkey⟩
      · rw [← hcount]
        show (Evp.encrypt aes (state.evp.initIv state.encryptedIv)
          (dataXored state.plaintextIv data) count >>= _) = _
        rw [hencrypt, ok_bind]
        show encryptLoop aes next (memcpy mem out (16 * count) (rawArray xored)) _ _ _ = _
        rw [hmem, Nat.add_sub_cancel_left, hloop, hnext]
        congr 2
        exact processed_add _ _ h
      · rw [hivs, hnext]
        exact chain_memcpy h le_rfl

/-- The loop does what the inverse of the IGE mode does. -/
theorem decryptLoop_spec (hcipher : state.evp.cipher = .decryptEcb)
    (h : SameOrApart inp out (16 * n)) :
    ∃ state', decryptLoop aes state mem inp out n = .ok (state',
        processed (igeDecryptStep (aes state.evp.key).symm) Prod.snd mem inp out n state.ivs) ∧
      state'.ivs = chain (igeDecryptStep (aes state.evp.key).symm) state.ivs (blocks mem inp) n ∧
      state'.evp = state.evp := by
  induction n generalizing state mem inp out with
  | zero =>
    refine ⟨state, ?_, rfl, rfl⟩
    rw [processed, memcpy_zero, decryptLoop]
  | succ n ih =>
    let encrypted := AesBlock.load fun j ↦ mem (inp + j)
    have hencrypted : encrypted.raw = blocks mem inp 0 := by
      exact AesBlock.raw_load _
    let plain := AesBlock.ofRaw
      ((aes state.evp.key).symm (state.plaintextIv ^^^ encrypted).raw) ^^^ state.encryptedIv
    let next : AesIgeState := ⟨state.evp, encrypted, plain⟩
    have hnext : next.ivs =
        chain (igeDecryptStep (aes state.evp.key).symm) state.ivs (blocks mem inp) 1 := by
      apply Prod.ext
      · exact hencrypted
      · show plain.raw = (aes state.evp.key).symm (blocks mem inp 0 ^^^ state.plaintextIv.raw) ^^^
          state.encryptedIv.raw
        rw [AesBlock.raw_xor, AesBlock.raw_ofRaw, AesBlock.raw_xor, hencrypted,
          xor_comm state.plaintextIv.raw]
    have hmem : memcpy mem out 16 (rawArray fun _ ↦ plain) =
        processed (igeDecryptStep (aes state.evp.key).symm) Prod.snd mem inp out 1 state.ivs := by
      refine memcpy_congr fun i hi ↦ ?_
      rw [rawArray_eq, bytesOf, bytesOf, Nat.div_eq_of_lt hi, ← hnext]
      rfl
    rw [Nat.add_comm n 1] at h ⊢
    have hrest : SameOrApart (inp + 16) (out + 16) (16 * n) := by
      rw [SameOrApart] at h ⊢
      omega
    obtain ⟨state', hloop, hivs, hevp⟩ := @ih next
      (processed (igeDecryptStep (aes state.evp.key).symm) Prod.snd mem inp out 1 state.ivs)
      (inp + 16) (out + 16) hcipher hrest
    refine ⟨state', ?_, ?_, hevp⟩
    · have hdecrypt : state.evp.decrypt aes (state.plaintextIv ^^^ encrypted) =
          .ok (.ofRaw ((aes state.evp.key).symm (state.plaintextIv ^^^ encrypted).raw)) := by
        rw [Evp.decrypt]
        simp only [hcipher]
      rw [Nat.add_comm 1 n, decryptLoop]
      show (Evp.decrypt aes state.evp (state.plaintextIv ^^^ encrypted) >>= _) = _
      rw [hdecrypt, ok_bind]
      show decryptLoop aes next (memcpy mem out 16 (rawArray fun _ ↦ plain)) _ _ _ = _
      rw [hmem, hloop, hnext, Nat.add_comm n 1]
      congr 2
      exact processed_add _ _ h
    · rw [hivs, hnext]
      exact chain_memcpy h le_rfl

theorem encrypt_spec (hcipher : state.evp.cipher = .encryptCbc)
    (h : SameOrApart inp out (16 * n)) :
    ∃ state', state.encrypt aes mem ⟨inp, 16 * n⟩ ⟨out, 16 * n⟩ = .ok (state',
        processed (igeEncryptStep (aes state.evp.key)) Prod.fst mem inp out n state.ivs) ∧
      state'.ivs = chain (igeEncryptStep (aes state.evp.key)) state.ivs (blocks mem inp) n ∧
      state'.evp.cipher = .encryptCbc ∧ state'.evp.key = state.evp.key := by
  rw [encrypt, if_neg (by simp), if_neg (lt_irrefl _)]
  dsimp only
  rw [Nat.mul_div_cancel_left n (by norm_num)]
  exact encryptLoop_spec aes hcipher h

theorem decrypt_spec (hcipher : state.evp.cipher = .decryptEcb)
    (h : SameOrApart inp out (16 * n)) :
    ∃ state', state.decrypt aes mem ⟨inp, 16 * n⟩ ⟨out, 16 * n⟩ = .ok (state',
        processed (igeDecryptStep (aes state.evp.key).symm) Prod.snd mem inp out n state.ivs) ∧
      state'.ivs = chain (igeDecryptStep (aes state.evp.key).symm) state.ivs (blocks mem inp) n ∧
      state'.evp = state.evp := by
  rw [decrypt, if_neg (by simp), if_neg (lt_irrefl _)]
  dsimp only
  rw [Nat.mul_div_cancel_left n (by norm_num)]
  exact decryptLoop_spec aes hcipher h

end AesIgeState

/-! ## Initialization vectors -/

/-- The two blocks of an initialization vector. -/
def ivsOf (iv : List UInt8) : Block × Block := (fun i ↦ iv.getD i 0, fun i ↦ iv.getD (16 + i) 0)

/-- The initialization vector that two blocks make up. -/
def ivBytes (ivs : Block × Block) : List UInt8 := List.ofFn ivs.1 ++ List.ofFn ivs.2

theorem length_ivBytes (ivs : Block × Block) : (ivBytes ivs).length = 32 := by
  rw [ivBytes, List.length_append, List.length_ofFn, List.length_ofFn]

theorem ivsOf_ivBytes (ivs : Block × Block) : ivsOf (ivBytes ivs) = ivs := by
  apply Prod.ext
  · funext i
    simp only [ivsOf, ivBytes]
    fin_cases i <;> rfl
  · funext i
    simp only [ivsOf, ivBytes]
    fin_cases i <;> rfl

theorem ivBytes_ivsOf {iv : List UInt8} (h : iv.length = 32) : ivBytes (ivsOf iv) = iv := by
  refine List.ext_getElem ((length_ivBytes _).trans h.symm) fun i h₁ h₂ ↦ ?_
  simp only [ivBytes, ivsOf, List.getElem_append, List.length_ofFn, List.getElem_ofFn]
  split_ifs with hi
  · exact (List.getElem_eq_getD 0).symm
  · simp only [Nat.add_sub_cancel' (not_lt.1 hi)]
    exact (List.getElem_eq_getD 0).symm

variable {key iv : List UInt8} {mem mem' : Memory} {inp out dst n : ℕ}

theorem init_spec (hkey : key.length = 32) (hiv : iv.length = 32) (encrypt : Bool) :
    ∃ state, AesIgeState.init key iv encrypt = .ok state ∧ state.ivs = ivsOf iv ∧
      state.evp.key = key ∧
      state.evp.cipher = if encrypt then .encryptCbc else .decryptEcb := by
  refine ⟨⟨⟨if encrypt then .encryptCbc else .decryptEcb, key, fun _ ↦ 0⟩,
    .load fun i ↦ iv.getD i 0, .load fun i ↦ iv.getD (16 + i) 0⟩, ?_, ?_, rfl, rfl⟩
  · simp only [AesIgeState.init, hkey, hiv, ne_eq, not_true_eq_false, if_false, pure_eq_ok]
  · rw [AesIgeState.ivs, AesBlock.raw_load, AesBlock.raw_load]
    rfl

/-- The mode, the memory and the vectors after a call. -/
theorem aesIgeEncrypt_spec (hkey : key.length = 32) (hiv : iv.length = 32)
    (h : SameOrApart inp out (16 * n)) :
    aesIgeEncrypt aes key iv mem ⟨inp, 16 * n⟩ ⟨out, 16 * n⟩ = .ok
      (ivBytes (chain (igeEncryptStep (aes key)) (ivsOf iv) (blocks mem inp) n),
        processed (igeEncryptStep (aes key)) Prod.fst mem inp out n (ivsOf iv)) := by
  obtain ⟨state, hinit, hivs, rfl, hcipher⟩ := init_spec hkey hiv true
  obtain ⟨state', hencrypt, hivs', -⟩ := @AesIgeState.encrypt_spec aes _ mem _ _ _ hcipher h
  rw [aesIgeEncrypt, hinit, ok_bind, hencrypt, ok_bind, ← hivs, ← hivs']
  rfl

theorem aesIgeDecrypt_spec (hkey : key.length = 32) (hiv : iv.length = 32)
    (h : SameOrApart inp out (16 * n)) :
    aesIgeDecrypt aes key iv mem ⟨inp, 16 * n⟩ ⟨out, 16 * n⟩ = .ok
      (ivBytes (chain (igeDecryptStep (aes key).symm) (ivsOf iv) (blocks mem inp) n),
        processed (igeDecryptStep (aes key).symm) Prod.snd mem inp out n (ivsOf iv)) := by
  obtain ⟨state, hinit, hivs, rfl, hcipher⟩ := init_spec hkey hiv false
  obtain ⟨state', hdecrypt, hivs', -⟩ := @AesIgeState.decrypt_spec aes _ mem _ _ _ hcipher h
  rw [aesIgeDecrypt, hinit, ok_bind, hdecrypt, ok_bind, ← hivs, ← hivs']
  rfl

/-! ## Pieces -/

/-- Calls for pieces of as many blocks as the list says, which follow each other. -/
def pieces {σ : Type*} (process : σ → Memory → Slice → Slice → Except String (σ × Memory)) :
    List ℕ → σ → Memory → ℕ → ℕ → Except String (σ × Memory)
  | [], s, mem, _, _ => .ok (s, mem)
  | n :: ns, s, mem, inp, out => do
    let (s, mem) ← process s mem ⟨inp, 16 * n⟩ ⟨out, 16 * n⟩
    pieces process ns s mem (inp + 16 * n) (out + 16 * n)

section Pieces

variable {σ : Type*} {step : Block × Block → Block → Block × Block}
variable {output : Block × Block → Block} {ivs : σ → Block × Block} {Valid : σ → Prop}
variable {process : σ → Memory → Slice → Slice → Except String (σ × Memory)}

/-- Pieces are as good as the whole. -/
theorem pieces_spec (hprocess : ∀ {s mem inp out n}, Valid s → SameOrApart inp out (16 * n) →
      ∃ s', process s mem ⟨inp, 16 * n⟩ ⟨out, 16 * n⟩ =
          .ok (s', processed step output mem inp out n (ivs s)) ∧
        ivs s' = chain step (ivs s) (blocks mem inp) n ∧ Valid s')
    (ns : List ℕ) {s : σ} (hs : Valid s) (h : SameOrApart inp out (16 * ns.sum)) :
    ∃ s', pieces process ns s mem inp out =
        .ok (s', processed step output mem inp out ns.sum (ivs s)) ∧
      ivs s' = chain step (ivs s) (blocks mem inp) ns.sum ∧ Valid s' := by
  induction ns generalizing s mem inp out with
  | nil =>
    refine ⟨s, ?_, rfl, hs⟩
    rw [pieces, List.sum_nil, processed, Nat.mul_zero, memcpy_zero]
  | cons n ns ih =>
    rw [List.sum_cons] at h ⊢
    have hfirst : SameOrApart inp out (16 * n) := by
      rw [SameOrApart] at h ⊢
      omega
    have hrest : SameOrApart (inp + 16 * n) (out + 16 * n) (16 * ns.sum) := by
      rw [SameOrApart] at h ⊢
      omega
    obtain ⟨s₁, hcall, hivs₁, hs₁⟩ := @hprocess s mem inp out n hs hfirst
    obtain ⟨s₂, hpieces, hivs₂, hs₂⟩ :=
      @ih (processed step output mem inp out n (ivs s)) (inp + 16 * n) (out + 16 * n) s₁ hs₁ hrest
    refine ⟨s₂, ?_, ?_, hs₂⟩
    · rw [pieces, hcall, ok_bind]
      show pieces process ns s₁ _ _ _ = _
      rw [hpieces, hivs₁, processed_add step output h]
    · rw [hivs₂, hivs₁]
      exact chain_memcpy h le_rfl

end Pieces

theorem pieces_aesIgeEncrypt (hkey : key.length = 32) (hiv : iv.length = 32) (ns : List ℕ)
    (h : SameOrApart inp out (16 * ns.sum)) :
    pieces (aesIgeEncrypt aes key) ns iv mem inp out =
      aesIgeEncrypt aes key iv mem ⟨inp, 16 * ns.sum⟩ ⟨out, 16 * ns.sum⟩ := by
  obtain ⟨iv', hpieces, hivs, hiv'⟩ := @pieces_spec mem inp out (List UInt8)
    (igeEncryptStep (aes key)) Prod.fst ivsOf (fun iv ↦ iv.length = 32) (aesIgeEncrypt aes key)
    (fun hiv h ↦ ⟨_, aesIgeEncrypt_spec aes hkey hiv h, ivsOf_ivBytes _, length_ivBytes _⟩) ns iv
    hiv h
  rw [hpieces, aesIgeEncrypt_spec aes hkey hiv h, ← hivs, ivBytes_ivsOf hiv']

theorem pieces_aesIgeDecrypt (hkey : key.length = 32) (hiv : iv.length = 32) (ns : List ℕ)
    (h : SameOrApart inp out (16 * ns.sum)) :
    pieces (aesIgeDecrypt aes key) ns iv mem inp out =
      aesIgeDecrypt aes key iv mem ⟨inp, 16 * ns.sum⟩ ⟨out, 16 * ns.sum⟩ := by
  obtain ⟨iv', hpieces, hivs, hiv'⟩ := @pieces_spec mem inp out (List UInt8)
    (igeDecryptStep (aes key).symm) Prod.snd ivsOf (fun iv ↦ iv.length = 32)
    (aesIgeDecrypt aes key)
    (fun hiv h ↦ ⟨_, aesIgeDecrypt_spec aes hkey hiv h, ivsOf_ivBytes _, length_ivBytes _⟩) ns iv
    hiv h
  rw [hpieces, aesIgeDecrypt_spec aes hkey hiv h, ← hivs, ivBytes_ivsOf hiv']

namespace AesIgeState

/-- `encrypt` for pieces between `init` and `get_iv`. -/
def encryptPieces (key iv : List UInt8) (ns : List ℕ) (mem : Memory) (inp out : ℕ) :
    Except String (List UInt8 × Memory) := do
  let state ← init key iv true
  let (state, mem) ← pieces (encrypt aes) ns state mem inp out
  return (state.getIv, mem)

/-- `decrypt` for pieces between `init` and `get_iv`. -/
def decryptPieces (key iv : List UInt8) (ns : List ℕ) (mem : Memory) (inp out : ℕ) :
    Except String (List UInt8 × Memory) := do
  let state ← init key iv false
  let (state, mem) ← pieces (decrypt aes) ns state mem inp out
  return (state.getIv, mem)

theorem encryptPieces_spec (hkey : key.length = 32) (hiv : iv.length = 32) (ns : List ℕ)
    (h : SameOrApart inp out (16 * ns.sum)) :
    encryptPieces aes key iv ns mem inp out =
      aesIgeEncrypt aes key iv mem ⟨inp, 16 * ns.sum⟩ ⟨out, 16 * ns.sum⟩ := by
  obtain ⟨state, hinit, hivs, hstate, hcipher⟩ := init_spec hkey hiv true
  obtain ⟨state', hpieces, hivs', -⟩ := @pieces_spec mem inp out AesIgeState
    (igeEncryptStep (aes key)) Prod.fst ivs
    (fun state ↦ state.evp.cipher = .encryptCbc ∧ state.evp.key = key) (encrypt aes)
    (fun {_ mem _ _ _} hs h ↦ by
      obtain ⟨s', hencrypt, hivs, hcipher, hkey⟩ := @encrypt_spec aes _ mem _ _ _ hs.1 h
      rw [hs.2] at hencrypt hivs hkey
      exact ⟨s', hencrypt, hivs, hcipher, hkey⟩) ns state ⟨hcipher, hstate⟩ h
  rw [encryptPieces, hinit, ok_bind, hpieces, ok_bind, aesIgeEncrypt_spec aes hkey hiv h, ← hivs,
    ← hivs']
  rfl

theorem decryptPieces_spec (hkey : key.length = 32) (hiv : iv.length = 32) (ns : List ℕ)
    (h : SameOrApart inp out (16 * ns.sum)) :
    decryptPieces aes key iv ns mem inp out =
      aesIgeDecrypt aes key iv mem ⟨inp, 16 * ns.sum⟩ ⟨out, 16 * ns.sum⟩ := by
  obtain ⟨state, hinit, hivs, hstate, hcipher⟩ := init_spec hkey hiv false
  obtain ⟨state', hpieces, hivs', -⟩ := @pieces_spec mem inp out AesIgeState
    (igeDecryptStep (aes key).symm) Prod.snd ivs
    (fun state ↦ state.evp.cipher = .decryptEcb ∧ state.evp.key = key) (decrypt aes)
    (fun {_ mem _ _ _} hs h ↦ by
      obtain ⟨s', hdecrypt, hivs, hevp⟩ := @decrypt_spec aes _ mem _ _ _ hs.1 h
      rw [hs.2] at hdecrypt hivs
      exact ⟨s', hdecrypt, hivs, hevp ▸ hs⟩) ns state ⟨hcipher, hstate⟩ h
  rw [decryptPieces, hinit, ok_bind, hpieces, ok_bind, aesIgeDecrypt_spec aes hkey hiv h, ← hivs,
    ← hivs']
  rfl

end AesIgeState

/-! ## Main result -/

/-- `n` blocks were written, and nothing else. -/
structure Written (mem mem' : Memory) (out n : ℕ) (data : ℕ → Block) : Prop where
  block : ∀ i < n, blocks mem' out i = data i
  rest : ∀ a, a < out ∨ out + 16 * n ≤ a → mem' a = mem a

theorem written_memcpy (mem : Memory) (out n : ℕ) (data : ℕ → Block) :
    Written mem (memcpy mem out (16 * n) (bytesOf data)) out n data where
  block _ hi := blocks_memcpy hi
  rest a ha := if_neg (by omega)

/-- What is known about the encryption and the decryption of `n` blocks. -/
structure Exact (key iv : List UInt8) (mem : Memory) (inp out n : ℕ) : Prop where
  encrypt : ∃ mem', aesIgeEncrypt aes key iv mem ⟨inp, 16 * n⟩ ⟨out, 16 * n⟩ = .ok
      (ivBytes (chain (igeEncryptStep (aes key)) (ivsOf iv) (blocks mem inp) n), mem') ∧
    Written mem mem' out n fun i ↦
      (chain (igeEncryptStep (aes key)) (ivsOf iv) (blocks mem inp) (i + 1)).1
  decrypt : ∃ mem', aesIgeDecrypt aes key iv mem ⟨inp, 16 * n⟩ ⟨out, 16 * n⟩ = .ok
      (ivBytes (chain (igeDecryptStep (aes key).symm) (ivsOf iv) (blocks mem inp) n), mem') ∧
    Written mem mem' out n fun i ↦
      (chain (igeDecryptStep (aes key).symm) (ivsOf iv) (blocks mem inp) (i + 1)).2
  inverse : ∀ iv' mem' dst,
    aesIgeEncrypt aes key iv mem ⟨inp, 16 * n⟩ ⟨out, 16 * n⟩ = .ok (iv', mem') →
    SameOrApart out dst (16 * n) →
    ∃ mem'', aesIgeDecrypt aes key iv mem' ⟨out, 16 * n⟩ ⟨dst, 16 * n⟩ = .ok (iv', mem'') ∧
      Written mem' mem'' dst n (blocks mem inp)
  encryptSplit : ∀ ns : List ℕ, ns.sum = n →
    pieces (aesIgeEncrypt aes key) ns iv mem inp out =
      aesIgeEncrypt aes key iv mem ⟨inp, 16 * n⟩ ⟨out, 16 * n⟩ ∧
    AesIgeState.encryptPieces aes key iv ns mem inp out =
      aesIgeEncrypt aes key iv mem ⟨inp, 16 * n⟩ ⟨out, 16 * n⟩
  decryptSplit : ∀ ns : List ℕ, ns.sum = n →
    pieces (aesIgeDecrypt aes key) ns iv mem inp out =
      aesIgeDecrypt aes key iv mem ⟨inp, 16 * n⟩ ⟨out, 16 * n⟩ ∧
    AesIgeState.decryptPieces aes key iv ns mem inp out =
      aesIgeDecrypt aes key iv mem ⟨inp, 16 * n⟩ ⟨out, 16 * n⟩

/-- Decryption takes back what encryption has written. -/
theorem aesIgeDecrypt_aesIgeEncrypt (hkey : key.length = 32) (hiv : iv.length = 32)
    (h : SameOrApart inp out (16 * n)) (h' : SameOrApart out dst (16 * n)) {iv' : List UInt8}
    (hencrypt : aesIgeEncrypt aes key iv mem ⟨inp, 16 * n⟩ ⟨out, 16 * n⟩ = .ok (iv', mem')) :
    ∃ mem'', aesIgeDecrypt aes key iv mem' ⟨out, 16 * n⟩ ⟨dst, 16 * n⟩ = .ok (iv', mem'') ∧
      Written mem' mem'' dst n (blocks mem inp) := by
  rw [aesIgeEncrypt_spec aes hkey hiv h, Except.ok.injEq, Prod.mk.injEq] at hencrypt
  obtain ⟨rfl, hmem'⟩ := hencrypt
  have hstates : ∀ i ≤ n, chain (igeDecryptStep (aes key).symm) (ivsOf iv) (blocks mem' out) i =
      chain (igeEncryptStep (aes key)) (ivsOf iv) (blocks mem inp) i := by
    intro i hi
    rw [← chain_igeDecrypt (aes key)]
    refine chain_congr _ _ fun k hk ↦ ?_
    rw [← hmem']
    exact blocks_memcpy (by omega)
  refine ⟨_, ?_, written_memcpy _ _ _ _⟩
  rw [aesIgeDecrypt_spec aes hkey hiv h', hstates n le_rfl]
  congr 2
  refine memcpy_congr fun a ha ↦ ?_
  rw [bytesOf, bytesOf, hstates _ (by omega)]
  rfl

/-- Batches and pieces do what the IGE mode does block by block. -/
theorem aesIge_exact (hkey : key.length = 32) (hiv : iv.length = 32)
    (h : SameOrApart inp out (16 * n)) : Exact aes key iv mem inp out n where
  encrypt := ⟨_, aesIgeEncrypt_spec aes hkey hiv h, written_memcpy _ _ _ _⟩
  decrypt := ⟨_, aesIgeDecrypt_spec aes hkey hiv h, written_memcpy _ _ _ _⟩
  inverse _ _ _ hencrypt h' := aesIgeDecrypt_aesIgeEncrypt aes hkey hiv h h' hencrypt
  encryptSplit ns hns := by
    subst hns
    exact ⟨pieces_aesIgeEncrypt aes hkey hiv ns h,
      AesIgeState.encryptPieces_spec aes hkey hiv ns h⟩
  decryptSplit ns hns := by
    subst hns
    exact ⟨pieces_aesIgeDecrypt aes hkey hiv ns h,
      AesIgeState.decryptPieces_spec aes hkey hiv ns h⟩

/-- Two batches that are encrypted in their place. -/
theorem aesIge_exact_in_place :
    Exact (fun _ ↦ Equiv.refl Block) (List.replicate 32 0) (List.replicate 32 1) (fun _ ↦ 2)
      0 0 40 :=
  aesIge_exact _ (List.length_replicate) (List.length_replicate) (Or.inl rfl)

end PxcCore.Crypto
