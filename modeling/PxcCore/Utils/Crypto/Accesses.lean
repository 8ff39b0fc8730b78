import PxcCore.Utils.Crypto

/-!
# The memory that the IGE mode touches

`AesIgeStateImpl` with the accesses that `encrypt` and `decrypt` make to the memory outside of the
state.  Their loops count the blocks of the destination.
-/

namespace PxcCore.Crypto

open Lib

/-! ## Accesses -/

/-- A `memcpy` out of the memory, or into it. -/
inductive Access where
  | read (ptr size : ℕ)
  | write (ptr size : ℕ)
deriving DecidableEq

/-- What is read is in the source, and what is written is in as many bytes of the destination. -/
def Access.Inside (src dst : Slice) : Access → Prop
  | .read ptr size => src.ptr ≤ ptr ∧ ptr + size ≤ src.ptr + src.size
  | .write ptr size => dst.ptr ≤ ptr ∧ ptr + size ≤ dst.ptr + src.size

variable (aes : List UInt8 → Equiv.Perm Block)

namespace AesIgeState

/-- The loop of `encrypt`, with its accesses. -/
def encryptLoopLog (state : AesIgeState) (mem : Memory) (inp out len : ℕ) :
    List Access × Except String (AesIgeState × Memory) :=
  if len = 0 then ([], .ok (state, mem)) else
    let count := min blockCount len
    let data := fun i ↦ AesBlock.load fun j ↦ mem (inp + 16 * i + j)
    match (state.evp.initIv state.encryptedIv).encrypt aes
        (dataXored state.plaintextIv data) count with
    | .error e => ([.read inp (16 * count)], .error e)
    | .ok (evp, xored) =>
      let xored := dataXoredAgain state.plaintextIv data xored
      let (log, result) := encryptLoopLog ⟨evp, xored (count - 1), data (count - 1)⟩
        (memcpy mem out (16 * count) (rawArray xored)) (inp + 16 * count) (out + 16 * count)
        (len - count)
      (.read inp (16 * count) :: .write out (16 * count) :: log, result)
termination_by len
decreasing_by
  rw [blockCount]
  omega

/-- `encrypt`, with its accesses. -/
def encryptLog (state : AesIgeState) (mem : Memory) (src dst : Slice) :
    List Access × Except String (AesIgeState × Memory) :=
  if src.size % 16 ≠ 0 then ([], .error "CHECK(from.size() % AES_BLOCK_SIZE == 0)")
  else if dst.size < src.size then ([], .error "CHECK(to.size() >= from.size())")
  else encryptLoopLog aes state mem src.ptr dst.ptr (dst.size / 16)

/-- The loop of `decrypt`, with its accesses. -/
def decryptLoopLog (state : AesIgeState) (mem : Memory) (inp out : ℕ) :
    ℕ → List Access × Except String (AesIgeState × Memory)
  | 0 => ([], .ok (state, mem))
  | len + 1 =>
    let encrypted := AesBlock.load fun j ↦ mem (inp + j)
    match state.evp.decrypt aes (state.plaintextIv ^^^ encrypted) with
    | .error e => ([.read inp 16], .error e)
    | .ok plain =>
      let plain := plain ^^^ state.encryptedIv
      let (log, result) := decryptLoopLog ⟨state.evp, encrypted, plain⟩
        (memcpy mem out 16 (rawArray fun _ ↦ plain)) (inp + 16) (out + 16) len
      (.read inp 16 :: .write out 16 :: log, result)

/-- `decrypt`, with its accesses. -/
def decryptLog (state : AesIgeState) (mem : Memory) (src dst : Slice) :
    List Access × Except String (AesIgeState × Memory) :=
  if src.size % 16 ≠ 0 then ([], .error "CHECK(from.size() % AES_BLOCK_SIZE == 0)")
  else if dst.size < src.size then ([], .error "CHECK(to.size() >= from.size())")
  else decryptLoopLog aes state mem src.ptr dst.ptr (dst.size / 16)

/-! ## The same functions -/

variable {state : AesIgeState} {mem : Memory} {src dst : Slice} {k len : ℕ}

theorem encryptLoopLog_snd (state : AesIgeState) (mem : Memory) (inp out len : ℕ) :
    (encryptLoopLog aes state mem inp out len).2 = encryptLoop aes state mem inp out len := by
  induction len using Nat.strong_induction_on generalizing state mem inp out with
  | _ len ih =>
    rw [encryptLoopLog, encryptLoop]
    split_ifs with hlen
    · rfl
    · have hless : len - min blockCount len < len := by
        rw [blockCount]
        omega
      simp only
      cases (state.evp.initIv state.encryptedIv).encrypt aes
          (dataXored state.plaintextIv fun i ↦ .load fun j ↦ mem (inp + 16 * i + j))
          (min blockCount len) with
      | error e => rfl
      | ok r => exact ih _ hless _ _ _ _

theorem encryptLog_snd (state : AesIgeState) (mem : Memory) (src dst : Slice) :
    (encryptLog aes state mem src dst).2 = encrypt aes state mem src dst := by
  rw [encryptLog, encrypt]
  split_ifs
  · rfl
  · rfl
  · exact encryptLoopLog_snd aes _ _ _ _ _

theorem decryptLoopLog_snd (state : AesIgeState) (mem : Memory) (inp out len : ℕ) :
    (decryptLoopLog aes state mem inp out len).2 = decryptLoop aes state mem inp out len := by
  induction len generalizing state mem inp out with
  | zero => rfl
  | succ len ih =>
    rw [decryptLoopLog, decryptLoop]
    simp only
    cases state.evp.decrypt aes (state.plaintextIv ^^^ .load fun j ↦ mem (inp + j)) with
    | error e => rfl
    | ok plain => exact ih _ _ _ _

theorem decryptLog_snd (state : AesIgeState) (mem : Memory) (src dst : Slice) :
    (decryptLog aes state mem src dst).2 = decrypt aes state mem src dst := by
  rw [decryptLog, decrypt]
  split_ifs
  · rfl
  · rfl
  · exact decryptLoopLog_snd aes _ _ _ _ _

/-! ## Where the accesses are -/

/-- After `k` blocks, the blocks that are left are inside of the source. -/
theorem encryptLoopLog_inside (hcipher : state.evp.cipher = .encryptCbc) :
    (∀ a ∈ (encryptLoopLog aes state mem (src.ptr + 16 * k) (dst.ptr + 16 * k) len).1,
      a.Inside src dst) ↔ len = 0 ∨ 16 * (k + len) ≤ src.size := by
  induction len using Nat.strong_induction_on generalizing state mem k with
  | _ len ih =>
    rw [encryptLoopLog]
    split_ifs with hlen
    · simp [hlen]
    · obtain ⟨count, hcount⟩ : ∃ count, count = min blockCount len := ⟨_, rfl⟩
      have hpos : 0 < count ∧ count ≤ len := by
        rw [hcount, blockCount]
        omega
      have hrest (state : AesIgeState) (mem : Memory) (h : state.evp.cipher = .encryptCbc) :=
        @ih (len - count) (by omega) state mem (k + count) h
      simp only [Nat.mul_add, ← Nat.add_assoc] at hrest
      rw [← hcount]
      simp only [Evp.encrypt, Evp.initIv, hcipher, List.forall_mem_cons]
      rw [hrest _ _ rfl, Access.Inside, Access.Inside]
      omega

theorem encryptLog_inside_iff (hcipher : state.evp.cipher = .encryptCbc)
    (hblocks : src.size % 16 = 0) (hsize : src.size ≤ dst.size) :
    (∀ a ∈ (encryptLog aes state mem src dst).1, a.Inside src dst) ↔
      dst.size < src.size + 16 := by
  have hloop := @encryptLoopLog_inside aes state mem src dst 0 (dst.size / 16) hcipher
  rw [encryptLog, if_neg (not_not.mpr hblocks), if_neg (not_lt.mpr hsize)]
  rw [Nat.mul_zero, Nat.add_zero, Nat.add_zero] at hloop
  rw [hloop]
  omega

theorem decryptLoopLog_inside (hcipher : state.evp.cipher = .decryptEcb) :
    (∀ a ∈ (decryptLoopLog aes state mem (src.ptr + 16 * k) (dst.ptr + 16 * k) len).1,
      a.Inside src dst) ↔ len = 0 ∨ 16 * (k + len) ≤ src.size := by
  induction len generalizing state mem k with
  | zero => simp [decryptLoopLog]
  | succ len ih =>
    have hrest (encrypted plain : AesBlock) (mem : Memory) :=
      @ih ⟨state.evp, encrypted, plain⟩ mem (k + 1) hcipher
    simp only [Nat.mul_add, Nat.mul_one, ← Nat.add_assoc] at hrest
    rw [decryptLoopLog]
    simp only [Evp.decrypt, hcipher, List.forall_mem_cons]
    rw [hrest, Access.Inside, Access.Inside]
    omega

theorem decryptLog_inside_iff (hcipher : state.evp.cipher = .decryptEcb)
    (hblocks : src.size % 16 = 0) (hsize : src.size ≤ dst.size) :
    (∀ a ∈ (decryptLog aes state mem src dst).1, a.Inside src dst) ↔
      dst.size < src.size + 16 := by
  have hloop := @decryptLoopLog_inside aes state mem src dst 0 (dst.size / 16) hcipher
  rw [decryptLog, if_neg (not_not.mpr hblocks), if_neg (not_lt.mpr hsize)]
  rw [Nat.mul_zero, Nat.add_zero, Nat.add_zero] at hloop
  rw [hloop]
  omega

end AesIgeState

/-! ## Main result -/

section Main

variable {encryption decryption : AesIgeState} {mem : Memory} {src dst : Slice}

/-- Two slices that pass the checks are respected exactly if the destination has no whole block more
than the source: the number of blocks is that of the destination. -/
theorem accesses_inside_iff (hencryption : encryption.evp.cipher = .encryptCbc)
    (hdecryption : decryption.evp.cipher = .decryptEcb) (hblocks : src.size % 16 = 0)
    (hsize : src.size ≤ dst.size) :
    ((∀ a ∈ (encryption.encryptLog aes mem src dst).1, a.Inside src dst) ↔
      dst.size < src.size + 16) ∧
    ((∀ a ∈ (decryption.decryptLog aes mem src dst).1, a.Inside src dst) ↔
      dst.size < src.size + 16) :=
  ⟨AesIgeState.encryptLog_inside_iff aes hencryption hblocks hsize,
    AesIgeState.decryptLog_inside_iff aes hdecryption hblocks hsize⟩

end Main

/-- A state that was set up for a cipher. -/
def zeroState (cipher : Cipher) : AesIgeState := ⟨⟨cipher, List.replicate 32 0, 0⟩, ⟨0, 0⟩, ⟨0, 0⟩⟩

/-- 16 bytes to a destination of the same size. -/
theorem accesses_inside_same_size :
    (∀ a ∈ ((zeroState .encryptCbc).encryptLog (fun _ ↦ Equiv.refl Block) (fun _ ↦ 0) ⟨0, 16⟩
      ⟨64, 16⟩).1, a.Inside ⟨0, 16⟩ ⟨64, 16⟩) ∧
    ∀ a ∈ ((zeroState .decryptEcb).decryptLog (fun _ ↦ Equiv.refl Block) (fun _ ↦ 0) ⟨0, 16⟩
      ⟨64, 16⟩).1, a.Inside ⟨0, 16⟩ ⟨64, 16⟩ := by
  have h := @accesses_inside_iff (fun _ ↦ Equiv.refl Block) (zeroState .encryptCbc)
    (zeroState .decryptEcb) (fun _ ↦ 0) ⟨0, 16⟩ ⟨64, 16⟩ rfl rfl (by decide) (by decide)
  exact ⟨h.1.mpr (by decide), h.2.mpr (by decide)⟩

/-- 16 bytes to a destination of 32 bytes, where a block behind the source is read. -/
theorem accesses_not_inside :
    (¬ ∀ a ∈ ((zeroState .encryptCbc).encryptLog (fun _ ↦ Equiv.refl Block) (fun _ ↦ 0) ⟨0, 16⟩
      ⟨64, 32⟩).1, a.Inside ⟨0, 16⟩ ⟨64, 32⟩) ∧
    ¬ ∀ a ∈ ((zeroState .decryptEcb).decryptLog (fun _ ↦ Equiv.refl Block) (fun _ ↦ 0) ⟨0, 16⟩
      ⟨64, 32⟩).1, a.Inside ⟨0, 16⟩ ⟨64, 32⟩ := by
  constructor
  · rw [AesIgeState.encryptLog_inside_iff _ (by rfl) (by decide) (by decide)]
    decide
  · rw [AesIgeState.decryptLog_inside_iff _ (by rfl) (by decide) (by decide)]
    decide

end PxcCore.Crypto
