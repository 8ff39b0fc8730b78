import Mathlib

/-!
# Modes of block ciphers

Modes that take one block after the other through a state. Infinite garble extension is made out
of cipher block chaining by two more exclusive ors.
-/

namespace PxcCore.Lib

/-! ## Chains -/

section Chains

variable {σ B : Type*} (step : σ → B → σ) (s : σ)

/-- The state after `n` blocks. -/
def chain (x : ℕ → B) : ℕ → σ
  | 0 => s
  | n + 1 => step (chain x n) (x n)

theorem chain_congr {x y : ℕ → B} {n : ℕ} (h : ∀ i < n, x i = y i) :
    chain step s x n = chain step s y n := by
  induction n with
  | zero => rfl
  | succ n ih =>
    rw [chain, chain, ih fun i hi ↦ h i (hi.trans n.lt_succ_self), h n n.lt_succ_self]

/-- The blocks after the first `n` start from the state that these lead to. -/
theorem chain_add (x : ℕ → B) (n m : ℕ) :
    chain step s x (n + m) = chain step (chain step s x n) (fun i ↦ x (n + i)) m := by
  induction m with
  | zero => rfl
  | succ m ih => rw [← add_assoc, chain, ih, chain]

end Chains

/-! ## Exclusive or -/

instance instXorOpForall {ι B : Type*} [XorOp B] : XorOp (ι → B) := ⟨fun x y i ↦ x i ^^^ y i⟩

instance instLawfulXorForall {ι B : Type*} [XorOp B] [Zero B] [LawfulXor B] :
    LawfulXor (ι → B) where
  xor_assoc x y z := funext fun i ↦ xor_assoc (x i) (y i) (z i)
  xor_self x := funext fun i ↦ LawfulXor.xor_self (x i)
  xor_zero x := funext fun i ↦ xor_zero (x i)
  xor_comm x y := funext fun i ↦ xor_comm (x i) (y i)

/-! ## Modes -/

section Modes

variable {B : Type*} [XorOp B]

/-- Cipher block chaining, whose state is the block of ciphertext before. -/
def cbcStep (encrypt : B → B) (iv plain : B) : B := encrypt (plain ^^^ iv)

/-- Infinite garble extension, whose state is the blocks of ciphertext and of plaintext before. -/
def igeEncryptStep (encrypt : B → B) (iv : B × B) (plain : B) : B × B :=
  (encrypt (plain ^^^ iv.1) ^^^ iv.2, plain)

/-- The inverse of infinite garble extension. -/
def igeDecryptStep (decrypt : B → B) (iv : B × B) (cipher : B) : B × B :=
  (cipher, decrypt (cipher ^^^ iv.2) ^^^ iv.1)

/-- The blocks that are chained, where each takes the mask off the block before. -/
def preXor (iv : B) (plain : ℕ → B) : ℕ → B
  | 0 => plain 0
  | 1 => iv ^^^ plain 1
  | i + 2 => plain i ^^^ plain (i + 2)

variable [Zero B] [LawfulXor B]

theorem igeDecryptStep_igeEncryptStep (e : Equiv.Perm B) (iv : B × B) (plain : B) :
    igeDecryptStep e.symm iv (igeEncryptStep e iv plain).1 = igeEncryptStep e iv plain := by
  rw [igeDecryptStep, igeEncryptStep, xor_cancel_right, Equiv.symm_apply_apply, xor_cancel_right]

/-- Decryption goes through the states of encryption. -/
theorem chain_igeDecrypt (e : Equiv.Perm B) (iv : B × B) (plain : ℕ → B) (n : ℕ) :
    chain (igeDecryptStep e.symm) iv
        (fun i ↦ (chain (igeEncryptStep e) iv plain (i + 1)).1) n =
      chain (igeEncryptStep e) iv plain n := by
  induction n with
  | zero => rfl
  | succ n ih =>
    rw [chain, ih]
    exact igeDecryptStep_igeEncryptStep e _ _

/-- Infinite garble extension out of cipher block chaining. -/
theorem chain_cbc_xor (encrypt : B → B) (iv : B × B) (plain : ℕ → B) (n : ℕ) :
    chain (cbcStep encrypt) iv.1 (preXor iv.2 plain) (n + 1) ^^^
        (chain (igeEncryptStep encrypt) iv plain n).2 =
      (chain (igeEncryptStep encrypt) iv plain (n + 1)).1 := by
  induction n with
  | zero => rfl
  | succ n ih =>
    have hinput : preXor iv.2 plain (n + 1) =
        (chain (igeEncryptStep encrypt) iv plain n).2 ^^^ plain (n + 1) := by
      cases n with
      | zero => rfl
      | succ n => rfl
    have hblock : preXor iv.2 plain (n + 1) ^^^
          chain (cbcStep encrypt) iv.1 (preXor iv.2 plain) (n + 1) =
        plain (n + 1) ^^^ (chain (igeEncryptStep encrypt) iv plain (n + 1)).1 := by
      rw [hinput, ← ih, xor_comm _ (plain (n + 1)), xor_assoc,
        xor_comm (chain (cbcStep encrypt) _ _ _)]
    rw [chain, cbcStep, hblock]
    rfl

end Modes

end PxcCore.Lib
