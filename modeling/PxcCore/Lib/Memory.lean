import Mathlib

/-!
# Bytes at addresses

Memory as a function from addresses to bytes, and the strings of bytes that lie in it.
-/

namespace PxcCore.Lib

/-- A byte for every address. -/
abbrev Memory := ℕ → UInt8

/-- A piece of memory: a pointer and a length. -/
structure Span where
  start : ℕ
  size : ℕ
deriving DecidableEq, Repr

/-- The address behind the last byte. -/
def Span.stop (s : Span) : ℕ := s.start + s.size

/-- The `n` bytes from an address on. -/
def readBytes (m : Memory) (a : ℕ) : ℕ → List UInt8
  | 0 => []
  | n + 1 => m a :: readBytes m (a + 1) n

/-- The bytes of a piece of memory. -/
def Span.bytes (s : Span) (m : Memory) : List UInt8 := readBytes m s.start s.size

/-- Memory after a string is written from an address on. -/
def writeBytes (m : Memory) (a : ℕ) : List UInt8 → Memory
  | [] => m
  | b :: bytes => writeBytes (Function.update m a b) (a + 1) bytes

/-- A string that starts at address 0, and zeros behind it. -/
def Memory.ofList (bytes : List UInt8) : Memory := fun a ↦ bytes.getD a 0

variable {m m' : Memory} {a n : ℕ} {bytes : List UInt8}

/-! ## Reading -/

@[simp] theorem length_readBytes (m : Memory) (a n : ℕ) : (readBytes m a n).length = n := by
  induction n generalizing a with
  | zero => rfl
  | succ n ih => rw [readBytes, List.length_cons, ih]

theorem readBytes_add (m : Memory) (a j k : ℕ) :
    readBytes m a (j + k) = readBytes m a j ++ readBytes m (a + j) k := by
  induction j generalizing a with
  | zero => rw [Nat.zero_add, readBytes, List.nil_append, Nat.add_zero]
  | succ j ih =>
    rw [Nat.succ_add, readBytes, readBytes, ih, List.cons_append, Nat.add_assoc, Nat.add_comm 1 j]

/-- Only the bytes that are read matter. -/
theorem readBytes_congr (h : ∀ x, a ≤ x → x < a + n → m x = m' x) :
    readBytes m a n = readBytes m' a n := by
  induction n generalizing a with
  | zero => rfl
  | succ n ih =>
    rw [readBytes, readBytes, h a le_rfl (Nat.lt_add_of_pos_right n.succ_pos)]
    rw [ih fun x hx hlt ↦ h x (Nat.le_of_succ_le hx) (by omega)]

theorem drop_readBytes (m : Memory) (a : ℕ) {k n : ℕ} (h : k ≤ n) :
    (readBytes m a n).drop k = readBytes m (a + k) (n - k) := by
  obtain ⟨j, rfl⟩ := Nat.exists_eq_add_of_le h
  rw [readBytes_add, List.drop_append_of_le_length (length_readBytes m a k).ge,
    List.drop_of_length_le (length_readBytes m a k).le, List.nil_append, Nat.add_sub_cancel_left]

theorem take_readBytes (m : Memory) (a : ℕ) {k n : ℕ} (h : k ≤ n) :
    (readBytes m a n).take k = readBytes m a k := by
  obtain ⟨j, rfl⟩ := Nat.exists_eq_add_of_le h
  rw [readBytes_add, List.take_left' (length_readBytes m a k)]

/-! ## Writing -/

/-- Nothing changes outside the bytes that are written. -/
theorem writeBytes_of_outside {x : ℕ} (h : x < a ∨ a + bytes.length ≤ x) :
    writeBytes m a bytes x = m x := by
  induction bytes generalizing m a with
  | nil => rfl
  | cons b bytes ih =>
    rw [List.length_cons] at h
    rw [writeBytes, ih (by omega), Function.update_of_ne (by omega)]

/-- What was written is read. -/
theorem readBytes_writeBytes (m : Memory) (a : ℕ) (bytes : List UInt8) :
    readBytes (writeBytes m a bytes) a bytes.length = bytes := by
  induction bytes generalizing m a with
  | nil => rfl
  | cons b bytes ih =>
    rw [List.length_cons, readBytes, writeBytes, ih,
      writeBytes_of_outside (.inl (Nat.lt_succ_self a)), Function.update_self]

/-- A write does not change what is read elsewhere. -/
theorem readBytes_writeBytes_of_disjoint {d : ℕ} (h : d + bytes.length ≤ a ∨ a + n ≤ d) :
    readBytes (writeBytes m d bytes) a n = readBytes m a n :=
  readBytes_congr fun x hx hlt ↦ writeBytes_of_outside (by omega)

/-- A string can be read where it was put. -/
theorem readBytes_ofList (pre mid post : List UInt8) :
    readBytes (Memory.ofList (pre ++ mid ++ post)) pre.length mid.length = mid := by
  induction mid generalizing pre with
  | nil => rfl
  | cons b mid ih =>
    have hrest := ih (pre ++ [b])
    rw [List.append_assoc pre [b], List.singleton_append, List.length_append,
      List.length_singleton] at hrest
    rw [List.length_cons, readBytes, hrest, Memory.ofList, List.append_assoc,
      List.getD_append_right _ _ _ _ le_rfl, Nat.sub_self]
    rfl

end PxcCore.Lib
