import PxcCore.Lib.LittleEndian
import PxcCore.Lib.Memory

/-!
# `Socks5`

`Socks5::handle_auth`: the answer to the greeting of a client.  A `char` is signed and an `int` has
four bytes, the lowest first.
-/

namespace PxcCore

open Lib

/-- The socket of a client as streams of bytes in both directions, the buffer of the caller and the
errors that are logged. -/
structure Socks5.Client where
  unread : List UInt8
  buf : Memory := fun _ ↦ 0
  sent : List UInt8 := []
  log : List String := []

/-- `Socks5`, with its map of sockets. -/
structure Socks5 where
  map : AList fun _ : Int32 ↦ Int32 := ∅

namespace Socks5

/-! ## Definitions -/

namespace Client

/-- `recv`, of what is available. -/
def recv (c : Client) (size : ℕ) : Client :=
  { c with unread := c.unread.drop size, buf := writeBytes c.buf 0 (c.unread.take size) }

/-- `send` -/
def send (c : Client) (bytes : List UInt8) : Client := { c with sent := c.sent ++ bytes }

/-- `VLOG(ERROR)` -/
def error (c : Client) (message : String) : Client := { c with log := c.log ++ [message] }

/-- A `char` of the buffer as an `int`. -/
def charAt (c : Client) (i : ℕ) : ℤ := (c.buf i).toInt8.toInt

end Client

/-- `handle_auth` -/
def handleAuth (s : Socks5) (nativeFd : Int32) (c : Client) : Client :=
  if nativeFd ∉ s.map then
    let c := c.recv 257
    let version := c.charAt 0
    let nMethods := c.charAt 1
    if version ≠ 0x05 then c.error "socks5 version must be version 5!"
    else if nMethods ≤ 0 then c.error "socks5 method length must bigger than 0!"
    else
      let c := c.recv (2 + nMethods).toNat
      let replay := leBytes 4 0x05 ++ leBytes 4 0x00
      c.send (replay.take 2)
  else c

/-- The greeting of a client: the version, the number of methods and the methods. -/
def greeting (n : UInt8) (methods : List UInt8) : List UInt8 := 0x05 :: n :: methods

/-- What a greeting should lead to: it is consumed and answered, and what follows it is not. -/
def Accepts (s : Socks5) (nativeFd : Int32) (c : Client) (rest : List UInt8) : Prop :=
  (s.handleAuth nativeFd c).unread = rest ∧
    (s.handleAuth nativeFd c).sent = c.sent ++ [0x05, 0x00]

instance instDecidableAccepts (s : Socks5) (nativeFd : Int32) (c : Client) (rest : List UInt8) :
    Decidable (s.Accepts nativeFd c rest) :=
  inferInstanceAs (Decidable (_ ∧ _))

/-! ## Greetings -/

variable {s : Socks5} {nativeFd : Int32} {c : Client} {n : UInt8} {methods rest : List UInt8}

/-- The first two bytes in the buffer are the first two that were received. -/
theorem buf_recv {a b : UInt8} {bytes : List UInt8} {size : ℕ}
    (hunread : c.unread = a :: b :: bytes) (hsize : 2 ≤ size) :
    (c.recv size).buf 0 = a ∧ (c.recv size).buf 1 = b := by
  obtain ⟨k, rfl⟩ := Nat.exists_eq_add_of_le' hsize
  simp only [Client.recv, hunread, List.take_succ_cons, writeBytes]
  constructor
  · rw [writeBytes_of_outside (.inl (by omega)), Function.update_of_ne (by omega),
      Function.update_self]
  · rw [writeBytes_of_outside (.inl (by omega)), Function.update_self]

/-- A byte as a `char`. -/
theorem toInt8_toInt (n : UInt8) :
    n.toInt8.toInt = if n ≤ 127 then (n.toNat : ℤ) else (n.toNat : ℤ) - 256 := by
  have hn : n ≤ 127 ↔ 2 * n.toNat < 2 ^ 8 := by
    rw [UInt8.le_iff_toNat_le]
    show n.toNat ≤ 127 ↔ _
    omega
  show n.toBitVec.toInt = _
  rw [BitVec.toInt_eq_toNat_cond]
  simp only [hn]
  rfl

theorem handleAuth_known (h : nativeFd ∈ s.map) : s.handleAuth nativeFd c = c :=
  if_neg (not_not.2 h)

/-- On a new socket the version is right, so the number of methods decides. -/
theorem handleAuth_new (hnew : nativeFd ∉ s.map) (hunread : c.unread = greeting n methods ++ rest) :
    s.handleAuth nativeFd c =
      if n.toInt8.toInt ≤ 0 then (c.recv 257).error "socks5 method length must bigger than 0!"
      else ((c.recv 257).recv (2 + n.toInt8.toInt).toNat).send [0x05, 0x00] := by
  obtain ⟨hversion, hmethods⟩ := buf_recv hunread (show 2 ≤ 257 by omega)
  rw [handleAuth, if_pos hnew]
  simp only [Client.charAt, hversion, hmethods]
  rw [if_neg (by decide)]
  rfl

/-- A number of methods that is negative as a `char`: nothing is answered. -/
theorem handleAuth_many (hnew : nativeFd ∉ s.map) (hunread : c.unread = greeting n methods ++ rest)
    (hn : ¬n ≤ 127) : (s.handleAuth nativeFd c).sent = c.sent := by
  have hlt := n.toNat_lt
  rw [handleAuth_new hnew hunread, toInt8_toInt, if_neg hn, if_pos (by omega)]
  rfl

/-- The greeting is received, and as much again. -/
theorem handleAuth_few (hnew : nativeFd ∉ s.map) (hunread : c.unread = greeting n methods ++ rest)
    (hpos : 1 ≤ n) (hn : n ≤ 127) :
    s.handleAuth nativeFd c = ((c.recv 257).recv (2 + n.toNat)).send [0x05, 0x00] := by
  have hpos : 1 ≤ n.toNat := UInt8.le_iff_toNat_le.1 hpos
  rw [handleAuth_new hnew hunread, toInt8_toInt, if_pos hn, if_neg (by omega)]
  rfl

theorem length_greeting (hmethods : methods.length = n.toNat) (rest : List UInt8) :
    (greeting n methods ++ rest).length = 2 + n.toNat + rest.length := by
  rw [List.length_append, greeting, List.length_cons, List.length_cons, hmethods]
  omega

/-- A greeting is handled as it should be when it comes alone, on a new socket and with a number of
methods that fits into a `char`. -/
theorem accepts_iff (s : Socks5) (nativeFd : Int32) (c : Client) (n : UInt8)
    (methods rest : List UInt8) (hpos : 1 ≤ n) (hmethods : methods.length = n.toNat)
    (hunread : c.unread = greeting n methods ++ rest) :
    s.Accepts nativeFd c rest ↔ nativeFd ∉ s.map ∧ n ≤ 127 ∧ rest = [] := by
  have hlength := length_greeting hmethods rest
  rw [← hunread] at hlength
  rw [Accepts]
  by_cases hnew : nativeFd ∈ s.map
  · rw [handleAuth_known hnew]
    refine iff_of_false (fun h ↦ ?_) fun h ↦ h.1 hnew
    rw [h.1] at hlength
    omega
  · by_cases hn : n ≤ 127
    · rw [handleAuth_few hnew hunread hpos hn]
      have hn' : n.toNat ≤ 127 := UInt8.le_iff_toNat_le.1 hn
      simp only [Client.send, Client.recv, List.drop_drop, hnew, hn, not_false_eq_true, true_and,
        and_true]
      -- More than the greeting has been taken, unless there is no more.
      constructor
      · intro h
        have := congrArg List.length h
        rw [List.length_drop] at this
        exact List.eq_nil_of_length_eq_zero (by omega)
      · rintro rfl
        rw [List.length_nil] at hlength
        exact List.drop_of_length_le (by omega)
    · rw [handleAuth_many hnew hunread hn]
      refine iff_of_false (fun h ↦ ?_) fun h ↦ hn h.2.1
      simpa using h.2

/-- A greeting with one method that comes alone. -/
theorem accepts_alone :
    ({} : Socks5).Accepts 3 { unread := [5, 1, 0] } [] ↔
      3 ∉ ({} : Socks5).map ∧ (1 : UInt8) ≤ 127 ∧ ([] : List UInt8) = [] :=
  accepts_iff {} 3 { unread := [5, 1, 0] } 1 [0] [] (by decide) rfl rfl

/-- The same greeting together with the request: the request is lost. -/
theorem not_accepts_with_request :
    ¬∀ (s : Socks5) (nativeFd : Int32) (c : Client) (n : UInt8) (methods rest : List UInt8),
      1 ≤ n → methods.length = n.toNat → c.unread = greeting n methods ++ rest →
        s.Accepts nativeFd c rest := by
  intro h
  have := h {} 3 { unread := [5, 1, 0, 5, 1, 0, 1] } 1 [0] [5, 1, 0, 1] (by decide) rfl rfl
  exact absurd this (by decide +kernel)

end Socks5

end PxcCore
