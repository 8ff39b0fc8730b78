import PxcCore.Utils.Tl.Helpers

/-!
# What `store` writes

The bytes of each object (`encode`), written for no storer in particular.  `TlStorerUnsafe` writes
them and `TlStorerCalcLength` counts them, so the buffer of `serialize` has the size it needs.
-/

namespace PxcCore.Tl

open Lib FlatHashTable

/-- The bytes of the elements of a container. -/
def encodeAll {α : Type} (f : ℕ → α → Option (List UInt8)) : ℕ → List α → Option (List UInt8)
  | _, [] => some []
  | i, x :: xs => (f i x).bind fun bytes ↦ (encodeAll f (i + 1) xs).map (bytes ++ ·)

/-- The bytes of an object, if it can be stored. -/
def encode : {k : Bool} → {α : Type} → TlType k α → (List ℕ → UInt32) → α → Option (List UInt8)
  | _, _, .bool, _, x => some (int32Bytes (if x then 1 else 0))
  | _, _, .int32, _, x => some (int32Bytes x)
  | _, _, .uint32, _, x => some (leBytes 4 x.toNat)
  | _, _, .int64, _, x => some (int64Bytes x)
  | _, _, .uint64, _, x => some (leBytes 8 x.toNat)
  | _, _, .enum _ signed, _, x => some (int32Bytes (enumToInt32 signed x))
  | _, _, .double, _, x => some (leBytes 8 x.toNat)
  | _, _, .string, _, x => if x.length < 2 ^ 32 then some (encodeString x) else none
  | _, _, .vector t, random, x =>
    if x.length < 2 ^ 31 then
      (encodeAll (fun i ↦ encode t fun way ↦ random (i :: way)) 0 x).map
        (int32Bytes (Int32.ofNat x.length) ++ ·)
    else none
  | _, _, .pair t u, random, x =>
    (encode t (fun way ↦ random (0 :: way)) x.1).bind fun bytes ↦
      (encode u (fun way ↦ random (1 :: way)) x.2).map (bytes ++ ·)
  | _, _, .variant _ ts, random, x =>
    match x with
    | none => some (int32Bytes (-1))
    | some ⟨i, value⟩ => (encode (ts i) random value).map (int32Bytes (Int32.ofNat i) ++ ·)
  | _, _, .uniquePtr t, random, x =>
    match x with
    | none => none
    | some value => encode t random value
  | _, _, .flatHashSet _ t, random, x =>
    if x.size < 2 ^ 31 then
      match x.elements (random []) with
      | .error _ => none
      | .ok nodes =>
        (encodeAll (fun i node ↦ encode t (fun way ↦ random (i :: way)) node.1) 0 nodes).map
          (int32Bytes (Int32.ofNat x.size) ++ ·)
    else none

/-- Either both storers store these bytes, or the writing one fails. -/
def Outcome (f : TlStorerUnsafe → Except Fault TlStorerUnsafe)
    (g : TlStorerCalcLength → Except Fault TlStorerCalcLength) : Option (List UInt8) → Prop
  | some bytes => Stores f g bytes
  | none => ∀ s s', f s ≠ .ok s'

section

variable {f f' : TlStorerUnsafe → Except Fault TlStorerUnsafe}
  {g g' : TlStorerCalcLength → Except Fault TlStorerCalcLength} {o o' : Option (List UInt8)}

theorem Outcome.bind (h : Outcome f g o) (h' : Outcome f' g' o') :
    Outcome (fun s ↦ f s >>= f') (fun s ↦ g s >>= g')
      (o.bind fun bytes ↦ o'.map (bytes ++ ·)) := by
  cases o with
  | none =>
    intro s s' hs
    obtain ⟨a, ha, -⟩ := bind_eq_ok.1 hs
    exact h s a ha
  | some bytes =>
    cases o' with
    | none =>
      intro s s' hs
      obtain ⟨a, -, ha⟩ := bind_eq_ok.1 hs
      exact h' a s' ha
    | some bytes' => exact Stores.bind h h'

/-- A fixed part in front. -/
theorem Outcome.cons {bytes : List UInt8} (h : Stores f g bytes) (h' : Outcome f' g' o') :
    Outcome (fun s ↦ f s >>= f') (fun s ↦ g s >>= g') (o'.map (bytes ++ ·)) :=
  Outcome.bind (o := some bytes) h h'

/-- A program that fails. -/
theorem Outcome.fail {e : Fault} (h : ∀ s, f s = .error e) : Outcome f g none := by
  intro s s' hs
  rw [h s] at hs
  cases hs

theorem int32Bytes_stores (x : Int32) :
    Stores (Storer.storeBinary (int32Bytes x)) (Storer.storeBinary (int32Bytes x))
      (int32Bytes x) :=
  .storeBinary (by rw [int32Bytes, length_leBytes])

theorem storeAll_outcome {α : Type} {f : ℕ → α → TlStorerUnsafe → Except Fault TlStorerUnsafe}
    {g : ℕ → α → TlStorerCalcLength → Except Fault TlStorerCalcLength}
    {o : ℕ → α → Option (List UInt8)} (h : ∀ i x, Outcome (f i x) (g i x) (o i x)) (i : ℕ)
    (xs : List α) : Outcome (storeAll f i xs) (storeAll g i xs) (encodeAll o i xs) := by
  induction xs generalizing i with
  | nil => exact Stores.nil
  | cons x xs ih => exact (h i x).bind (ih (i + 1))

end

/-- What both storers do with an object. -/
theorem store_outcome {k : Bool} {α : Type} (t : TlType k α) (random : List ℕ → UInt32) (x : α) :
    Outcome (store t random x) (store t random x) (encode t random x) := by
  induction t generalizing random with
  | bool => exact int32Bytes_stores _
  | int32 => exact int32Bytes_stores _
  | uint32 => exact Stores.storeBinary (by rw [length_leBytes])
  | int64 => exact Stores.storeBinary (by rw [int64Bytes, length_leBytes]; decide)
  | uint64 => exact Stores.storeBinary (by rw [length_leBytes]; decide)
  | enum w signed => exact int32Bytes_stores _
  | double => exact Stores.storeBinary (by rw [length_leBytes]; decide)
  | string =>
    rw [encode]
    split_ifs with h
    · exact Stores.storeString h
    · exact .fail (TlStorerUnsafe.storeString_fatal (not_lt.1 h))
  | vector t ih =>
    rw [encode]
    split_ifs with h
    · have hstore {S : Type} [Storer S] : store (S := S) (.vector t) random x = fun s ↦
          Storer.storeBinary (int32Bytes (Int32.ofNat x.length)) s >>=
            storeAll (fun i ↦ store t fun way ↦ random (i :: way)) 0 x := by
        funext s
        rw [store, narrowCast, if_pos h, ok_bind]
      rw [hstore, hstore]
      exact .cons (int32Bytes_stores _) (storeAll_outcome (fun i ↦ ih _) 0 x)
    · refine .fail (e := .check) fun s ↦ ?_
      rw [store, narrowCast, if_neg h, error_bind]
  | pair t u iht ihu => exact (iht _ x.1).bind (ihu _ x.2)
  | variant hn ts ih =>
    cases x with
    | none => exact int32Bytes_stores _
    | some value => exact .cons (int32Bytes_stores _) (ih _ _ _)
  | uniquePtr t ih =>
    cases x with
    | none => exact Outcome.fail fun s ↦ rfl
    | some value => exact ih _ value
  | flatHashSet T t ih =>
    rw [encode]
    split_ifs with h
    · have hstore {S : Type} [Storer S] : store (S := S) (.flatHashSet T t) random x = fun s ↦
          Storer.storeBinary (int32Bytes (Int32.ofNat x.size)) s >>= fun s ↦
            (x.elements (random [])).mapError .table >>= fun nodes ↦
              storeAll (fun i node ↦ store t (fun way ↦ random (i :: way)) node.1) 0 nodes s := by
        funext s
        rw [store, narrowCast, if_pos h, ok_bind]
      rw [hstore, hstore]
      cases hel : x.elements (random []) with
      | error f =>
        intro s s' hs
        obtain ⟨a, -, ha⟩ := bind_eq_ok.1 hs
        cases ha
      | ok nodes =>
        have hnodes := storeAll_outcome (fun i (node : _ × Unit) ↦
          ih (fun way ↦ random (i :: way)) node.1) 0 nodes
        exact .cons (int32Bytes_stores _) hnodes
    · refine .fail (e := .check) fun s ↦ ?_
      rw [store, narrowCast, if_neg h, error_bind]

/-! ## `serialize` -/

/-- An object whose bytes fit into memory is serialized to them. -/
theorem serialize_eq {k : Bool} {α : Type} (storage : StringStorage) (t : TlType k α)
    (random : List ℕ → UInt32) (x : α) {bytes : List UInt8}
    (h : Stores (store t random x) (store t random x) bytes) (hlen : bytes.length < 2 ^ 64) :
    serialize storage t random x = .ok bytes := by
  have hlength : (0 + UInt64.ofNat bytes.length).toNat = bytes.length := by
    rw [UInt64.zero_add]
    exact UInt64.toNat_ofNat_of_lt' hlen
  have hsize : storage.buffer bytes.length = .ok bytes.length := by
    rw [StringStorage.buffer]
    split_ifs with ha
    · refine if_neg fun hlarge ↦ ?_
      rw [storage.isAligned_of_large _ hlarge] at ha
      cases ha
    · rfl
  have hwrite : (TlStorerUnsafe.new bytes.length).write bytes =
      .ok ⟨bytes.length, bytes, le_rfl⟩ := dif_pos le_rfl
  rw [serialize, h.count, ok_bind]
  dsimp only
  rw [hlength, hsize, ok_bind, h.write, hwrite, ok_bind, if_neg (not_not.2 rfl)]
  rfl

/-- If an object can be stored into some buffer, then the length that `TlStorerCalcLength` computes
is the number of bytes that `TlStorerUnsafe` writes, a multiple of four, and `serialize` returns
these bytes: no write is out of bounds, and its last check holds. -/
theorem store_length {k : Bool} {α : Type} (t : TlType k α) (random : List ℕ → UInt32) (x : α)
    {size : UInt64} {s : TlStorerUnsafe}
    (h : store t random x (TlStorerUnsafe.new size.toNat) = .ok s) :
    ∃ calcLength : TlStorerCalcLength,
      store t random x ({} : TlStorerCalcLength) = .ok calcLength ∧
      calcLength.length.toNat = s.written.length ∧ 4 ∣ s.written.length ∧
      ∀ storage, serialize storage t random x = .ok s.written := by
  have hout := store_outcome t random x
  cases henc : encode t random x with
  | none =>
    rw [henc] at hout
    exact (hout _ _ h).elim
  | some bytes =>
    rw [henc] at hout
    change Stores _ _ bytes at hout
    have hs : s.written = bytes ∧ bytes.length ≤ size.toNat := by
      rw [hout.write, TlStorerUnsafe.write] at h
      split_ifs at h with hle
      cases h
      exact ⟨rfl, hle⟩
    have hlen : bytes.length < 2 ^ 64 := hs.2.trans_lt size.toNat_lt
    rw [hs.1]
    refine ⟨_, hout.count _, ?_, hout.aligned, fun storage ↦ ?_⟩
    · change (0 + UInt64.ofNat bytes.length).toNat = _
      rw [UInt64.zero_add]
      exact UInt64.toNat_ofNat_of_lt' hlen
    · exact serialize_eq storage t random x hout hlen

theorem store_length_pair :
    ∃ calcLength : TlStorerCalcLength,
      store (.pair .string .int32 : TlType true _) (fun _ ↦ 0) ([97, 98], 5)
        ({} : TlStorerCalcLength) = .ok calcLength ∧
      calcLength.length.toNat = 8 ∧ 4 ∣ 8 ∧
      ∀ storage, serialize storage (.pair .string .int32 : TlType true _) (fun _ ↦ 0)
        ([97, 98], 5) = .ok [2, 97, 98, 0, 5, 0, 0, 0] := by
  have h : store (.pair .string .int32 : TlType true _) (fun _ ↦ 0) ([97, 98], 5)
      (TlStorerUnsafe.new (16 : UInt64).toNat) =
        .ok ⟨16, [2, 97, 98, 0, 5, 0, 0, 0], by decide⟩ := rfl
  exact store_length _ _ _ h

end PxcCore.Tl
