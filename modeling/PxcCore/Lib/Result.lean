import Mathlib

/-!
# Running `Except` programs

The equations a proof needs to run a program that may stop with an error.
-/

namespace PxcCore.Lib

universe u v

variable {ε : Type u} {α β : Type v}

@[simp] theorem ok_bind (a : α) (f : α → Except ε β) : (Except.ok a >>= f) = f a := rfl

@[simp] theorem error_bind (e : ε) (f : α → Except ε β) :
    ((Except.error e : Except ε α) >>= f) = .error e := rfl

@[simp] theorem throw_bind (e : ε) (f : α → Except ε β) :
    ((throw e : Except ε α) >>= f) = .error e := rfl

@[simp] theorem ok_map (a : α) (f : α → β) : f <$> (Except.ok a : Except ε α) = .ok (f a) := rfl

@[simp] theorem error_map (e : ε) (f : α → β) :
    f <$> (Except.error e : Except ε α) = .error e := rfl

@[simp] theorem mapError_ok {ε' : Type u} (f : ε → ε') (a : α) :
    (Except.ok a : Except ε α).mapError f = .ok a := rfl

@[simp] theorem mapError_error {ε' : Type u} (f : ε → ε') (e : ε) :
    (Except.error e : Except ε α).mapError f = .error (f e) := rfl

@[simp] theorem pure_eq_ok (a : α) : (pure a : Except ε α) = .ok a := rfl

@[simp] theorem throw_eq_error (e : ε) : (throw e : Except ε α) = .error e := rfl

/-- A program that returns has returned from its first step. -/
theorem bind_eq_ok {x : Except ε α} {f : α → Except ε β} {b : β} :
    (x >>= f) = .ok b ↔ ∃ a, x = .ok a ∧ f a = .ok b := by
  cases x <;> simp

theorem exists_of_isOk {x : Except ε α} (h : x.isOk) : ∃ a, x = .ok a := by
  cases x with
  | error e => cases h
  | ok a => exact ⟨a, rfl⟩

/-- A counted loop keeps what each of its rounds keeps. -/
theorem foldlM_range_spec {P : ℕ → α → Prop} {body : α → ℕ → Except ε α} {n : ℕ} {a : α}
    (hstart : P 0 a)
    (hround : ∀ i < n, ∀ a, P i a → ∃ a', body a i = .ok a' ∧ P (i + 1) a') :
    ∃ a', (List.range n).foldlM body a = .ok a' ∧ P n a' := by
  induction n with
  | zero => exact ⟨a, rfl, hstart⟩
  | succ n ih =>
    obtain ⟨b, hrun, hb⟩ := ih fun i hi ↦ hround i (hi.trans n.lt_succ_self)
    obtain ⟨c, hlast, hc⟩ := hround n n.lt_succ_self b hb
    refine ⟨c, ?_, hc⟩
    rw [List.range_succ, List.foldlM_append, hrun, ok_bind, List.foldlM_cons, hlast]
    rfl

end PxcCore.Lib
