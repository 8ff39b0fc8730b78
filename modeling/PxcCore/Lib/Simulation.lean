import PxcCore.Lib.Result

/-!
# Simulation of a program by a specification

A program takes an input, and gives an output or stops with an error.  A specification says which
outputs an input may have and which inputs are allowed.
-/

namespace PxcCore.Lib

universe u

variable {σ τ ι ο ε : Type u}

/-- The program run on these inputs. -/
def runProgram (step : σ → ι → Except ε (ο × σ)) : List ι → σ → Except ε (List ο × σ)
  | [], s => return ([], s)
  | i :: is, s => do
    let (o, s) ← step s i
    let (os, s) ← runProgram step is s
    return (o :: os, s)

theorem runProgram_append {step : σ → ι → Except ε (ο × σ)} {is js : List ι} {os os' : List ο}
    {s s₁ s' : σ} (h : runProgram step is s = .ok (os, s₁))
    (h' : runProgram step js s₁ = .ok (os', s')) :
    runProgram step (is ++ js) s = .ok (os ++ os', s') := by
  induction is generalizing s os with
  | nil =>
    obtain ⟨rfl, rfl⟩ := Prod.mk.inj (Except.ok.inj h)
    exact h'
  | cons i is ih =>
    obtain ⟨⟨o, s₂⟩, hstep, hrest⟩ := bind_eq_ok.1 h
    obtain ⟨⟨os₂, s₃⟩, hrun, hret⟩ := bind_eq_ok.1 hrest
    obtain ⟨rfl, rfl⟩ := Prod.mk.inj (Except.ok.inj hret)
    simp [runProgram, hstep, ih hrun]

/-- The outputs are as many as the inputs. -/
theorem length_of_runProgram {step : σ → ι → Except ε (ο × σ)} {is : List ι} {os : List ο}
    {s s' : σ} (h : runProgram step is s = .ok (os, s')) : os.length = is.length := by
  induction is generalizing s os with
  | nil =>
    obtain ⟨rfl, rfl⟩ := Prod.mk.inj (Except.ok.inj h)
    rfl
  | cons i is ih =>
    obtain ⟨⟨o, s₂⟩, hstep, hrest⟩ := bind_eq_ok.1 h
    obtain ⟨⟨os₂, s₃⟩, hrun, hret⟩ := bind_eq_ok.1 hrest
    obtain ⟨rfl, rfl⟩ := Prod.mk.inj (Except.ok.inj hret)
    exact congrArg Nat.succ (ih hrun)

/-- Two programs that go in lockstep give the same outputs, and stop with the same error. -/
theorem runProgram_lockstep {step : σ → ι → Except ε (ο × σ)} {step' : τ → ι → Except ε (ο × τ)}
    {R : σ → τ → Prop}
    (hstep : ∀ {s t}, R s t → ∀ i,
      (∃ o s' t', step s i = .ok (o, s') ∧ step' t i = .ok (o, t') ∧ R s' t') ∨
        ∃ e, step s i = .error e ∧ step' t i = .error e) (is : List ι) {s : σ} {t : τ}
    (hR : R s t) :
    (runProgram step is s).map Prod.fst = (runProgram step' is t).map Prod.fst := by
  induction is generalizing s t with
  | nil => rfl
  | cons i is ih =>
    rcases hstep hR i with ⟨o, s', t', hs, ht, hR'⟩ | ⟨e, hs, ht⟩
    · have h := ih hR'
      simp only [runProgram, hs, ht, ok_bind]
      rcases hrun : runProgram step is s' with e | ⟨os, s''⟩ <;>
        rcases hrun' : runProgram step' is t' with e' | ⟨os', t''⟩ <;>
        rw [hrun, hrun'] at h <;> cases h <;> rfl
    · simp only [runProgram, hs, ht, error_bind]
      rfl

/-- The specification allows these inputs and outputs. -/
inductive Runs (spec : τ → ι → ο → τ → Prop) : τ → List (ι × ο) → τ → Prop where
  | nil (t : τ) : Runs spec t [] t
  | cons {t t' t'' : τ} {i : ι} {o : ο} {trace : List (ι × ο)} :
    spec t i o t' → Runs spec t' trace t'' → Runs spec t ((i, o) :: trace) t''

/-- A program is a specification of itself, for inputs that are always allowed. -/
theorem runs_of_runProgram {step : σ → ι → Except ε (ο × σ)} {allowed : σ → ι → Prop}
    {is : List ι} {os : List ο} {s s' : σ} (h : runProgram step is s = .ok (os, s'))
    (hallowed : ∀ i ∈ is, ∀ s, allowed s i) :
    Runs (fun s i o s' ↦ allowed s i ∧ step s i = .ok (o, s')) s (is.zip os) s' := by
  induction is generalizing s os with
  | nil =>
    obtain ⟨rfl, rfl⟩ := Prod.mk.inj (Except.ok.inj h)
    exact .nil s
  | cons i is ih =>
    obtain ⟨⟨o, s₂⟩, hstep, hrest⟩ := bind_eq_ok.1 h
    obtain ⟨⟨os₂, s₃⟩, hrun, hret⟩ := bind_eq_ok.1 hrest
    obtain ⟨rfl, rfl⟩ := Prod.mk.inj (Except.ok.inj hret)
    exact .cons ⟨hallowed i List.mem_cons_self s, hstep⟩
      (ih hrun fun j hj ↦ hallowed j (List.mem_cons_of_mem _ hj))

/-- What one step keeps is kept by a run. -/
theorem Runs.invariant {spec : τ → ι → ο → τ → Prop} {t t' : τ} {trace : List (ι × ο)}
    (h : Runs spec t trace t') {P : τ → Prop}
    (hstep : ∀ {t i o t'}, P t → spec t i o t' → P t') (ht : P t) : P t' := by
  induction h with
  | nil => exact ht
  | cons hspec _ ih => exact ih (hstep ht hspec)

/-- Each step of the program is one of the specification, or the input was not allowed. -/
structure Simulates (step : σ → ι → Except ε (ο × σ)) (spec : τ → ι → ο → τ → Prop)
    (allowed : τ → ι → Prop) (fault : ε → Prop) (R : σ → τ → Prop) : Prop where
  ok : ∀ {s t i o s'}, R s t → step s i = .ok (o, s') → ∃ t', spec t i o t' ∧ R s' t'
  error : ∀ {s t i e}, R s t → step s i = .error e → fault e ∧ ¬allowed t i

namespace Simulates

variable {step : σ → ι → Except ε (ο × σ)} {spec : τ → ι → ο → τ → Prop}
  {allowed : τ → ι → Prop} {fault : ε → Prop} {R : σ → τ → Prop}

/-- Every run of the program is one of the specification, up to its end or to the first input that
stops it, which is one that is not allowed. -/
theorem run (h : Simulates step spec allowed fault R) (is : List ι) :
    ∀ {s : σ} {t : τ}, R s t →
    (∃ os s' t', runProgram step is s = .ok (os, s') ∧ Runs spec t (is.zip os) t' ∧ R s' t') ∨
    (∃ e done i rest os t', runProgram step is s = .error e ∧ fault e ∧ is = done ++ i :: rest ∧
      Runs spec t (done.zip os) t' ∧ ¬allowed t' i) := by
  induction is with
  | nil =>
    intro s t hR
    exact .inl ⟨[], s, t, rfl, .nil t, hR⟩
  | cons i is ih =>
    intro s t hR
    rcases hstep : step s i with e | ⟨o, s₁⟩
    · obtain ⟨hfault, hallowed⟩ := h.error hR hstep
      exact .inr ⟨e, [], i, is, [], t, by simp [runProgram, hstep], hfault, rfl, .nil t, hallowed⟩
    · obtain ⟨t₁, hspec, hR₁⟩ := h.ok hR hstep
      rcases ih hR₁ with ⟨os, s', t', hrun, hruns, hR'⟩ | ⟨e, done, j, rest, os, t', hrun, hfault,
        rfl, hruns, hallowed⟩
      · exact .inl ⟨o :: os, s', t', by simp [runProgram, hstep, hrun], .cons hspec hruns, hR'⟩
      · exact .inr ⟨e, i :: done, j, rest, o :: os, t', by simp [runProgram, hstep, hrun], hfault,
          rfl, .cons hspec hruns, hallowed⟩

end Simulates

/-! ## Lists of related objects -/

section Objects

variable {α β : Type u} {R : α → β → Prop} {l : List α} {l' : List β}

/-- Either both lists have an object of this number, or none has. -/
theorem forall₂_lookup (h : List.Forall₂ R l l') (i : ℕ) :
    (∃ a b, l[i]? = some a ∧ l'[i]? = some b ∧ R a b) ∨ (l[i]? = none ∧ l'[i]? = none) := by
  induction h generalizing i with
  | nil => exact .inr ⟨rfl, rfl⟩
  | @cons a b l l' hab _ ih =>
    cases i with
    | zero => exact .inl ⟨a, b, rfl, rfl, hab⟩
    | succ i => exact ih i

theorem set_eq_self {i : ℕ} {a : α} (h : l[i]? = some a) : l.set i a = l := by
  obtain ⟨hlt, rfl⟩ := List.getElem?_eq_some_iff.mp h
  exact List.set_getElem_self hlt

theorem forall₂_set (h : List.Forall₂ R l l') (i : ℕ) {a : α} {b : β} (hab : R a b) :
    List.Forall₂ R (l.set i a) (l'.set i b) := by
  induction h generalizing i with
  | nil => exact .nil
  | cons hcd htail ih =>
    cases i with
    | zero => exact .cons hab htail
    | succ i => exact .cons hcd (ih i)

theorem forall₂_concat (h : List.Forall₂ R l l') {a : α} {b : β} (hab : R a b) :
    List.Forall₂ R (l ++ [a]) (l' ++ [b]) :=
  List.rel_append h (.cons hab .nil)

end Objects

end PxcCore.Lib
