import PxcCore.Lib.ListUpdate

/-!
# Traces of runs

A system makes steps, each of which the outside sees as some events.  A specification says which
events may follow one another.
-/

namespace PxcCore.Lib

universe u

variable {σ τ ι ο α : Type u}

/-- What each step keeps is kept by a run. -/
theorem foldlM_invariant {step : σ → ι → Option σ} {P : σ → Prop}
    (hstep : ∀ {s i s'}, P s → step s i = some s' → P s') {is : List ι} {s s' : σ} (hs : P s)
    (h : is.foldlM step s = some s') : P s' := by
  induction is generalizing s with
  | nil => exact Option.some.inj h ▸ hs
  | cons i is ih =>
    rw [List.foldlM_cons] at h
    obtain ⟨s₁, hs₁, hrest⟩ := Option.bind_eq_some_iff.mp h
    exact ih (hstep hs hs₁) hrest

/-- What each step keeps is kept by a run, up to the step that stops it. -/
theorem foldlM_except {ε : Type u} {step : σ → ι → Except ε σ} {P : σ → Prop} {Q : ε → Prop}
    (hok : ∀ {s i s'}, P s → step s i = .ok s' → P s')
    (herror : ∀ {s i e}, P s → step s i = .error e → Q e) {is : List ι} {s : σ} (hs : P s) :
    (∀ s', is.foldlM step s = .ok s' → P s') ∧ ∀ e, is.foldlM step s = .error e → Q e := by
  induction is generalizing s with
  | nil => exact ⟨fun s' h ↦ Except.ok.inj h ▸ hs, nofun⟩
  | cons i is ih =>
    rw [List.foldlM_cons]
    cases hstep : step s i with
    | ok s₁ => exact ih (hok hs hstep)
    | error e => exact ⟨nofun, fun e' h ↦ Except.error.inj h ▸ herror hs hstep⟩

/-- If each step does what a function does to what one sees of the state, so does a run. -/
theorem foldlM_simulates {step : σ → ι → Option σ} {P : σ → Prop} {view : σ → τ} {spec : τ → ι → τ}
    (hstep : ∀ {s i s'}, P s → step s i = some s' → P s' ∧ view s' = spec (view s) i) {is : List ι}
    {s s' : σ} (hs : P s) (h : is.foldlM step s = some s') :
    P s' ∧ view s' = is.foldl spec (view s) := by
  induction is generalizing s with
  | nil => exact Option.some.inj h ▸ ⟨hs, rfl⟩
  | cons i is ih =>
    rw [List.foldlM_cons] at h
    obtain ⟨s₁, hs₁, hrest⟩ := Option.bind_eq_some_iff.mp h
    obtain ⟨hP, hview⟩ := hstep hs hs₁
    rw [List.foldl_cons, ← hview]
    exact ih hP hrest

/-- The steps one after another, with all the events. -/
def runTrace (step : σ → ι → Option (σ × List ο)) : List ι → σ → Option (σ × List ο)
  | [], s => some (s, [])
  | i :: is, s =>
    (step s i).bind fun (s, os) ↦ (runTrace step is s).map fun (s, os') ↦ (s, os ++ os')

theorem runTrace_cons {step : σ → ι → Option (σ × List ο)} {i : ι} {is : List ι} {s s' : σ}
    {os : List ο} : runTrace step (i :: is) s = some (s', os) ↔ ∃ s₁ os₁ os₂,
      step s i = some (s₁, os₁) ∧ runTrace step is s₁ = some (s', os₂) ∧ os = os₁ ++ os₂ := by
  simp only [runTrace, Option.bind_eq_some_iff, Option.map_eq_some_iff, Prod.exists, Prod.mk.injEq]
  constructor
  · rintro ⟨s₁, os₁, hstep, s₂, os₂, hrun, rfl, rfl⟩
    exact ⟨s₁, os₁, os₂, hstep, hrun, rfl⟩
  · rintro ⟨s₁, os₁, os₂, hstep, hrun, rfl⟩
    exact ⟨s₁, os₁, hstep, s', os₂, hrun, rfl, rfl⟩

/-- If the specification allows what the outside sees of one step, it allows what the outside sees
of a run. -/
theorem exists_of_runTrace {step : σ → ι → Option (σ × List ο)} {spec : τ → ο → Option τ}
    {R : σ → τ → Prop} (hstep : ∀ {s t i s' os}, R s t → step s i = some (s', os) →
      ∃ t', os.foldlM spec t = some t' ∧ R s' t') {is : List ι} {s s' : σ} {t : τ} {os : List ο}
    (hR : R s t) (h : runTrace step is s = some (s', os)) :
    ∃ t', os.foldlM spec t = some t' ∧ R s' t' := by
  induction is generalizing s t os with
  | nil =>
    obtain ⟨rfl, rfl⟩ := Prod.mk.inj (Option.some.inj h)
    exact ⟨t, rfl, hR⟩
  | cons i is ih =>
    obtain ⟨s₁, os₁, os₂, hs₁, hrun, rfl⟩ := runTrace_cons.mp h
    obtain ⟨t₁, hspec, hR₁⟩ := hstep hR hs₁
    obtain ⟨t₂, hspec₂, hR₂⟩ := ih hR₁ hrun
    refine ⟨t₂, ?_, hR₂⟩
    rw [List.foldlM_append, hspec]
    exact hspec₂

/-- What goes in comes out in the same order, up to what is left, if it does so for each event. -/
theorem foldlM_inOrder {spec : τ → ο → Option τ} {content : τ → List α}
    {put get : ο → Option α} {os : List ο} {t t' : τ}
    (hstep : ∀ o ∈ os, ∀ t t', spec t o = some t' →
      content t ++ (put o).toList = (get o).toList ++ content t')
    (h : os.foldlM spec t = some t') :
    content t ++ os.filterMap put = os.filterMap get ++ content t' := by
  induction os generalizing t with
  | nil =>
    obtain rfl := Option.some.inj h
    simp
  | cons o os ih =>
    rw [List.foldlM_cons] at h
    obtain ⟨t₁, ht₁, hrest⟩ := Option.bind_eq_some_iff.mp h
    have hone := hstep o List.mem_cons_self t t₁ ht₁
    have hmany := ih (fun o ho ↦ hstep o (List.mem_cons_of_mem _ ho)) hrest
    rw [filterMap_cons_eq, filterMap_cons_eq, ← List.append_assoc, hone, List.append_assoc, hmany,
      List.append_assoc]

end PxcCore.Lib
