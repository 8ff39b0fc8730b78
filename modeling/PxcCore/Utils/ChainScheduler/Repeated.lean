import PxcCore.Utils.ChainScheduler.Runs

/-!
# Tasks of new chains

A task of chains that no other task has is handed out after those that are to be handed out
already, unless it has a chain twice: then it waits for itself.
-/

namespace PxcCore.ChainScheduler

open Lib

variable {ExtraT : Type} {s s' s₁ : ChainScheduler ExtraT} {client client' : Client}
  {todo : List TaskId} {t : TaskId} {task : Task ExtraT} {c : ChainId} {i n : ℕ}
  {info : ChainInfo} {chains : List ChainId} {extra : ExtraT}

/-- `start_next_task`, so many times. -/
def takeTasks : ℕ → ChainScheduler ExtraT → Except Fault (ChainScheduler ExtraT)
  | 0, s => .ok s
  | n + 1, s => do
    let (_, s) ← s.startNextTask
    takeTasks n s

/-- A task that is created with these chains is handed out after those that are to be handed out
already, and finishing it removes it and its chains, all without a fault. -/
def Served [Inhabited ExtraT] (s : ChainScheduler ExtraT) (chains : List ChainId)
    (extra : ExtraT) : Prop :=
  ∃ t s₁ s₂ parents s₃ s₄, s.createTask chains extra = .ok (t, s₁) ∧
    s₁.takeTasks s.pendingTasks.length = .ok s₂ ∧
    s₂.startNextTask = .ok (some ⟨t, parents⟩, s₃) ∧ s₃.finishTask t = .ok s₄ ∧
    s₄.task t = none ∧ ∀ c ∈ chains, s₄.chains c = none

/-! ## Taking tasks -/

theorem takeTasks_eq (h : Inv s client []) {xs ys : List TaskId}
    (hp : s.pendingTasks = xs ++ ys) : ∃ client', takeTasks xs.length s =
      .ok { s with pendingTasks := ys } ∧ Inv { s with pendingTasks := ys } client' [] := by
  induction xs generalizing s client with
  | nil =>
    rw [List.nil_append] at hp
    have heq : { s with pendingTasks := ys } = s := by rw [← hp]
    refine ⟨client, ?_, heq ▸ h⟩
    rw [heq]
    rfl
  | cons x xs ih =>
    obtain ⟨task, -, -, hok⟩ := startNextTask_eq h hp
    obtain ⟨client', hok', h'⟩ := ih (h.startNext hp) rfl
    refine ⟨client', ?_, h'⟩
    rw [List.length_cons, takeTasks, hok]
    exact hok'

theorem takeTasks_spec (h : Inv s client []) (hok : takeTasks n s = .ok s') :
    s'.task = s.task ∧ ∃ client', Inv s' client' [] := by
  induction n generalizing s client with
  | zero =>
    obtain rfl := Except.ok.inj hok
    exact ⟨rfl, client, h⟩
  | succ n ih =>
    rw [takeTasks] at hok
    cases hp : s.pendingTasks with
    | nil =>
      rw [startNextTask, hp] at hok
      exact ih h hok
    | cons t rest =>
      obtain ⟨task, -, -, hok'⟩ := startNextTask_eq h hp
      rw [hok'] at hok
      have hrest : takeTasks n { s with pendingTasks := rest } = .ok s' := hok
      have hspec := ih (h.startNext hp) hrest
      exact hspec

/-! ## Distinct chains -/

theorem forEachChild_nil {f : ChainScheduler ExtraT → TaskId → Except Fault (ChainScheduler ExtraT)}
    {chains : List (ChainId × ℕ)} (hc : ∀ p ∈ chains, ∃ info, s.chains p.1 = some info ∧
      info.getChild (t, p.2) = none) : chains.foldlM (forChild t f) s = .ok s := by
  induction chains with
  | nil => rfl
  | cons p chains ih =>
    obtain ⟨info, hinfo, hchild⟩ := hc p List.mem_cons_self
    rw [List.foldlM_cons, forChild, chainInfo_eq hinfo, ok_bind, hchild]
    exact ih fun q hq ↦ hc q (List.mem_cons_of_mem _ hq)

/-- A new chain of a task that has it once. -/
theorem Created.chain_eq (hcr : Created s s₁ t chains extra) (hn : chains.Nodup)
    (hi : chains[i]? = some c) (hnone : s.chains c = none) :
    s₁.chains c = some { chain := [⟨t, i, 0⟩] } := by
  rw [hcr.chains_of_mem (List.mem_of_getElem? hi), getChainInfo, hnone, Option.getD_none]
  have hnodes : newNodes t chains.zipIdx c = [⟨t, i, 0⟩] := by
    have hmem : ⟨t, i, 0⟩ ∈ newNodes t chains.zipIdx c := mem_newNodes.2 ⟨rfl, hi, rfl⟩
    have hall : ∀ m ∈ newNodes t chains.zipIdx c, m = ⟨t, i, 0⟩ := by
      intro m hm
      obtain ⟨htask, hix, hg⟩ := mem_newNodes.1 hm
      have hindex := index_unique hn hix hi
      rw [← htask, ← hindex, ← hg]
    have hlength := List.eq_replicate_of_mem hall
    have hnodup := nodup_newNodes t chains c
    rw [hlength, List.map_replicate, List.nodup_replicate] at hnodup
    rw [hlength]
    have hpos := List.length_pos_of_mem hmem
    rw [le_antisymm hnodup hpos]
    rfl
  rw [hnodes]
  rfl

/-- The new task is started at once. -/
theorem Created.tryStartTask_eq (hcr : Created s s₁ t chains extra) (hn : chains.Nodup)
    (hnone : ∀ c ∈ chains, s.chains c = none) : ∃ s', s₁.tryStartTask t = .ok s' ∧
      s'.pendingTasks = s.pendingTasks ++ [t] ∧ ∀ t' ≠ t, s'.task t' = s.task t' := by
  let task : Task ExtraT := { chains := chains, extra := extra }
  have ht : s₁.task t = some task := by
    rw [hcr.task, Function.update_self]
  have hchain {p : ChainId × ℕ} (hp : p ∈ chains.zipIdx) :
      s₁.chains p.1 = some { chain := [⟨t, p.2, 0⟩] } := by
    have hi := mem_zipIdx.1 hp
    exact hcr.chain_eq hn hi (hnone p.1 (List.mem_of_getElem? hi))
  have hparent (p : ChainId × ℕ) :
      ({ chain := [⟨t, p.2, 0⟩] } : ChainInfo).getParent (t, p.2) = none := by
    rw [ChainInfo.getParent]
    exact if_pos rfl
  have hready (p : ChainId × ℕ) : ({ chain := [⟨t, p.2, 0⟩] } : ChainInfo).Ready (t, p.2) := by
    intro parent hp
    rw [hparent p] at hp
    cases hp
  have hstart : s₁.checkChains t chains.zipIdx = .ok .start := by
    rcases checkChains_spec (t := t) fun p hp ↦ ⟨_, hchain hp⟩ with
      ⟨hok, -⟩ | ⟨-, c, i, info, hm, hc, hr⟩ | ⟨c, i, info, -, hm, hc, -, hten⟩
    · exact hok
    · rw [Option.some.inj (hc.symm.trans (hchain hm))] at hr
      exact absurd (hready (c, i)) hr
    · rw [Option.some.inj (hc.symm.trans (hchain hm))] at hten
      exact absurd hten (Nat.not_succ_le_zero 9)
  refine ⟨s₁.activate t task, ?_, ?_, fun t' ht' ↦ ?_⟩
  · rw [tryStartTask, tryStartTaskRec, getTask_eq hcr.wf ht, ok_bind, if_neg (not_not_intro rfl),
      hstart, ok_bind]
    refine forEachChild_nil fun p hp ↦ ?_
    have hi := mem_zipIdx.1 hp
    refine ⟨_, activate_chains hn hi (hchain hp), ?_⟩
    have hafter : after ChainNode.address (t, p.2) [(⟨t, p.2, 0⟩ : ChainNode)] = none := if_pos rfl
    rw [ChainInfo.getChild_congr (ChainInfo.map_address_start _ _), ChainInfo.getChild, hafter,
      Option.map_none]
  · rw [activate_eq]
    exact congrArg (· ++ [t]) hcr.pendingTasks
  · rw [activate_task hcr.wf ht, Function.update_of_ne ht', hcr.task, Function.update_of_ne ht']

variable [Inhabited ExtraT] {kind : Set (Op ExtraT)}

theorem Inv.served (h : Inv s client []) (h0 : 0 ∉ chains)
    (hfree : ∀ c ∈ chains, ∀ t, ¬s.BelongsTo t c) (hn : chains.Nodup) (hroom : s.Room)
    (extra : ExtraT) : s.Served chains extra := by
  have hnone : ∀ c ∈ chains, s.chains c = none := by
    intro c hc
    by_contra hne
    obtain ⟨t, ht⟩ := h.chains_ne_none.1 hne
    exact hfree c hc t ht
  obtain ⟨t, s₀, hcr, heq⟩ := createTask_eq h.wf h0 hroom extra
  obtain ⟨s₁, hok₁, hpending, hother⟩ := hcr.tryStartTask_eq hn hnone
  obtain ⟨s₁', new, hok₁', h₁, -⟩ := tryStartTask_spec (h.create hcr)
  obtain rfl := Except.ok.inj (hok₁.symm.trans hok₁')
  obtain ⟨client₂, hok₂, h₂⟩ := takeTasks_eq h₁ hpending
  obtain ⟨task, ht, -, hok₃⟩ := startNextTask_eq h₂ rfl
  have h₃ := h₂.startNext rfl
  have hm : t ∈ (client₂.start t).started := List.mem_append_right _ (List.mem_singleton_self t)
  obtain ⟨task', todo, s₄, s₅, new', hok₄, -, -, hch, h₅, hframe⟩ := finishTask_spec h₃ hm
  -- another task that is there at the end was there at the start
  have hkept {t' : TaskId} {task' : Task ExtraT} (ht' : s₅.task t' = some task') :
      t' ≠ t ∧ ∃ task₀, s.task t' = some task₀ ∧ task₀.chains = task'.chains := by
    have hchains := hframe.chains t'
    rw [ht', hch.task] at hchains
    have hne : t' ≠ t := by
      rintro rfl
      rw [Function.update_self] at hchains
      cases hchains
    rw [Function.update_of_ne hne] at hchains
    obtain ⟨task₀, ht₀, heq⟩ := Option.map_eq_some_iff.1 hchains.symm
    exact ⟨hne, task₀, (hother t' hne).symm.trans ht₀, heq⟩
  refine ⟨t, s₁, _, _, _, s₅, by rw [heq, hok₁, ok_map], hok₂, hok₃, hok₄, ?_, fun c hc ↦ ?_⟩
  · by_contra hne
    obtain ⟨task', ht'⟩ := Option.ne_none_iff_exists'.1 hne
    exact (hkept ht').1 rfl
  · by_contra hne
    obtain ⟨t', task', ht', hm'⟩ := h₅.chains_ne_none.1 hne
    obtain ⟨-, task₀, ht₀, heq⟩ := hkept ht'
    exact hfree c hc t' ⟨task₀, ht₀, heq ▸ hm'⟩

/-- A task of new chains is served if and only if the chains are pairwise distinct and there is
room for one more task. -/
theorem Reachable.served_iff (h : Reachable kind s client) (h0 : 0 ∉ chains)
    (hfree : ∀ c ∈ chains, ∀ t, ¬s.BelongsTo t c) (extra : ExtraT) :
    s.Served chains extra ↔ chains.Nodup ∧ s.Room := by
  have hinv := h.inv
  refine ⟨?_, fun hcond ↦ hinv.served h0 hfree hcond.1 hcond.2 extra⟩
  rintro ⟨t, s₁, s₂, parents, s₃, s₄, hok₁, hok₂, hok₃, -⟩
  have hroom : s.Room := by
    intro hempty
    by_contra hfull
    rw [createTask_full hinv.wf hempty hfull] at hok₁
    cases hok₁
  refine ⟨?_, hroom⟩
  obtain ⟨t', s₀, s₁', new, hok₁', hcr, h₁, hframe⟩ := createTask_spec hinv h0 hroom extra
  obtain ⟨rfl, rfl⟩ := Prod.mk.inj (Except.ok.inj (hok₁.symm.trans hok₁'))
  obtain ⟨htask, client₂, h₂⟩ := takeTasks_spec h₁ hok₂
  -- the task that has been handed out is active, and such a task has no chain twice
  cases hp : s₂.pendingTasks with
  | nil =>
    rw [startNextTask, hp] at hok₃
    cases hok₃
  | cons t' rest =>
    obtain ⟨task, ht, hactive, hok₃'⟩ := startNextTask_eq h₂ hp
    obtain ⟨hnext, -⟩ := Prod.mk.inj (Except.ok.inj (hok₃.symm.trans hok₃'))
    obtain rfl : t = t' := congrArg TaskWithParents.taskId (Option.some.inj hnext)
    have hchains := hframe.chains t
    rw [← htask, ht, hcr.task, Function.update_self] at hchains
    have heq : task.chains = chains := Option.some.inj hchains
    rw [← heq]
    exact h₂.chains_nodup ht (hactive ▸ State.noConfusion)

/-- A task of one new chain. -/
theorem served_one : ({} : ChainScheduler ℕ).Served [1] 7 := by
  have hinit : Reachable Set.univ ({} : ChainScheduler ℕ) {} := .init
  refine (hinit.served_iff (by decide) ?_ 7).2 ⟨by decide, ?_⟩
  · rintro c - t ⟨task, ht, -⟩
    cases ht
  · exact fun _ ↦ by decide

/-- A task that has one chain twice waits for itself: the first task of all is not handed out. -/
theorem repeated_waits :
    (∃ t s, ({} : ChainScheduler ℕ).createTask [1, 1] 7 = .ok (t, s) ∧
      s.startNextTask = .ok (none, s)) ∧ ¬({} : ChainScheduler ℕ).Served [1, 1] 7 := by
  have hcreate : ∃ t s, ({} : ChainScheduler ℕ).createTask [1, 1] 7 = .ok (t, s) ∧
      s.startNextTask = .ok (none, s) := ⟨_, _, rfl, rfl⟩
  refine ⟨hcreate, ?_⟩
  obtain ⟨t, s, hok, hnext⟩ := hcreate
  rintro ⟨t', s₁, s₂, parents, s₃, s₄, hok₁, hok₂, hok₃, -⟩
  obtain ⟨rfl, rfl⟩ := Prod.mk.inj (Except.ok.inj (hok₁.symm.trans hok))
  obtain rfl := Except.ok.inj hok₂
  rw [hnext] at hok₃
  cases hok₃

end PxcCore.ChainScheduler
