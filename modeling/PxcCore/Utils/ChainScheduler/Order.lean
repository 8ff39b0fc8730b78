import PxcCore.Utils.ChainScheduler.Runs

/-!
# The order in which tasks are handed out

Without resets, the tasks of a chain are handed out in the order in which they have been created,
each once, with the tasks before them that are not finished.
-/

namespace PxcCore.ChainScheduler

open Lib

variable {ExtraT : Type} {s s' s₁ : ChainScheduler ExtraT} {client client' : Client}
  {t : TaskId} {task : Task ExtraT} {c : ChainId} {i n : ℕ} {info : ChainInfo}
  {chains : List ChainId} {extra : ExtraT} {new : List TaskId}

/-! ## What the caller expects -/

/-- The chains of the `n`th task. -/
def Client.chainsOf (client : Client) (n : ℕ) : List ChainId := (client.created[n]?).getD []

/-- The `n`th task has this chain and is not finished. -/
def Client.Unfinished (client : Client) (c : ChainId) (n : ℕ) : Prop :=
  n ∉ client.finished ∧ c ∈ client.chainsOf n

instance decidableUnfinished (client : Client) (c : ChainId) (n : ℕ) :
    Decidable (client.Unfinished c n) := inferInstanceAs (Decidable (_ ∧ _))

/-- The task created most recently before the `n`th one in this chain that is not finished. -/
def Client.latestBefore (client : Client) (c : ChainId) : ℕ → Option ℕ
  | 0 => none
  | n + 1 => if client.Unfinished c n then some n else client.latestBefore c n

/-- In this list every task comes after the earlier ones that it shares a chain with. -/
def Client.InOrder (client : Client) (l : List ℕ) : Prop :=
  ∀ xs b ys, l = xs ++ b :: ys → ∀ a < b, ∀ c ∈ client.chainsOf a, c ∈ client.chainsOf b → a ∈ xs

theorem latestBefore_eq_none : client.latestBefore c n = none ↔
    ∀ k < n, ¬client.Unfinished c k := by
  induction n with
  | zero => exact iff_of_true rfl fun k hk ↦ absurd hk (Nat.not_lt_zero k)
  | succ n ih =>
    rw [Client.latestBefore]
    split_ifs with hn
    · exact iff_of_false not_false fun h ↦ h n (Nat.lt_succ_self n) hn
    · rw [ih]
      refine forall_congr' fun k ↦ ⟨fun h hk ↦ ?_, fun h hk ↦ h (Nat.lt_succ_of_lt hk)⟩
      rcases Nat.lt_succ_iff_lt_or_eq.1 hk with hk | rfl
      · exact h hk
      · exact hn

theorem latestBefore_eq_some {m : ℕ} (hm : m < n) (hu : client.Unfinished c m)
    (hlast : ∀ k, m < k → k < n → ¬client.Unfinished c k) : client.latestBefore c n = some m := by
  induction n with
  | zero => exact absurd hm (Nat.not_lt_zero m)
  | succ n ih =>
    rw [Client.latestBefore]
    rcases Nat.lt_succ_iff_lt_or_eq.1 hm with hm | rfl
    · rw [if_neg (hlast n hm (Nat.lt_succ_self n))]
      exact ih hm fun k hk hkn ↦ hlast k hk (Nat.lt_succ_of_lt hkn)
    · rw [if_pos hu]

/-! ## What the caller has seen -/

/-- What has happened in a run without resets. -/
structure History (s : ChainScheduler ExtraT) (client : Client) : Prop where
  live : ∀ n, (∃ t, s.task t ≠ none ∧ client.number t = n) ↔
    n < client.created.length ∧ n ∉ client.finished
  active : ∀ t, HasState s.task t .active → t ∈ s.pendingTasks ++ client.started
  started : ∀ t ∈ client.started, client.number t ∈ client.handed
  handed : ∀ n ∈ client.handed, n ∈ client.finished ∨ ∃ t ∈ client.started, client.number t = n
  lt : ∀ n ∈ client.handed, n < client.created.length
  finished : ∀ n ∈ client.finished, n ∈ client.handed
  nodup : client.handed.Nodup
  order : client.InOrder (client.handed ++ s.pendingTasks.map client.number)

/-- A list sorted by numbers has one element before another of greater number. -/
theorem pair_sublist_of_lt {number : TaskId → ℕ} {l : List TaskId} {t' t : TaskId}
    (hl : l.Pairwise fun t t' ↦ number t ≤ number t') (ht' : t' ∈ l) (ht : t ∈ l)
    (hlt : number t' < number t) : [t', t].Sublist l := by
  obtain ⟨xs, ys, rfl⟩ := List.append_of_mem ht
  rcases List.mem_append.1 ht' with hm | hm
  · exact (List.singleton_sublist.2 hm).append (List.singleton_sublist.2 List.mem_cons_self)
  · rcases List.mem_cons.1 hm with rfl | hm
    · exact absurd hlt (lt_irrefl _)
    · have hle := (List.pairwise_cons.1 (List.pairwise_append.1 hl).2.1).1 t' hm
      exact absurd hlt hle.not_gt

theorem History.init : History ({} : ChainScheduler ExtraT) {} where
  live n := by
    refine iff_of_false ?_ fun h ↦ Nat.not_lt_zero n h.1
    rintro ⟨t, ht, -⟩
    exact ht rfl
  active t hs := by cases hs
  started := List.forall_mem_nil _
  handed := List.forall_mem_nil _
  lt := List.forall_mem_nil _
  finished := List.forall_mem_nil _
  nodup := List.nodup_nil
  order xs b ys heq := absurd heq.symm (List.append_ne_nil_of_right_ne_nil _ (List.cons_ne_nil _ _))

namespace History

theorem ne_none_of_hasState {state : State} (hs : HasState s.task t state) : s.task t ≠ none := by
  obtain ⟨task, ht, -⟩ := hasState_iff.1 hs
  exact Option.ne_none_iff_exists'.2 ⟨task, ht⟩

/-- What has been started is known to the caller, or is to be handed out. -/
theorem mem_of_active (h : History s client) (hs : HasState s.task t .active) :
    client.number t ∈ client.handed ++ s.pendingTasks.map client.number := by
  rcases List.mem_append.1 (h.active t hs) with hm | hm
  · exact List.mem_append_right _ (List.mem_map_of_mem hm)
  · exact List.mem_append_left _ (h.started t hm)

/-- A task that is to be handed out has not been. -/
theorem number_notMem_handed (h : History s client) (hinv : Inv s client [])
    (hm : t ∈ s.pendingTasks) : client.number t ∉ client.handed := by
  intro hhanded
  have hlive := ne_none_of_hasState (hinv.started t (List.mem_append_left _ hm))
  rcases h.handed _ hhanded with hfin | ⟨t', ht', heq⟩
  · exact ((h.live _).1 ⟨t, hlive, rfl⟩).2 hfin
  · have hlive' := ne_none_of_hasState (hinv.started t' (List.mem_append_right _ ht'))
    rw [hinv.number hlive' hlive heq] at ht'
    exact (List.nodup_append.1 hinv.started_nodup).2.2 t hm t ht' rfl

theorem createTask (h : History s client) (hinv : Inv s client [])
    (hcr : Created s s₁ t chains extra) : History s₁ (client.create t chains) := by
  have hne {t' : TaskId} (ht' : s.task t' ≠ none) : t' ≠ t := by
    rintro rfl
    exact ht' hcr.fresh
  have hother {t' : TaskId} (ht' : t' ≠ t) : s₁.task t' = s.task t' := by
    rw [hcr.task, Function.update_of_ne ht']
  have hnum {t' : TaskId} (ht' : t' ≠ t) : (client.create t chains).number t' = client.number t' :=
    Function.update_of_ne ht' _ _
  have hlast : (client.create t chains).number t = client.created.length :=
    Function.update_self _ _ _
  have hstarted {t' : TaskId} (ht' : t' ∈ s.pendingTasks ++ client.started) : t' ≠ t :=
    hne (ne_none_of_hasState (hinv.started t' ht'))
  have hlength : (client.create t chains).created.length = client.created.length + 1 :=
    List.length_append
  constructor
  case live =>
    intro n
    rw [hlength]
    constructor
    · rintro ⟨t', ht', rfl⟩
      by_cases he : t' = t
      · rw [he, hlast]
        exact ⟨Nat.lt_succ_self _, fun hf ↦ lt_irrefl _ (h.lt _ (h.finished _ hf))⟩
      · rw [hnum he]
        rw [hother he] at ht'
        obtain ⟨hlt, hfin⟩ := (h.live _).1 ⟨t', ht', rfl⟩
        exact ⟨Nat.lt_succ_of_lt hlt, hfin⟩
    · rintro ⟨hlt, hfin⟩
      rcases Nat.lt_succ_iff_lt_or_eq.1 hlt with hlt | rfl
      · obtain ⟨t', ht', heq⟩ := (h.live n).2 ⟨hlt, hfin⟩
        exact ⟨t', by rwa [hother (hne ht')], by rwa [hnum (hne ht')]⟩
      · refine ⟨t, ?_, hlast⟩
        rw [hcr.task, Function.update_self]
        exact Option.some_ne_none _
  case active =>
    intro t' hs
    rw [hcr.pendingTasks]
    by_cases he : t' = t
    · rw [he, HasState, hcr.task, Function.update_self] at hs
      cases hs
    · rw [HasState, hother he] at hs
      exact h.active t' hs
  case started =>
    intro t' ht'
    rw [hnum (hstarted (List.mem_append_right _ ht'))]
    exact h.started t' ht'
  case handed =>
    intro n hn
    refine (h.handed n hn).imp_right ?_
    rintro ⟨t', ht', heq⟩
    exact ⟨t', ht', by rwa [hnum (hstarted (List.mem_append_right _ ht'))]⟩
  case lt =>
    intro n hn
    rw [hlength]
    exact Nat.lt_succ_of_lt (h.lt n hn)
  case finished => exact h.finished
  case nodup => exact h.nodup
  case order =>
    have hmap : s₁.pendingTasks.map (client.create t chains).number =
        s.pendingTasks.map client.number := by
      rw [hcr.pendingTasks]
      exact List.map_congr_left fun t' ht' ↦ hnum (hstarted (List.mem_append_left _ ht'))
    have hlt : ∀ n ∈ client.handed ++ s.pendingTasks.map client.number,
        n < client.created.length := by
      intro n hn
      rcases List.mem_append.1 hn with hn | hn
      · exact h.lt n hn
      · obtain ⟨t', ht', rfl⟩ := List.mem_map.1 hn
        exact hinv.number_lt (ne_none_of_hasState (hinv.started t' (List.mem_append_left _ ht')))
    have hchains {n : ℕ} (hn : n < client.created.length) :
        (client.create t chains).chainsOf n = client.chainsOf n := by
      rw [Client.chainsOf, Client.chainsOf, Client.create]
      dsimp only
      rw [List.getElem?_append_left hn]
    intro xs b ys heq a hab c hca hcb
    rw [hmap] at heq
    have hb := hlt b (heq ▸ List.mem_append_right _ List.mem_cons_self)
    rw [hchains (hab.trans hb)] at hca
    rw [hchains hb] at hcb
    exact h.order xs b ys heq a hab c hca hcb

theorem startNextTask (h : History s client) (hinv : Inv s client []) {rest : List TaskId}
    (hp : s.pendingTasks = t :: rest) :
    History { s with pendingTasks := rest } (client.start t) := by
  have hm : t ∈ s.pendingTasks := by
    rw [hp]
    exact List.mem_cons_self
  constructor
  case live => exact h.live
  case active =>
    intro t' hs
    have ht' := h.active t' hs
    rw [hp, List.cons_append, List.mem_cons] at ht'
    change t' ∈ rest ++ (client.started ++ [t])
    rw [← List.append_assoc, List.mem_append, List.mem_singleton]
    exact ht'.symm
  case started =>
    intro t' ht'
    rcases List.mem_append.1 ht' with ht' | ht'
    · exact List.mem_append_left _ (h.started t' ht')
    · rw [List.mem_singleton.1 ht']
      exact List.mem_append_right _ (List.mem_singleton_self _)
  case handed =>
    intro n hn
    rcases List.mem_append.1 hn with hn | hn
    · refine (h.handed n hn).imp_right ?_
      rintro ⟨t', ht', heq⟩
      exact ⟨t', List.mem_append_left _ ht', heq⟩
    · exact .inr ⟨t, List.mem_append_right _ (List.mem_singleton_self _),
        (List.mem_singleton.1 hn).symm⟩
  case lt =>
    intro n hn
    rcases List.mem_append.1 hn with hn | hn
    · exact h.lt n hn
    · rw [List.mem_singleton.1 hn]
      exact hinv.number_lt (ne_none_of_hasState (hinv.started t (List.mem_append_left _ hm)))
  case finished => exact fun n hn ↦ List.mem_append_left _ (h.finished n hn)
  case nodup =>
    refine List.nodup_append.2 ⟨h.nodup, List.nodup_singleton _, ?_⟩
    rintro a ha b hb rfl
    rw [List.mem_singleton.1 hb] at ha
    exact h.number_notMem_handed hinv hm ha
  case order =>
    have horder := h.order
    rw [hp, List.map_cons] at horder
    change client.InOrder ((client.handed ++ [client.number t]) ++ rest.map client.number)
    rwa [List.append_assoc]

theorem finishTask (h : History s client) (hinv : Inv s client []) (hm : t ∈ client.started)
    {todo : List TaskId} (hch : Changed s s₁ client.number t chains none todo) :
    History s₁ (client.finish t) := by
  have hlive := ne_none_of_hasState (hinv.started t (List.mem_append_right _ hm))
  have hself : s₁.task t = none := by
    rw [hch.task, Function.update_self]
  have hother {t' : TaskId} (ht' : t' ≠ t) : s₁.task t' = s.task t' := by
    rw [hch.task, Function.update_of_ne ht']
  have herase {t' : TaskId} : t' ∈ client.started.erase t ↔ t' ≠ t ∧ t' ∈ client.started :=
    (List.nodup_append.1 hinv.started_nodup).2.1.mem_erase_iff
  have hsome {t' : TaskId} (ht' : s₁.task t' ≠ none) : t' ≠ t := by
    rintro rfl
    exact ht' hself
  constructor
  case live =>
    intro n
    change _ ↔ n < client.created.length ∧ n ∉ client.finished ++ [client.number t]
    rw [List.mem_append, not_or, List.mem_singleton, ← and_assoc, ← h.live n]
    constructor
    · rintro ⟨t', ht', rfl⟩
      have hne := hsome ht'
      rw [hother hne] at ht'
      exact ⟨⟨t', ht', rfl⟩, fun heq ↦ hne (hinv.number ht' hlive heq)⟩
    · rintro ⟨⟨t', ht', rfl⟩, hne⟩
      refine ⟨t', ?_, rfl⟩
      rwa [hother fun he ↦ hne (congrArg _ he)]
  case active =>
    intro t' hs
    have hne := hsome (ne_none_of_hasState hs)
    rw [HasState, hother hne] at hs
    rw [hch.pendingTasks]
    rcases List.mem_append.1 (h.active t' hs) with ht' | ht'
    · exact List.mem_append_left _ ht'
    · exact List.mem_append_right _ (herase.2 ⟨hne, ht'⟩)
  case started => exact fun t' ht' ↦ h.started t' (herase.1 ht').2
  case handed =>
    intro n hn
    rcases h.handed n hn with hfin | ⟨t', ht', heq⟩
    · exact .inl (List.mem_append_left _ hfin)
    · by_cases he : t' = t
      · rw [← heq, he]
        exact .inl (List.mem_append_right _ (List.mem_singleton_self _))
      · exact .inr ⟨t', herase.2 ⟨he, ht'⟩, heq⟩
  case lt => exact h.lt
  case finished =>
    intro n hn
    rcases List.mem_append.1 hn with hn | hn
    · exact h.finished n hn
    · rw [List.mem_singleton.1 hn]
      exact h.started t hm
  case nodup => exact h.nodup
  case order =>
    rw [hch.pendingTasks]
    exact h.order

/-- Tasks that are started are started after the earlier ones that they share a chain with. -/
theorem frame (h : History s client) (hinv : Inv s' client []) (hframe : Frame s s' new) :
    History s' client := by
  have hlive (t' : TaskId) : s'.task t' ≠ none ↔ s.task t' ≠ none := by
    have hchains := hframe.chains t'
    rw [ne_eq, ne_eq, not_iff_not, ← Option.map_eq_none_iff (f := Task.chains), hchains,
      Option.map_eq_none_iff]
  have hbelongs {n : ℕ} {c : ChainId} {t' : TaskId} (ht' : s'.task t' ≠ none)
      (hn : client.number t' = n) (hc : c ∈ client.chainsOf n) : s'.BelongsTo t' c := by
    obtain ⟨task', ht'⟩ := Option.ne_none_iff_exists'.1 ht'
    rw [Client.chainsOf, ← hn, hinv.created ht', Option.getD_some] at hc
    exact ⟨task', ht', hc⟩
  constructor
  case live =>
    intro n
    rw [← h.live n]
    exact exists_congr fun t' ↦ and_congr_left fun _ ↦ hlive t'
  case active =>
    intro t' hs
    rw [hframe.pendingTasks]
    rcases (hframe.active t').1 hs with hs | hm
    · rcases List.mem_append.1 (h.active t' hs) with hm | hm
      · exact List.mem_append_left _ (List.mem_append_left _ hm)
      · exact List.mem_append_right _ hm
    · exact List.mem_append_left _ (List.mem_append_right _ hm)
  case started => exact h.started
  case handed => exact h.handed
  case lt => exact h.lt
  case finished => exact h.finished
  case nodup => exact h.nodup
  case order =>
    intro xs b ys heq a hab c hca hcb
    rw [hframe.pendingTasks, List.map_append, ← List.append_assoc] at heq
    -- a task that has been started now
    have hstart {zs : List ℕ} (hnew : new.map client.number = zs ++ b :: ys) :
        a ∈ client.handed ++ s.pendingTasks.map client.number ++ zs := by
      obtain ⟨us, vs, rfl, rfl, hvs⟩ := List.map_eq_append_iff.1 hnew
      obtain ⟨t, ws, rfl, rfl, -⟩ := List.map_eq_cons_iff.1 hvs
      have ht : s'.task t ≠ none := ne_none_of_hasState
        ((hframe.active t).2 (.inr (List.mem_append_right _ List.mem_cons_self)))
      have hlt := hab.trans (hinv.number_lt ht)
      by_cases hfin : a ∈ client.finished
      · exact List.mem_append_left _ (List.mem_append_left _ (h.finished a hfin))
      · obtain ⟨t', ht', rfl⟩ := (h.live a).2 ⟨hlt, hfin⟩
        have hbt := hbelongs ht rfl hcb
        have hbt' := hbelongs ((hlive t').2 ht') rfl hca
        obtain ⟨info, hc⟩ := Option.ne_none_iff_exists'.1 (hinv.chains_ne_none.2 ⟨t, hbt⟩)
        have hprecedes : info.Precedes t' t := pair_sublist_of_lt (hinv.sound hc).sorted
          ((hinv.belongsTo_iff hc).1 hbt') ((hinv.belongsTo_iff hc).1 hbt) hab
        rcases hframe.order rfl t' (hframe.precedes_of hc hprecedes) with hs | hm
        · exact List.mem_append_left _ (h.mem_of_active hs)
        · exact List.mem_append_right _ (List.mem_map_of_mem hm)
    rcases List.append_eq_append_iff.1 heq with ⟨zs, rfl, hnew⟩ | ⟨zs, hold, hrest⟩
    · exact hstart hnew
    · cases zs with
      | nil =>
        rw [List.append_nil] at hold
        rw [← hold, ← List.append_nil (_ ++ _)]
        exact hstart hrest.symm
      | cons z zs =>
        obtain ⟨rfl, -⟩ := List.cons.inj hrest
        exact h.order xs b zs hold a hab c hca hcb

end History

/-! ## Runs without resets -/

/-- The calls of a run without resets. -/
def Plain : Set (Op ExtraT) := {op | ∀ t, op ≠ .resetTask t ∧ op ≠ .pauseTask t}

section

variable [Inhabited ExtraT]

theorem Reachable.history (h : Reachable Plain s client) : History s client := by
  induction h with
  | init => exact .init
  | step hreach hkind hallows hstep ih =>
    obtain ⟨hdoes, hinv⟩ := step_does hreach.inv hallows hstep
    cases hdoes with
    | create hcr hframe => exact (ih.createTask hreach.inv hcr).frame hinv hframe
    | idle => exact ih
    | start hp => exact ih.startNextTask hreach.inv hp
    | finish hm _ _ hch hframe => exact (ih.finishTask hreach.inv hm hch).frame hinv hframe
    | reset => exact absurd rfl (hkind _).1
    | pause => exact absurd rfl (hkind _).2

end

/-! ## Parents -/

/-- An unfinished task that has a chain is there, with a node in the chain. -/
theorem History.unfinished_iff (h : History s client) (hinv : Inv s client [])
    (hc : s.chains c = some info) {m : ℕ} (hm : m < client.created.length) :
    client.Unfinished c m ↔ ∃ n ∈ info.chain, client.number n.taskId = m := by
  have hchains {t : TaskId} {task : Task ExtraT} (ht : s.task t = some task) :
      client.chainsOf (client.number t) = task.chains := by
    rw [Client.chainsOf, hinv.created ht, Option.getD_some]
  constructor
  · rintro ⟨hfin, hcm⟩
    obtain ⟨t, ht, rfl⟩ := (h.live m).2 ⟨hm, hfin⟩
    obtain ⟨task, ht⟩ := Option.ne_none_iff_exists'.1 ht
    rw [hchains ht] at hcm
    obtain ⟨n, hn, rfl⟩ := List.mem_map.1 ((hinv.belongsTo_iff hc).1 ⟨task, ht, hcm⟩)
    exact ⟨n, hn, rfl⟩
  · rintro ⟨n, hn, rfl⟩
    obtain ⟨task, ht, hi⟩ := (hinv.sound hc).node n hn
    refine ⟨((h.live _).1 ⟨n.taskId, Option.ne_none_iff_exists'.2 ⟨task, ht⟩, rfl⟩).2, ?_⟩
    rw [hchains ht]
    exact List.mem_of_getElem? hi

/-- The node before one of an active task is of the unfinished task of the chain that has been
created last before it. -/
theorem History.number_parent (h : History s client) (hinv : Inv s client [])
    (ht : s.task t = some task) (hn : task.chains.Nodup) (hi : task.chains[i]? = some c)
    (hc : s.chains c = some info) :
    (info.getParent (t, i)).map (fun n ↦ client.number n.taskId) =
      client.latestBefore c (client.number t) := by
  have hsound := hinv.sound hc
  have hlt := hinv.number_lt (Option.ne_none_iff_exists'.2 ⟨task, ht⟩)
  obtain ⟨info', hc', hm⟩ := hinv.mem ht hi
  obtain rfl := Option.some.inj (hc.symm.trans hc')
  obtain ⟨xs, n, ys, hl, ha, hxs⟩ := exists_append_of_mem_map hm
  have hsorted := hsound.sorted
  rw [hl, List.map_append, List.map_cons, show n.taskId = t from congrArg Prod.fst ha,
    List.pairwise_append] at hsorted
  -- an earlier task of the chain is one of those before
  have hbefore {m : ℕ} (hm : m < client.number t) (hu : client.Unfinished c m) :
      ∃ x ∈ xs, client.number x.taskId = m := by
    obtain ⟨x, hx, rfl⟩ := (h.unfinished_iff hinv hc (hm.trans hlt)).1 hu
    rw [hl] at hx
    rcases List.mem_append.1 hx with hx | hx
    · exact ⟨x, hx, rfl⟩
    · rcases List.mem_cons.1 hx with rfl | hx
      · rw [show x.taskId = t from congrArg Prod.fst ha] at hm
        exact absurd hm (lt_irrefl _)
      · have hle := (List.pairwise_cons.1 hsorted.2.1).1 _ (List.mem_map_of_mem hx)
        exact absurd hm hle.not_gt
  have hparent : info.getParent (t, i) = xs.getLast? := by
    rw [ChainInfo.getParent, hl, before_append ha hxs]
  cases hlast : xs.getLast? with
  | none =>
    rw [hparent, hlast, Option.map_none]
    refine (latestBefore_eq_none.2 fun k hk hu ↦ ?_).symm
    obtain ⟨x, hx, -⟩ := hbefore hk hu
    rw [List.getLast?_eq_none_iff.1 hlast] at hx
    exact List.not_mem_nil hx
  | some p =>
    rw [hlast] at hparent
    have hpt := hinv.number_parent_lt ht hn hi hc hparent
    rw [hparent, Option.map_some]
    obtain ⟨zs, rfl⟩ := List.getLast?_eq_some_iff.1 hlast
    have hp : p ∈ info.chain := by
      rw [hl]
      exact List.mem_append_left _ (List.mem_append_right _ (List.mem_singleton_self _))
    refine (latestBefore_eq_some hpt
      ((h.unfinished_iff hinv hc (hpt.trans hlt)).2 ⟨p, hp, rfl⟩) fun k hpk hk hu ↦ ?_).symm
    obtain ⟨x, hx, rfl⟩ := hbefore hk hu
    rcases List.mem_append.1 hx with hx | hx
    · rw [List.map_append, List.pairwise_append] at hsorted
      have hle := hsorted.1.2.2 _ (List.mem_map_of_mem hx) _ (List.mem_map_of_mem
        (List.mem_singleton_self p))
      exact absurd hpk hle.not_gt
    · rw [List.mem_singleton.1 hx] at hpk
      exact absurd hpk (lt_irrefl _)

theorem History.map_parentsOf (h : History s client) (hinv : Inv s client [])
    (ht : s.task t = some task) (hn : task.chains.Nodup) :
    (s.parentsOf t task.chains.zipIdx).map client.number =
      task.chains.filterMap fun c ↦ client.latestBefore c (client.number t) := by
  conv_rhs => rw [← map_fst_zipIdx task.chains, List.filterMap_map]
  rw [parentsOf, List.map_filterMap]
  refine List.filterMap_congr fun p hp ↦ ?_
  have hi := mem_zipIdx.1 hp
  obtain ⟨info, hc, -⟩ := hinv.mem ht hi
  rw [hc, Option.bind_some, Option.map_map]
  exact h.number_parent hinv ht hn hi hc

theorem Inv.parentsOf_live (h : Inv s client []) (ht : s.task t = some task) :
    ∀ parent ∈ s.parentsOf t task.chains.zipIdx, s.task parent ≠ none := by
  intro parent hp
  obtain ⟨⟨c, i⟩, hm, hb⟩ := List.mem_filterMap.1 hp
  obtain ⟨info, hc, hpar⟩ := Option.bind_eq_some_iff.1 hb
  obtain ⟨n, hn, rfl⟩ := Option.map_eq_some_iff.1 hpar
  obtain ⟨info', hc', hmem⟩ := h.mem ht (mem_zipIdx.1 hm)
  obtain rfl := Option.some.inj (hc.symm.trans hc')
  obtain ⟨task', ht', -⟩ := (h.sound hc).node n (ChainInfo.Sound.getParent_mem hmem hn)
  exact Option.ne_none_iff_exists'.2 ⟨task', ht'⟩

variable [Inhabited ExtraT]

/-- Without resets every task is handed out once at most and after the earlier ones that it shares
a chain with; and the next task can be handed out, with, chain by chain, the unfinished task that
has been created last before it. -/
theorem Reachable.handed_in_order (h : Reachable Plain s client) :
    client.handed.Nodup ∧ client.InOrder client.handed ∧
    ∃ next s', s.startNextTask = .ok (next, s') ∧ ∀ task, next = some task →
      (∀ parent ∈ task.parents, s.task parent ≠ none) ∧
      task.parents.map client.number = (client.chainsOf (client.number task.taskId)).filterMap
        fun c ↦ client.latestBefore c (client.number task.taskId) := by
  have hinv := h.inv
  have hhistory := h.history
  refine ⟨hhistory.nodup, fun xs b ys heq a hab c hca hcb ↦ ?_, ?_⟩
  · refine hhistory.order xs b (ys ++ s.pendingTasks.map client.number) ?_ a hab c hca hcb
    rw [heq, List.append_assoc, List.cons_append]
  · cases hp : s.pendingTasks with
    | nil =>
      refine ⟨none, s, by rw [startNextTask, hp], fun task heq ↦ ?_⟩
      cases heq
    | cons t rest =>
      obtain ⟨task, ht, hactive, hok⟩ := startNextTask_eq hinv hp
      refine ⟨_, _, hok, fun task' heq ↦ ?_⟩
      obtain rfl := Option.some.inj heq
      refine ⟨hinv.parentsOf_live ht, ?_⟩
      have hn := hinv.chains_nodup ht (hactive ▸ State.noConfusion)
      rw [hhistory.map_parentsOf hinv ht hn, Client.chainsOf, hinv.created ht, Option.getD_some]

/-- Two tasks of a chain: the first one is the parent of the second one. -/
theorem handed_in_order_two : ∃ (s : ChainScheduler ℕ) (client : Client),
    client.created = [[1, 2], [2]] ∧ client.handed = [0] ∧ client.finished = [] ∧
    ∃ task s', s.startNextTask = .ok (some task, s') ∧ task.parents.map client.number = [0] := by
  obtain ⟨s, client, hreach, hcreated, hhanded, hfinished, hnext⟩ :
      ∃ (s : ChainScheduler ℕ) (client : Client), Reachable Plain s client ∧
        client.created = [[1, 2], [2]] ∧ client.handed = [0] ∧ client.finished = [] ∧
        s.pendingTasks.map client.number = [1] := by
    refine ⟨_, _, .step (.step (.step .init ?_ ?_
      (rfl : step _ _ (.createTask [1, 2] 7) = .ok (_, _))) ?_ ?_
      (rfl : step _ _ (.createTask [2] 7) = .ok (_, _))) ?_ ?_
      (rfl : step _ _ .startNextTask = .ok (_, _)), rfl, rfl, rfl, rfl⟩
    · exact fun t ↦ ⟨by rintro ⟨⟩, by rintro ⟨⟩⟩
    · exact (by decide : (0 : ChainId) ∉ [1, 2])
    · exact fun t ↦ ⟨by rintro ⟨⟩, by rintro ⟨⟩⟩
    · exact (by decide : (0 : ChainId) ∉ [2])
    · exact fun t ↦ ⟨by rintro ⟨⟩, by rintro ⟨⟩⟩
    · trivial
  obtain ⟨t, rest, hp, hnumber, -⟩ := List.map_eq_cons_iff.1 hnext
  obtain ⟨-, -, next, s', hok, hparents⟩ := hreach.handed_in_order
  obtain ⟨task, ht, -, hok'⟩ := startNextTask_eq hreach.inv hp
  obtain ⟨rfl, rfl⟩ := Prod.mk.inj (Except.ok.inj (hok.symm.trans hok'))
  refine ⟨s, client, hcreated, hhanded, hfinished, _, _, hok, ?_⟩
  have hlatest : client.latestBefore 2 1 = some 0 := by
    refine latestBefore_eq_some Nat.one_pos ⟨?_, ?_⟩ fun k hk hk' ↦ ?_
    · rw [hfinished]
      exact List.not_mem_nil
    · rw [Client.chainsOf, hcreated]
      decide
    · exact absurd (Nat.lt_one_iff.1 hk') hk.ne'
  rw [(hparents _ rfl).2]
  dsimp only
  rw [hnumber, Client.chainsOf, hcreated]
  exact List.filterMap_cons_some hlatest

end PxcCore.ChainScheduler
