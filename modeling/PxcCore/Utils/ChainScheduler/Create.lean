import PxcCore.Utils.ChainScheduler.Start

/-!
# Creating tasks

`create_task` puts the nodes of a new task at the ends of its chains, and tries it.
-/

namespace PxcCore.ChainScheduler

open Lib

variable {ExtraT : Type} {s s' : ChainScheduler ExtraT} {client : Client} {todo : List TaskId}
  {t : TaskId} {task : Task ExtraT} {c : ChainId} {i : ℕ} {info : ChainInfo}
  {chains : List ChainId}

/-! ## The loops -/

/-- The chains when these have been made. -/
def registered (s : ChainScheduler ExtraT) (chains : List ChainId) (c : ChainId) :
    Option ChainInfo :=
  if c ∈ chains then some (s.getChainInfo c) else s.chains c

theorem registerChains_eq (h0 : 0 ∉ chains) (s : ChainScheduler ExtraT) :
    chains.foldlM registerChain s = .ok { s with chains := s.registered chains } := by
  induction chains generalizing s with
  | nil =>
    refine congrArg Except.ok (congrArg (fun f ↦ { s with chains := f }) (funext fun c ↦ ?_))
    exact (if_neg List.not_mem_nil).symm
  | cons c₀ chains ih =>
    rw [List.mem_cons, not_or] at h0
    rw [List.foldlM_cons, registerChain, if_neg (Ne.symm h0.1), ok_bind, ih h0.2]
    refine congrArg Except.ok (congrArg (fun f ↦ { s with chains := f }) (funext fun c ↦ ?_))
    rw [registered, registered]
    by_cases hc : c = c₀
    · have hself : (s.setChain c₀ (s.getChainInfo c₀)).chains c = some (s.getChainInfo c) := by
        rw [hc]
        exact Function.update_self _ _ _
      have hmem : c ∈ c₀ :: chains := hc ▸ List.mem_cons_self
      rw [if_pos hmem, hself, getChainInfo, hself, Option.getD_some, ite_self]
    · have hother : (s.setChain c₀ (s.getChainInfo c₀)).chains c = s.chains c :=
        Function.update_of_ne hc _ _
      rw [getChainInfo, hother, ← getChainInfo]
      simp only [List.mem_cons, hc, false_or]

/-- The nodes of a new task in a chain. -/
def newNodes (t : TaskId) (chains : List (ChainId × ℕ)) (c : ChainId) : List ChainNode :=
  (chains.filter fun p ↦ p.1 = c).map fun p ↦ ⟨t, p.2, 0⟩

theorem newNodes_cons_self (chains : List (ChainId × ℕ)) :
    newNodes t ((c, i) :: chains) c = ⟨t, i, 0⟩ :: newNodes t chains c := by
  rw [newNodes, List.filter_cons_of_pos (by simp), List.map_cons]
  rfl

theorem newNodes_cons_of_ne {c' : ChainId} (hne : c' ≠ c) (chains : List (ChainId × ℕ)) :
    newNodes t ((c', i) :: chains) c = newNodes t chains c := by
  rw [newNodes, List.filter_cons_of_neg (by simpa using hne)]
  rfl

/-- The chain with the nodes of a new task. -/
def ChainInfo.addNodes (info : ChainInfo) (nodes : List ChainNode) : ChainInfo :=
  { info with chain := info.chain ++ nodes }

/-- The chains when the nodes of a new task have been added. -/
def added (s : ChainScheduler ExtraT) (t : TaskId) (chains : List (ChainId × ℕ)) (c : ChainId) :
    Option ChainInfo :=
  (s.chains c).map fun info ↦ info.addNodes (newNodes t chains c)

theorem addToChains_eq {chains : List (ChainId × ℕ)}
    (hc : ∀ p ∈ chains, ∃ info, s.chains p.1 = some info) :
    chains.foldlM (addToChain t) s = .ok { s with chains := s.added t chains } := by
  induction chains generalizing s with
  | nil =>
    refine congrArg Except.ok (congrArg (fun f ↦ { s with chains := f }) (funext fun c ↦ ?_))
    rw [added]
    cases s.chains c with
    | none => rfl
    | some info =>
      rw [newNodes, List.filter_nil, List.map_nil, Option.map_some, ChainInfo.addNodes,
        List.append_nil]
  | cons p chains ih =>
    obtain ⟨c₀, i⟩ := p
    obtain ⟨info₀, hinfo₀⟩ := hc (c₀, i) List.mem_cons_self
    have hother {c : ChainId} (hne : c ≠ c₀) {info : ChainInfo} :
        (s.setChain c₀ info).chains c = s.chains c := Function.update_of_ne hne _ _
    have hself {info : ChainInfo} : (s.setChain c₀ info).chains c₀ = some info :=
      Function.update_self _ _ _
    rw [List.foldlM_cons, addToChain, chainInfo_eq hinfo₀, ok_bind, pure_eq_ok, ok_bind, ih]
    · refine congrArg Except.ok (congrArg (fun f ↦ { s with chains := f }) (funext fun c ↦ ?_))
      rw [added, added]
      by_cases hne : c = c₀
      · subst hne
        rw [hself, hinfo₀, Option.map_some, Option.map_some, newNodes_cons_self,
          ChainInfo.addTask, ChainInfo.addNodes, ChainInfo.addNodes, List.append_assoc,
          List.singleton_append]
      · rw [hother hne, newNodes_cons_of_ne (Ne.symm hne)]
    · intro q hq
      by_cases hne : q.1 = c₀
      · rw [hne, hself]
        exact ⟨_, rfl⟩
      · rw [hother hne]
        exact hc q (List.mem_cons_of_mem _ hq)

theorem mem_newNodes {n : ChainNode} : n ∈ newNodes t chains.zipIdx c ↔
    n.taskId = t ∧ chains[n.index]? = some c ∧ n.generation = 0 := by
  rw [newNodes, List.mem_map]
  constructor
  · rintro ⟨⟨c', i⟩, hm, rfl⟩
    obtain ⟨hm, hc⟩ := List.mem_filter.1 hm
    exact ⟨rfl, of_decide_eq_true hc ▸ mem_zipIdx.1 hm, rfl⟩
  · rintro ⟨rfl, hi, hg⟩
    refine ⟨(c, n.index), List.mem_filter.2 ⟨mem_zipIdx.2 hi, decide_eq_true rfl⟩, ?_⟩
    rw [← hg]

theorem nodup_newNodes (t : TaskId) (chains : List ChainId) (c : ChainId) :
    ((newNodes t chains.zipIdx c).map ChainNode.address).Nodup := by
  have hnodup : (chains.zipIdx.map Prod.snd).Nodup := by
    rw [List.zipIdx_map_snd]
    exact List.nodup_range'
  rw [newNodes, List.map_map]
  refine ((List.Nodup.of_map _ hnodup).filter _).map_on ?_
  intro p hp q hq heq
  have hsnd : p.2 = q.2 := (Prod.mk.inj (heq : ((t, p.2) : TaskId × ℕ) = (t, q.2))).2
  exact List.inj_on_of_nodup_map hnodup (List.mem_filter.1 hp).1 (List.mem_filter.1 hq).1 hsnd

theorem newNodes_of_notMem (hc : c ∉ chains) : newNodes t chains.zipIdx c = [] := by
  rw [List.eq_nil_iff_forall_not_mem]
  intro n hn
  exact hc (List.mem_iff_getElem?.2 ⟨n.index, (mem_newNodes.1 hn).2.1⟩)

/-! ## The new task -/

/-- There is a task more, which is to be tried. -/
structure Created (s s' : ChainScheduler ExtraT) (t : TaskId) (chains : List ChainId)
    (extra : ExtraT) : Prop where
  wf : s'.tasks.Wf
  toStart : s'.toStart = s.toStart
  pendingTasks : s'.pendingTasks = s.pendingTasks
  limitedTasks : s'.limitedTasks = s.limitedTasks
  fresh : s.task t = none
  task : s'.task = Function.update s.task t (some { chains := chains, extra := extra })
  chains_of_mem : ∀ {c}, c ∈ chains →
    s'.chains c = some ((s.getChainInfo c).addNodes (newNodes t chains.zipIdx c))
  chains_of_notMem : ∀ {c}, c ∉ chains → s'.chains c = s.chains c

/-- A chain with the nodes of a new task at its end. -/
theorem ChainInfo.Sound.addNodes {tasks : TaskId → Option (Task ExtraT)} {number : TaskId → ℕ}
    {n : ℕ} (h : info.Sound tasks number c) (ht : tasks t = none) (htask : task.chains = chains)
    (hp : task.state = .pending) (hlt : ∀ t', tasks t' ≠ none → number t' < n) :
    (info.addNodes (newNodes t chains.zipIdx c)).Sound (Function.update tasks t (some task))
      (Function.update number t n) c := by
  have hne {m : ChainNode} (hm : m ∈ info.chain) : m.taskId ≠ t := by
    obtain ⟨task', ht', -⟩ := h.node m hm
    intro he
    rw [he, ht] at ht'
    cases ht'
  have hother {m : ChainNode} (hm : m ∈ info.chain) :
      Function.update tasks t (some task) m.taskId = tasks m.taskId :=
    Function.update_of_ne (hne hm) _ _
  have hnum {m : ChainNode} (hm : m ∈ info.chain) :
      Function.update number t n m.taskId = number m.taskId :=
    Function.update_of_ne (hne hm) _ _
  constructor
  case nodup =>
    rw [ChainInfo.addNodes, List.map_append]
    refine List.nodup_append.2 ⟨h.nodup, nodup_newNodes t chains c, ?_⟩
    rintro _ ha _ hb rfl
    obtain ⟨m, hm, ha⟩ := List.mem_map.1 ha
    obtain ⟨m', hm', hb⟩ := List.mem_map.1 hb
    exact hne hm ((congrArg Prod.fst (ha.trans hb.symm)).trans (mem_newNodes.1 hm').1)
  case node =>
    intro m hm
    rcases List.mem_append.1 hm with hm | hm
    · rw [hother hm]
      exact h.node m hm
    · obtain ⟨rfl, hi, -⟩ := mem_newNodes.1 hm
      exact ⟨task, Function.update_self _ _ _, htask ▸ hi⟩
  case active =>
    have hold : info.chain.countP (fun m ↦ decide
          (HasState (Function.update tasks t (some task)) m.taskId .active)) =
        info.chain.countP fun m ↦ decide (HasState tasks m.taskId .active) := by
      refine List.countP_congr fun m hm ↦ ?_
      rw [decide_eq_true_iff, decide_eq_true_iff, HasState, hother hm, HasState]
    have hnew : (newNodes t chains.zipIdx c).countP (fun m ↦ decide
        (HasState (Function.update tasks t (some task)) m.taskId .active)) = 0 := by
      refine List.countP_eq_zero.2 fun m hm ↦ ?_
      rw [decide_eq_true_iff, (mem_newNodes.1 hm).1, hasState_update_self, hp]
      exact State.noConfusion
    rw [ChainInfo.addNodes, List.countP_append, hold, hnew, h.active]
    rfl
  case active_le => exact h.active_le
  case pos => exact h.pos
  case le =>
    intro m hm
    rcases List.mem_append.1 hm with hm | hm
    · exact h.le m hm
    · rw [(mem_newNodes.1 hm).2.2]
      exact Nat.zero_le _
  case leading =>
    refine h.leading.append_of_not fun m hm hg ↦ ?_
    rw [(mem_newNodes.1 hm).2.2] at hg
    exact h.pos.ne hg
  case current =>
    intro m hm hg
    rcases List.mem_append.1 hm with hm | hm
    · rw [HasState, hother hm]
      exact h.current m hm hg
    · rw [(mem_newNodes.1 hm).2.2] at hg
      exact absurd hg h.pos.ne
  case sorted =>
    rw [ChainInfo.addNodes, List.map_append, List.pairwise_append, List.pairwise_map,
      List.pairwise_map]
    refine ⟨?_, ?_, ?_⟩
    · refine List.Pairwise.imp_of_mem (fun {a b} ha hb hab ↦ ?_) (List.pairwise_map.1 h.sorted)
      rwa [hnum ha, hnum hb]
    · refine List.Pairwise.imp_of_mem (fun {a b} ha hb _ ↦ ?_)
        (List.pairwise_of_forall (R := fun _ _ ↦ True) fun _ _ ↦ trivial)
      rw [(mem_newNodes.1 ha).1, (mem_newNodes.1 hb).1]
    · rintro _ ha _ hb
      obtain ⟨m, hm, rfl⟩ := List.mem_map.1 ha
      obtain ⟨m', hm', rfl⟩ := List.mem_map.1 hb
      rw [hnum hm, (mem_newNodes.1 hm').1, Function.update_self]
      obtain ⟨task', ht', -⟩ := h.node m hm
      exact (hlt m.taskId (Option.ne_none_iff_exists'.2 ⟨task', ht'⟩)).le

theorem ChainInfo.sound_init (tasks : TaskId → Option (Task ExtraT)) (number : TaskId → ℕ)
    (c : ChainId) : ({} : ChainInfo).Sound tasks number c where
  nodup := List.nodup_nil
  node := List.forall_mem_nil _
  active := rfl
  active_le := Nat.zero_le _
  pos := Nat.one_pos
  le := List.forall_mem_nil _
  leading := List.Pairwise.nil
  current := List.forall_mem_nil _
  sorted := List.Pairwise.nil

theorem Inv.number_lt (h : Inv s client todo) {t : TaskId} (ht : s.task t ≠ none) :
    client.number t < client.created.length := by
  obtain ⟨task, ht⟩ := Option.ne_none_iff_exists'.1 ht
  exact (List.getElem?_eq_some_iff.1 (h.created ht)).1

/-- The new task is to be tried. -/
theorem Inv.create (h : Inv s client []) {extra : ExtraT} (hcr : Created s s' t chains extra) :
    Inv s' (client.create t chains) [t] := by
  have hne {t' : TaskId} (ht' : s.task t' ≠ none) : t' ≠ t := by
    rintro rfl
    exact ht' hcr.fresh
  have hother {t' : TaskId} (ht' : t' ≠ t) : s'.task t' = s.task t' := by
    rw [hcr.task, Function.update_of_ne ht']
  have hself : s'.task t = some { chains := chains, extra := extra } := by
    rw [hcr.task, Function.update_self]
  have hnum {t' : TaskId} (ht' : t' ≠ t) : (client.create t chains).number t' = client.number t' :=
    Function.update_of_ne ht' _ _
  have hsplit {t' : TaskId} {task' : Task ExtraT} (ht' : s'.task t' = some task') :
      t' = t ∧ task' = { chains := chains, extra := extra } ∨
        t' ≠ t ∧ s.task t' = some task' := by
    by_cases he : t' = t
    · rw [he, hself] at ht'
      exact .inl ⟨he, (Option.some.inj ht').symm⟩
    · exact .inr ⟨he, (hother he).symm.trans ht'⟩
  -- a chain keeps its nodes, and what comes before them
  have hchain {c : ChainId} {info : ChainInfo} (hc : s.chains c = some info) : ∃ info',
      s'.chains c = some info' ∧ info'.activeTasks = info.activeTasks ∧
      ∀ node ∈ info.chain.map ChainNode.address,
        node ∈ info'.chain.map ChainNode.address ∧ (info'.Ready node ↔ info.Ready node) := by
    by_cases hcm : c ∈ chains
    · refine ⟨_, hcr.chains_of_mem hcm, ?_⟩
      rw [getChainInfo, hc, Option.getD_some]
      refine ⟨rfl, fun node hnode ↦ ⟨?_, ?_⟩⟩
      · rw [ChainInfo.addNodes, List.map_append]
        exact List.mem_append_left _ hnode
      · rw [ChainInfo.Ready, ChainInfo.getParent, ChainInfo.addNodes, before_append_of_mem hnode]
        rfl
    · exact ⟨info, (hcr.chains_of_notMem hcm).trans hc, rfl, fun node hnode ↦ ⟨hnode, Iff.rfl⟩⟩
  constructor
  case wf => exact hcr.wf
  case toStart => exact hcr.toStart.trans h.toStart
  case chains_nodup =>
    intro t' task' ht' hs'
    rcases hsplit ht' with ⟨-, rfl⟩ | ⟨-, ht'⟩
    · exact absurd rfl hs'
    · exact h.chains_nodup ht' hs'
  case mem =>
    intro t' task' ht' i c hi
    rcases hsplit ht' with ⟨rfl, rfl⟩ | ⟨-, ht'⟩
    · refine ⟨_, hcr.chains_of_mem (List.mem_of_getElem? hi), ?_⟩
      rw [ChainInfo.addNodes, List.map_append]
      refine List.mem_append_right _ (List.mem_map.2 ⟨⟨t', i, 0⟩, ?_, rfl⟩)
      exact mem_newNodes.2 ⟨rfl, hi, rfl⟩
    · obtain ⟨info, hc, hm⟩ := h.mem ht' hi
      obtain ⟨info', hc', -, hnodes⟩ := hchain hc
      exact ⟨info', hc', (hnodes _ hm).1⟩
  case ne_nil =>
    intro c info hc
    by_cases hcm : c ∈ chains
    · obtain ⟨i, hi⟩ := List.mem_iff_getElem?.1 hcm
      rw [hcr.chains_of_mem hcm] at hc
      rw [← Option.some.inj hc]
      exact List.append_ne_nil_of_right_ne_nil _ (List.ne_nil_of_mem
        (mem_newNodes.2 ⟨rfl, hi, rfl⟩ : (⟨t, i, 0⟩ : ChainNode) ∈ _))
    · exact h.ne_nil ((hcr.chains_of_notMem hcm).symm.trans hc)
  case sound =>
    intro c info hc
    rw [hcr.task]
    have hlt : ∀ t', s.task t' ≠ none → client.number t' < client.created.length :=
      fun t' ht' ↦ h.number_lt ht'
    by_cases hcm : c ∈ chains
    · rw [hcr.chains_of_mem hcm] at hc
      rw [← Option.some.inj hc]
      have hold : (s.getChainInfo c).Sound s.task client.number c := by
        rw [getChainInfo]
        cases hc₀ : s.chains c with
        | none => exact ChainInfo.sound_init _ _ _
        | some info₀ => exact h.sound hc₀
      exact hold.addNodes hcr.fresh rfl rfl hlt
    · have hadd := (h.sound ((hcr.chains_of_notMem hcm).symm.trans hc)).addNodes hcr.fresh
        (rfl : ({ chains := chains, extra := extra } : Task ExtraT).chains = chains) rfl hlt
      rwa [newNodes_of_notMem hcm, ChainInfo.addNodes, List.append_nil] at hadd
  case limited =>
    intro c t' hl
    rw [hcr.limitedTasks] at hl
    obtain ⟨task', i, info, ht', hp', hi, hc, hten, hr⟩ := h.limited hl
    obtain ⟨info', hc', hactive, hnodes⟩ := hchain hc
    obtain ⟨info₀, hc₀, hm⟩ := h.mem ht' hi
    obtain rfl := Option.some.inj (hc.symm.trans hc₀)
    refine ⟨task', i, info', ?_, hp', hi, hc', hactive.trans hten, (hnodes _ hm).2.2 hr⟩
    rw [hother (hne (Option.ne_none_iff_exists'.2 ⟨task', ht'⟩)), ht']
  case blocked =>
    intro t' task' ht' hp' hn
    rcases hsplit ht' with ⟨rfl, -⟩ | ⟨-, ht'⟩
    · exact absurd (List.mem_singleton_self _) hn
    · obtain ⟨i, c, hi, hb⟩ := h.blocked ht' hp' List.not_mem_nil
      refine ⟨i, c, hi, ?_⟩
      rcases hb with hl | ⟨info, hc, hr⟩
      · rw [hcr.limitedTasks]
        exact .inl hl
      · obtain ⟨info', hc', -, hnodes⟩ := hchain hc
        obtain ⟨info₀, hc₀, hm⟩ := h.mem ht' hi
        obtain rfl := Option.some.inj (hc.symm.trans hc₀)
        exact .inr ⟨info', hc', fun hr' ↦ hr ((hnodes _ hm).2.1 hr')⟩
  case todo =>
    intro t' ht'
    rw [List.mem_singleton.1 ht']
    exact ⟨_, hself⟩
  case started_nodup =>
    rw [hcr.pendingTasks]
    exact h.started_nodup
  case started =>
    intro t' ht'
    rw [hcr.pendingTasks] at ht'
    have hs' := h.started t' ht'
    obtain ⟨task', ht', -⟩ := hasState_iff.1 hs'
    rwa [HasState, hother (hne (Option.ne_none_iff_exists'.2 ⟨task', ht'⟩))]
  case paused =>
    intro t' ht'
    have hs' := h.paused t' ht'
    obtain ⟨task', ht', -⟩ := hasState_iff.1 hs'
    rwa [HasState, hother (hne (Option.ne_none_iff_exists'.2 ⟨task', ht'⟩))]
  case paused_nodup => exact h.paused_nodup
  case created =>
    intro t' task' ht'
    rcases hsplit ht' with ⟨rfl, rfl⟩ | ⟨he, ht'⟩
    · rw [Client.create]
      dsimp only
      rw [Function.update_self, List.getElem?_concat_length]
    · rw [hnum he]
      exact (List.getElem?_append_left
        (h.number_lt (Option.ne_none_iff_exists'.2 ⟨task', ht'⟩))).trans (h.created ht')
  case number =>
    have hlive {t' : TaskId} (ht' : s'.task t' ≠ none) (he : t' ≠ t) : s.task t' ≠ none := by
      rwa [hother he] at ht'
    have hlast : (client.create t chains).number t = client.created.length :=
      Function.update_self _ _ _
    intro t₁ t₂ ht₁ ht₂ heq
    by_cases he₁ : t₁ = t
    · by_cases he₂ : t₂ = t
      · rw [he₁, he₂]
      · rw [he₁, hlast, hnum he₂] at heq
        exact absurd heq.symm (h.number_lt (hlive ht₂ he₂)).ne
    · by_cases he₂ : t₂ = t
      · rw [he₂, hlast, hnum he₁] at heq
        exact absurd heq (h.number_lt (hlive ht₁ he₁)).ne
      · rw [hnum he₁, hnum he₂] at heq
        exact h.number (hlive ht₁ he₁) (hlive ht₂ he₂) heq

variable [Inhabited ExtraT]

/-- `create_task` tries the new task, if there is room for one more. -/
theorem createTask_eq (hwf : s.tasks.Wf) (h0 : 0 ∉ chains)
    (hroom : s.tasks.emptySlots = [] → s.tasks.slots.length < 2 ^ 31 - 1) (extra : ExtraT) :
    ∃ t s₁, Created s s₁ t chains extra ∧
      s.createTask chains extra = (fun s' ↦ (t, s')) <$> s₁.tryStartTask t := by
  obtain ⟨t, tasks, hcreate, hwf₁, hfresh, htask₁⟩ := hwf.create_object hroom default 0
  let f (task : Task ExtraT) : Task ExtraT := { task with extra := extra }
  let g (task : Task ExtraT) : Task ExtraT := { task with chains := chains }
  obtain ⟨hwf₂, -, -, htask₂⟩ := hwf₁.modify_object t f
  obtain ⟨hwf₃, -, -, htask₃⟩ := hwf₂.modify_object t g
  have hget : tasks.get t ≠ none := by
    rw [hwf₁.get_object (htask₁ ▸ Function.update_self t _ _)]
    exact Option.some_ne_none _
  let s₀ : ChainScheduler ExtraT := { s with
    tasks := (tasks.modify t f).modify t g
    chains := s.registered chains }
  have hreg : ∀ p ∈ chains.zipIdx, ∃ info, s₀.chains p.1 = some info :=
    fun p hp ↦ ⟨_, if_pos (List.mem_of_getElem? (mem_zipIdx.1 hp))⟩
  refine ⟨t, { s₀ with chains := s₀.added t chains.zipIdx }, ?_, ?_⟩
  · constructor
    case wf => exact hwf₃
    case toStart => rfl
    case pendingTasks => rfl
    case limitedTasks => rfl
    case fresh => exact hfresh
    case task =>
      refine htask₃.trans ?_
      rw [htask₂, htask₁, Function.update_self, Function.update_idem, Function.update_self,
        Function.update_idem]
      rfl
    case chains_of_mem =>
      intro c hc
      have hself : s₀.chains c = some (s.getChainInfo c) := if_pos hc
      change (s₀.chains c).map _ = _
      rw [hself, Option.map_some]
    case chains_of_notMem =>
      intro c hc
      have hother : s₀.chains c = s.chains c := if_neg hc
      change (s₀.chains c).map _ = _
      rw [hother, newNodes_of_notMem hc]
      cases s.chains c with
      | none => rfl
      | some info => rw [Option.map_some, ChainInfo.addNodes, List.append_nil]
  · rw [createTask, hcreate, mapError_ok, ok_bind]
    dsimp only
    rw [if_neg hget, registerChains_eq h0]
    simp only [pure_eq_ok, ok_bind]
    have hadd : chains.zipIdx.foldlM (addToChain t) s₀ = _ := addToChains_eq hreg
    rw [map_eq_pure_bind]
    exact congrArg (fun r : Except Fault (ChainScheduler ExtraT) ↦ r >>= fun s ↦
      s.tryStartTask t >>= fun s' ↦ .ok (t, s')) hadd

end PxcCore.ChainScheduler
