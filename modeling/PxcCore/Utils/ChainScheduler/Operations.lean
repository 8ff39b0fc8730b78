import PxcCore.Utils.ChainScheduler.Create
import PxcCore.Utils.ChainScheduler.Finish

/-!
# The operations of a ChainScheduler

Every operation that the caller may call comes to an end without a fault and keeps the invariant.
-/

namespace PxcCore.ChainScheduler

open Lib

variable {ExtraT : Type} {s s' : ChainScheduler ExtraT} {client client' : Client}
  {todo new : List TaskId} {t : TaskId} {task : Task ExtraT} {c : ChainId} {i : ℕ}
  {info : ChainInfo} {chains : List ChainId}

/-! ## `start_next_task` -/

/-- The tasks just before this one in its chains. -/
def parentsOf (s : ChainScheduler ExtraT) (t : TaskId) (chains : List (ChainId × ℕ)) :
    List TaskId :=
  chains.filterMap fun p ↦ (s.chains p.1).bind fun info ↦
    (info.getParent (t, p.2)).map ChainNode.taskId

/-- The loop of `start_next_task`. -/
theorem mapM_getParent {chains : List (ChainId × ℕ)}
    (hc : ∀ p ∈ chains, ∃ info, s.chains p.1 = some info) :
    ∃ parents, (chains.mapM fun p ↦ do
        return ((← s.chainInfo p.1).getParent (t, p.2)).map ChainNode.taskId) =
      .ok parents ∧ parents.reduceOption = s.parentsOf t chains := by
  induction chains with
  | nil => exact ⟨[], rfl, rfl⟩
  | cons p chains ih =>
    obtain ⟨info, hinfo⟩ := hc p List.mem_cons_self
    obtain ⟨parents, hok, heq⟩ := ih fun q hq ↦ hc q (List.mem_cons_of_mem _ hq)
    refine ⟨_, by rw [List.mapM_cons, chainInfo_eq hinfo, ok_bind, pure_eq_ok, ok_bind, hok,
      ok_bind, pure_eq_ok], ?_⟩
    rw [parentsOf, List.filterMap_cons, hinfo, Option.bind_some]
    cases hp : (info.getParent (t, p.2)).map ChainNode.taskId with
    | none =>
      rw [List.reduceOption_cons_of_none]
      exact heq
    | some parent =>
      rw [List.reduceOption_cons_of_some]
      exact congrArg _ heq

/-- The `CHECK` of `start_next_task` does not fail. -/
theorem startNextTask_eq (h : Inv s client []) {rest : List TaskId}
    (hp : s.pendingTasks = t :: rest) : ∃ task, s.task t = some task ∧ task.state = .active ∧
      s.startNextTask = .ok (some ⟨t, s.parentsOf t task.chains.zipIdx⟩,
        { s with pendingTasks := rest }) := by
  have hs := h.started t (by rw [hp]; exact List.mem_cons_self)
  obtain ⟨task, ht, hactive⟩ := hasState_iff.1 hs
  refine ⟨task, ht, hactive, ?_⟩
  have hc : ∀ p ∈ task.chains.zipIdx, ∃ info, s.chains p.1 = some info := by
    intro p hm
    obtain ⟨info, hc, -⟩ := h.mem ht (mem_zipIdx.1 hm)
    exact ⟨info, hc⟩
  obtain ⟨parents, hok, heq⟩ := mapM_getParent (t := t) hc
  have hget : getTask { s with pendingTasks := rest } t = .ok task := getTask_eq h.wf ht
  rw [startNextTask, hp]
  dsimp only
  rw [hget, ok_bind, ← heq]
  let f (parents : List (Option TaskId)) :
      Except Fault (Option TaskWithParents × ChainScheduler ExtraT) :=
    .ok (some ⟨t, parents.reduceOption⟩, { s with pendingTasks := rest })
  exact congrArg (· >>= f) hok

theorem Inv.startNext (h : Inv s client []) {rest : List TaskId}
    (hp : s.pendingTasks = t :: rest) :
    Inv { s with pendingTasks := rest } (client.start t) [] := by
  have hperm : (rest ++ (client.started ++ [t])).Perm (s.pendingTasks ++ client.started) := by
    rw [hp, ← List.append_assoc]
    exact List.perm_append_comm
  exact { h with
    started_nodup := hperm.nodup_iff.2 h.started_nodup
    started := fun t' ht' ↦ h.started t' (hperm.mem_iff.1 ht') }

/-! ## The other operations -/

theorem flushTryStartTask_spec (h : Inv { s with toStart := [] } client s.toStart) :
    ∃ s' new, s.flushTryStartTask = .ok s' ∧ Inv s' client [] ∧
      Frame { s with toStart := [] } s' new := by
  rw [← List.append_nil s.toStart] at h
  obtain ⟨s', new, hok, h', hframe⟩ := foldlM_tryStartTask_spec h
  refine ⟨s', new, ?_, h', hframe⟩
  rw [flushTryStartTask, hok, ok_bind, if_neg (not_not_intro h'.toStart)]
  rfl

/-- A started task is active. -/
theorem Inv.active_of_started (h : Inv s client []) (hm : t ∈ client.started) :
    t ∉ s.pendingTasks ∧ ∃ task, s.task t = some task ∧ task.state = .active := by
  refine ⟨fun hm' ↦ ?_, hasState_iff.1 (h.started t (List.mem_append_right _ hm))⟩
  exact (List.nodup_append.1 h.started_nodup).2.2 t hm' t hm rfl

theorem Inv.ne_of_paused (h : Inv s client []) (ht : s.task t = some task)
    (hactive : task.state = .active) {t' : TaskId} (ht' : t' ∈ client.paused) : t' ≠ t := by
  rintro rfl
  exact (h.paused t' ht').not (by decide) (hasState_iff.2 ⟨task, ht, hactive⟩)

/-- A task that may be reset is not waiting to be started or handed out. -/
theorem Inv.of_started_or_paused (h : Inv s client [])
    (hm : t ∈ client.started ∨ t ∈ client.paused) :
    t ∉ s.pendingTasks ∧ ∃ task, s.task t = some task ∧ task.state ≠ .pending := by
  rcases hm with hm | hm
  · obtain ⟨hnp, task, ht, hactive⟩ := h.active_of_started hm
    exact ⟨hnp, task, ht, hactive ▸ State.noConfusion⟩
  · obtain ⟨task, ht, hpaused⟩ := hasState_iff.1 (h.paused t hm)
    refine ⟨fun hm' ↦ ?_, task, ht, hpaused ▸ State.noConfusion⟩
    have hs := h.started t (List.mem_append_left _ hm')
    exact hs.not (by decide) (h.paused t hm)

/-- There is a slot for one more task. -/
def Room (s : ChainScheduler ExtraT) : Prop :=
  s.tasks.emptySlots = [] → s.tasks.slots.length < 2 ^ 31 - 1

section

variable [Inhabited ExtraT]

theorem createTask_spec (h : Inv s client []) (h0 : 0 ∉ chains) (hroom : s.Room) (extra : ExtraT) :
    ∃ t s₁ s' new, s.createTask chains extra = .ok (t, s') ∧ Created s s₁ t chains extra ∧
      Inv s' (client.create t chains) [] ∧ Frame s₁ s' new := by
  obtain ⟨t, s₁, hcr, heq⟩ := createTask_eq h.wf h0 hroom extra
  obtain ⟨s', new, hok, h', hframe⟩ := tryStartTask_spec (h.create hcr)
  exact ⟨t, s₁, s', new, by rw [heq, hok, ok_map], hcr, h', hframe⟩

/-- Without room for one more task `create_task` follows a null pointer. -/
theorem createTask_full (hwf : s.tasks.Wf) (hempty : s.tasks.emptySlots = [])
    (hfull : ¬s.tasks.slots.length < 2 ^ 31 - 1) (extra : ExtraT) :
    s.createTask chains extra = .error .null := by
  obtain ⟨t, tasks, hcreate, hnone⟩ := hwf.create_full hempty hfull default 0
  rw [createTask, hcreate, mapError_ok, ok_bind]
  dsimp only
  rw [if_pos hnone]
  rfl

theorem finishTask_spec (h : Inv s client []) (hm : t ∈ client.started) :
    ∃ task todo s₁ s' new, s.finishTask t = .ok s' ∧ s.task t = some task ∧
      task.state = .active ∧ Changed s s₁ client.number t task.chains none todo ∧
      Inv s' (client.finish t) [] ∧ Frame s₁ s' new := by
  obtain ⟨hnp, task, ht, hactive⟩ := h.active_of_started hm
  have hs : task.state ≠ .pending := hactive ▸ State.noConfusion
  have hnodup := h.chains_nodup ht hs
  obtain ⟨s₁, hok₁, hin⟩ := h.inactivateTask_eq ht hs false
  rw [hactive, decide_eq_true rfl] at hin
  have hc : ∀ p ∈ task.chains.zipIdx, ∃ info, s₁.chains p.1 = some info := by
    intro p hm
    obtain ⟨-, info, n, -, -, -, -, hc⟩ := hin.chains_of_mem h ht
      (List.mem_of_getElem? (mem_zipIdx.1 hm))
    exact ⟨_, hc⟩
  let s₂ : ChainScheduler ExtraT :=
    { s₁ with toStart := s₁.toStart ++ s₁.childrenOf t task.chains.zipIdx }
  have hok₂ : s₁.forEachChild t task (fun s child ↦ pure (s.tryStartTaskLater child)) = .ok s₂ :=
    forEachChild_later hc
  obtain ⟨f, hok₃, hnot, hmem⟩ := finishChains_spec (t := t) (s := s₂)
    (by rwa [map_fst_zipIdx]) hc
  obtain ⟨hwf, htasks⟩ : (s₁.tasks.erase t).Wf ∧
      (s₁.tasks.erase t).object = Function.update s.task t none := by
    rw [hin.tasks]
    have hobject := task_setState h.wf t .pending
    obtain ⟨hwf, heq⟩ := (wf_setState h.wf t .pending).erase_object
      (show (s.setState t .pending).task t = _ by
        rw [hobject, Function.update_self, ht, Option.map_some])
    refine ⟨hwf, heq.trans ?_⟩
    change Function.update (s.setState t .pending).task t none = _
    rw [hobject, Function.update_idem]
  have hch := h.finish ht hactive hin (fun hc ↦ hnot (by rwa [map_fst_zipIdx])) hmem hwf htasks
  have hinv : Inv { s₁ with chains := f, tasks := s₁.tasks.erase t, toStart := [] }
      (client.finish t) s₂.toStart :=
    h.change ht hs hnp hch rfl
      ⟨h.paused_nodup, fun t' ht' ↦ .inr ⟨h.ne_of_paused ht hactive ht', ht'⟩⟩ rfl rfl
  obtain ⟨s', new, hok₄, h', hframe⟩ := flushTryStartTask_spec
    (s := { s₂ with chains := f, tasks := s₂.tasks.erase t }) hinv
  refine ⟨task, _, _, s', new, ?_, ht, hactive, hch, h', hframe⟩
  rw [finishTask, getTask_eq h.wf ht, ok_bind, if_neg (not_not_intro h.toStart)]
  dsimp only
  rw [hok₁, ok_bind, hok₂, ok_bind, hok₃, ok_bind]
  exact hok₄

end

theorem resetTask_spec (h : Inv s client []) (hm : t ∈ client.started ∨ t ∈ client.paused) :
    ∃ task o todo s₁ s' new, s.resetTask t = .ok s' ∧ s.task t = some task ∧
      task.state ≠ .pending ∧ Changed s s₁ client.number t task.chains (some o) todo ∧
      Inv s' (client.reset t) [] ∧ Frame s₁ s' new := by
  obtain ⟨hnp, task, ht, hs⟩ := h.of_started_or_paused hm
  obtain ⟨s₁, hok₁, hin⟩ := h.inactivateTask_eq ht hs true
  have htasks : s₁.tasks.object =
      Function.update s.task t (some { task with state := .pending }) := by
    have hobject := task_setState h.wf t .pending
    rw [ht] at hobject
    rw [hin.tasks]
    exact hobject
  have hwf : s₁.tasks.Wf := by
    rw [hin.tasks]
    exact wf_setState h.wf t .pending
  have htodo : ∀ t', t' ∈ s₁.toStart ++ [t] ↔
      t' ∈ s₁.toStart ∨ t' = t ∧ State.pending = .pending := by
    intro t'
    rw [List.mem_append, List.mem_singleton, and_iff_left rfl]
  have hch := h.fail ht hs hin (by decide) hwf htasks htodo
  have hinv : Inv { s₁ with toStart := [] } (client.reset t) (s₁.tryStartTaskLater t).toStart :=
    h.change ht hs hnp hch rfl
      ⟨h.paused_nodup.erase t, fun t' ht' ↦ .inr (h.paused_nodup.mem_erase_iff.1 ht')⟩ rfl rfl
  obtain ⟨s', new, hok, h', hframe⟩ := flushTryStartTask_spec (s := s₁.tryStartTaskLater t) hinv
  refine ⟨task, _, _, _, s', new, ?_, ht, hs, hch, h', hframe⟩
  rw [resetTask, if_neg (not_not_intro h.toStart)]
  dsimp only
  rw [getTask_eq h.wf ht, ok_bind, hok₁, ok_bind, hok]

theorem pauseTask_spec (h : Inv s client []) (hm : t ∈ client.started) :
    ∃ task o todo s₁ s' new, s.pauseTask t = .ok s' ∧ s.task t = some task ∧
      task.state ≠ .pending ∧ Changed s s₁ client.number t task.chains (some o) todo ∧
      Inv s' (client.pause t) [] ∧ Frame s₁ s' new := by
  obtain ⟨hnp, task, ht, hactive⟩ := h.active_of_started hm
  have hs : task.state ≠ .pending := hactive ▸ State.noConfusion
  obtain ⟨s₁, hok₁, hin⟩ := h.inactivateTask_eq ht hs true
  have hwf : s₁.tasks.Wf := by
    rw [hin.tasks]
    exact wf_setState h.wf t .pending
  have htasks : (s₁.setState t .paused).task =
      Function.update s.task t (some { task with state := .paused }) := by
    have hobject := task_setState h.wf t .pending
    have htask₁ : s₁.task = (s.setState t .pending).task :=
      congrArg Container.object hin.tasks
    rw [task_setState hwf, htask₁, hobject, Function.update_self, ht, Option.map_some,
      Option.map_some, Function.update_idem]
  have htodo : ∀ t', t' ∈ s₁.toStart ↔ t' ∈ s₁.toStart ∨ t' = t ∧ State.paused = .pending :=
    fun t' ↦ (or_iff_left fun hp ↦ State.noConfusion hp.2).symm
  have hch := h.fail ht hs hin (by decide) (wf_setState hwf t .paused) htasks htodo
  have hinv : Inv { s₁.setState t .paused with toStart := [] } (client.pause t) s₁.toStart := by
    refine h.change ht hs hnp hch rfl
      ⟨List.nodup_cons.2 ⟨?_, h.paused_nodup⟩, fun t' ht' ↦ ?_⟩ rfl rfl
    · exact fun hm' ↦ h.ne_of_paused ht hactive hm' rfl
    · rcases List.mem_cons.1 ht' with he | ht'
      · exact .inl ⟨he, rfl⟩
      · exact .inr ⟨h.ne_of_paused ht hactive ht', ht'⟩
  obtain ⟨s', new, hok, h', hframe⟩ := flushTryStartTask_spec (s := s₁.setState t .paused) hinv
  refine ⟨task, _, _, _, s', new, ?_, ht, hs, hch, h', hframe⟩
  rw [pauseTask, getTask_eq h.wf ht, ok_bind, hok₁, ok_bind, hok]

/-! ## Runs -/

/-- What an operation that the caller may call does: the scheduler changes, and then tasks are
started. -/
inductive Does (s : ChainScheduler ExtraT) (client : Client) :
    Op ExtraT → ChainScheduler ExtraT → Client → Prop
  | create {chains : List ChainId} {extra : ExtraT} {t : TaskId} {s₁ s' : ChainScheduler ExtraT}
    {new : List TaskId} : Created s s₁ t chains extra → Frame s₁ s' new →
    Does s client (.createTask chains extra) s' (client.create t chains)
  | idle : s.pendingTasks = [] → Does s client .startNextTask s client
  | start {t : TaskId} {rest : List TaskId} : s.pendingTasks = t :: rest →
    Does s client .startNextTask { s with pendingTasks := rest } (client.start t)
  | finish {t : TaskId} {task : Task ExtraT} {todo new : List TaskId}
    {s₁ s' : ChainScheduler ExtraT} : t ∈ client.started → s.task t = some task →
    task.state = .active → Changed s s₁ client.number t task.chains none todo → Frame s₁ s' new →
    Does s client (.finishTask t) s' (client.finish t)
  | reset {t : TaskId} {task task' : Task ExtraT} {todo new : List TaskId}
    {s₁ s' : ChainScheduler ExtraT} : s.task t = some task → task.state ≠ .pending →
    Changed s s₁ client.number t task.chains (some task') todo → Frame s₁ s' new →
    Does s client (.resetTask t) s' (client.reset t)
  | pause {t : TaskId} {task task' : Task ExtraT} {todo new : List TaskId}
    {s₁ s' : ChainScheduler ExtraT} : s.task t = some task → task.state ≠ .pending →
    Changed s s₁ client.number t task.chains (some task') todo → Frame s₁ s' new →
    Does s client (.pauseTask t) s' (client.pause t)

variable [Inhabited ExtraT] {op : Op ExtraT} {kind : Set (Op ExtraT)}

/-- An operation that the caller may call returns, if there is room for a task that it makes, does
what it should and keeps the invariant. -/
theorem step_spec (h : Inv s client []) (hallows : client.Allows op)
    (hroom : ∀ {chains extra}, op = .createTask chains extra → s.Room) :
    ∃ s' client', s.step client op = .ok (s', client') ∧ Does s client op s' client' ∧
      Inv s' client' [] := by
  cases op with
  | createTask chains extra =>
    obtain ⟨t, s₁, s₂, new, hok, hcr, h', hframe⟩ := createTask_spec h hallows (hroom rfl) extra
    refine ⟨s₂, client.create t chains, ?_, .create hcr hframe, h'⟩
    rw [step, hok]
    rfl
  | startNextTask =>
    cases hp : s.pendingTasks with
    | nil =>
      refine ⟨s, client, ?_, .idle hp, h⟩
      rw [step, startNextTask, hp]
      rfl
    | cons t rest =>
      obtain ⟨task, -, -, hok⟩ := startNextTask_eq h hp
      refine ⟨_, client.start t, ?_, .start hp, h.startNext hp⟩
      rw [step, hok]
      rfl
  | finishTask t =>
    obtain ⟨task, todo, s₁, s₂, new, hok, ht, hactive, hch, h', hframe⟩ := finishTask_spec h hallows
    refine ⟨s₂, client.finish t, ?_, .finish hallows ht hactive hch hframe, h'⟩
    rw [step, hok]
    rfl
  | resetTask t =>
    obtain ⟨task, o, todo, s₁, s₂, new, hok, ht, hs, hch, h', hframe⟩ := resetTask_spec h hallows
    refine ⟨s₂, client.reset t, ?_, .reset ht hs hch hframe, h'⟩
    rw [step, hok]
    rfl
  | pauseTask t =>
    obtain ⟨task, o, todo, s₁, s₂, new, hok, ht, hs, hch, h', hframe⟩ := pauseTask_spec h hallows
    refine ⟨s₂, client.pause t, ?_, .pause ht hs hch hframe, h'⟩
    rw [step, hok]
    rfl

theorem step_does (h : Inv s client []) (hallows : client.Allows op)
    (hstep : s.step client op = .ok (s', client')) :
    Does s client op s' client' ∧ Inv s' client' [] := by
  have hroom : ∀ {chains extra}, op = .createTask chains extra → s.Room := by
    rintro chains extra rfl hempty
    by_contra hfull
    rw [step, createTask_full h.wf hempty hfull] at hstep
    cases hstep
  obtain ⟨s₂, client₂, hok, hdoes, h'⟩ := step_spec h hallows hroom
  obtain ⟨rfl, rfl⟩ := Prod.mk.inj (Except.ok.inj (hok.symm.trans hstep))
  exact ⟨hdoes, h'⟩

theorem Reachable.inv (h : Reachable kind s client) : Inv s client [] := by
  induction h with
  | init => exact .init
  | step _ _ hallows hstep ih => exact (step_does ih hallows hstep).2

end PxcCore.ChainScheduler
