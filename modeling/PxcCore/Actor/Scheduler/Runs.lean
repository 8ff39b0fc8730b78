import PxcCore.Actor.Scheduler.Steps

/-!
# Runs of the schedulers

What holds of the lives of the actors holds of every state that the schedulers come to.
-/

namespace PxcCore.Scheduler.System

open Lib

variable {S A E : Type} [DecidableEq S] [DecidableEq A] {service : S → A}
  {xs : List (Step S A E)} {x : Step S A E} {st st' : System S A E} {s : S} {a : A}
  {result : Except String (System S A E)}

/-- What every step keeps holds at the end of a run. -/
theorem run_induction {Q : Except String (System S A E) → Prop}
    (hstep : ∀ x ∈ xs, ∀ st result, Q (.ok st) → st.step service x = some result → Q result)
    (hst : Q (.ok st)) (hrun : run service xs st = some result) : Q result := by
  induction xs generalizing st with
  | nil =>
    cases hrun
    exact hst
  | cons x xs ih =>
    have hrest : ∀ x ∈ xs, ∀ st result, Q (.ok st) → st.step service x = some result → Q result :=
      fun x hmem ↦ hstep x (List.mem_cons_of_mem _ hmem)
    have hfirst := hstep x List.mem_cons_self st
    rw [run] at hrun
    cases hnext : st.step service x with
    | none => simp [hnext] at hrun
    | some next =>
      cases next with
      | error e =>
        obtain rfl : Except.error e = result := by simpa [hnext] using hrun
        exact hfirst _ hst hnext
      | ok st' =>
        rw [hnext] at hrun
        exact ih hrest (hfirst _ hst hnext) hrun

/-- The actors lead lives of which `P` holds. -/
def Leads (P : System S A E → Life S E → Prop) (st : System S A E) : Prop :=
  ∃ lives : A → Life S E, ∀ a, Shows (st.view a) (lives a) ∧ P st (lives a)

theorem leads_init {P : System S A E → Life S E → Prop} (h : P {} {}) : Leads P {} := by
  refine ⟨fun _ ↦ {}, fun a ↦ ⟨⟨?_, rfl, rfl⟩, h⟩⟩
  exact {
    isAlive := rfl
    needStartUp := rfl
    mailbox := rfl
    isRunning := rfl
    schedId := rfl
    known := fun t j hj _ ↦ by cases hj
    frames := rfl
    parked := rfl
    inbound := rfl
    outgoing := rfl
    fits := trivial
    sent := rfl
    log := rfl
    unborn := fun _ ↦ rfl }

/-- What a run comes to: the actors lead lives of which `P` holds, or one of them is astray. -/
def Comes (P : System S A E → Life S E → Prop) : Except String (System S A E) → Prop
  | .ok st => Leads P st
  | .error _ => ∃ (st : System S A E) (s : S) (lives : A → Life S E),
    Astray s lives ∧ ∀ a, P st (lives a)

/-- What holds of the lives of the actors as they go on, and as schedulers are closed, holds at the
end of a run. -/
theorem comes_of_run {P : System S A E → Life S E → Prop} (hinit : P {} {})
    (hnext : ∀ {s st told y z}, P st y → Life.Next s (st.isOpen s) told y z → P st z)
    (hclose : ∀ {x st st' y}, x ∈ xs → Closes x.closes st st' → P st y → P st' y)
    (hrun : run service xs {} = some result) : Comes P result := by
  refine run_induction (Q := Comes P) (fun x hmem st result hst hstep ↦ ?_) (leads_init hinit) hrun
  obtain ⟨lives, hlives⟩ := hst
  cases step_proceeds (fun a ↦ (hlives a).1) hstep with
  | ok hcloses hadvances =>
    obtain ⟨lives', hshows, hlives'⟩ := hadvances
    refine ⟨lives', fun a ↦ ⟨hshows a, hclose hmem hcloses ?_⟩⟩
    rcases hlives' a with heq | hlife
    · exact heq ▸ (hlives a).2
    · exact hnext (hlives a).2 hlife
  | error hastray => exact ⟨st, x.sched, lives, hastray, fun a ↦ (hlives a).2⟩

omit [DecidableEq S] [DecidableEq A] in
/-- The schedulers stay open in a run without `clear`. -/
theorem isOpen_of_closes {closes : Bool} (hnot : closes = false) (h : Closes closes st st')
    (hopen : ∀ t, st.isOpen t) (t : S) : st'.isOpen t := by
  rcases h t with hphase | ⟨hcloses, -⟩
  · rw [isOpen, hphase]
    exact hopen t
  · rw [hnot] at hcloses
    cases hcloses

/-- What holds of the lives of the actors as they go on holds at the end of a run without
`clear`. -/
theorem comes_of_open {P : Life S E → Prop} (hinit : P {})
    (hnext : ∀ {s told y z}, P y → Life.Next s true told y z → P z)
    (hopen : ∀ x ∈ xs, x.closes = false) (hrun : run service xs {} = some result) :
    Comes (fun st y ↦ (∀ t, st.isOpen t) ∧ P y) result := by
  refine comes_of_run ⟨fun _ ↦ rfl, hinit⟩ (fun hy hlife ↦ ?_) (fun hmem hcloses hy ↦ ?_) hrun
  · rw [hy.1] at hlife
    exact ⟨hy.1, hnext hy.2 hlife⟩
  · exact ⟨isOpen_of_closes (hopen _ hmem) hcloses hy.1, hy.2⟩

/-! ## On one scheduler -/

theorem reduceOption_mailbox {v : View S E} {y : Life S E} (h : Shows v y) :
    v.info.mailbox.reduceOption = y.mailbox := by
  rw [h.looks.mailbox, List.reduceOption_append, List.reduceOption_replicate_none,
    List.nil_append]
  simp [List.reduceOption, List.filterMap_map]

/-- An actor that does not run and has events in its mailbox is in the list of ready actors, or in
the one that is being run. -/
theorem ready_of_mailbox {y : Life S E} (h : Shows (st.view a) y) (halive : y.place.isAlive)
    (hnot : ∀ d, y.place ≠ .migrating d) (hidle : (st.info a).isRunning = false)
    (hmailbox : (st.info a).mailbox ≠ []) :
    ∃ s, a ∈ (st.sched s).readyActorsList ∨ a ∈ (st.sched s).actorsList := by
  obtain ⟨s, hhome⟩ | ⟨d, hplace⟩ := Place.home_or_migrating halive
  · have hplace := h.resting hhome hidle
    have hempty : y.mailbox.isEmpty = false := by
      rw [← isEmpty_mailbox (h.looks_of_resting hplace)]
      simpa using hmailbox
    have hready : (st.view a).ready s = 1 := by
      have hlisted := h.listed
      simp only [hplace, Place.Listed, hempty] at hlisted
      rw [hlisted.1, Pi.single_eq_same]
    refine ⟨s, ?_⟩
    simp only [view, Local.view] at hready
    by_contra! hout
    rw [List.count_eq_zero_of_not_mem hout.1, List.count_eq_zero_of_not_mem hout.2] at hready
    cases hready
  · exact absurd hplace (hnot d)

omit [DecidableEq S] [DecidableEq A] in
/-- With one scheduler all actors are there. -/
theorem not_astray [Subsingleton S] {lives : A → Life S E} (h : ∀ a, (lives a).Ordered) :
    ¬Astray s lives := by
  rintro ⟨a, ⟨halive, hhome⟩ | hnone⟩
  · obtain ⟨t, ht⟩ | ⟨d, hplace⟩ := Place.home_or_migrating halive
    · exact hhome (Subsingleton.elim t s ▸ ht)
    · exact (h a).place d hplace
  · rw [(h a).inbound s] at hnone
    cases hnone

/-- On one scheduler no check fails, each actor processes what has been sent to it in this order,
and what it has not processed waits in its mailbox, with the actor in a list of those that are
run. -/
theorem run_single [Subsingleton S] (hopen : ∀ x ∈ xs, x.closes = false)
    (hrun : run service xs {} = some result) :
    ∃ st, result = .ok st ∧ ∀ a, (st.info a).isAlive →
      processed (st.log a) ++ (st.info a).mailbox.reduceOption = st.sent a ∧
      ((st.info a).isRunning = false → (st.info a).mailbox ≠ [] →
        ∃ s, a ∈ (st.sched s).readyActorsList ∨ a ∈ (st.sched s).actorsList) ∧
      ((st.info a).isRunning = false →
        (∀ s, (st.sched s).readyActorsList = [] ∧ (st.sched s).actorsList = []) →
        processed (st.log a) = st.sent a) := by
  have hcomes := comes_of_open (P := fun y ↦ y.Waiting ∧ y.Ordered)
    ⟨Life.waiting_init, Life.ordered_init⟩
    (fun hy hlife ↦ ⟨hy.1.next hlife, hy.2.next hy.1 hlife⟩) hopen hrun
  cases result with
  | error e =>
    obtain ⟨st, s, lives, hastray, hlives⟩ := hcomes
    exact absurd hastray (not_astray fun a ↦ (hlives a).2.2)
  | ok st =>
    obtain ⟨lives, hlives⟩ := hcomes
    refine ⟨st, rfl, fun a halive ↦ ?_⟩
    obtain ⟨hshows, -, -, hordered⟩ := hlives a
    have halive : (lives a).place.isAlive := hshows.looks.isAlive ▸ halive
    have hready := ready_of_mailbox hshows halive hordered.place
    have hsent : processed (st.log a) ++ (st.info a).mailbox.reduceOption = st.sent a := by
      rw [show st.log a = _ from hshows.looks.log, show st.sent a = _ from hshows.looks.sent,
        hordered.sent halive]
      exact congrArg (processed (lives a).log ++ ·) (reduceOption_mailbox hshows)
    refine ⟨hsent, hready, fun hidle hdrained ↦ ?_⟩
    have hmailbox : (st.info a).mailbox = [] := by
      by_contra hmailbox
      obtain ⟨s, hmem⟩ := hready hidle hmailbox
      simp [hdrained s] at hmem
    simpa [hmailbox] using hsent

/-- An actor gets an event while it runs. -/
def sendSteps : List (Step Unit Bool ℕ) :=
  [.register () () false true, .register () () true true, .send () 0 .immediate true 7,
    .runMailbox (), .nextActor (), .handlerReturns (), .nextActor (),
    .send () 0 .immediate true 8, .handlerReturns (), .handlerReturns (), .runMailbox (),
    .nextActor (), .handlerReturns ()]

theorem run_single_send : ∃ st, run (fun _ ↦ false) sendSteps {} = some (.ok st) ∧
    st.log true = [.start, .data 7, .data 8] ∧ processed (st.log true) = st.sent true := by
  have hrun : run (fun _ ↦ false) sendSteps {} = some (.ok _) := rfl
  obtain ⟨st, hok, hst⟩ := run_single (by decide) hrun
  cases hok
  refine ⟨_, hrun, rfl, (hst true rfl).2.2 rfl fun s ↦ ⟨?_, ?_⟩⟩
  · cases s
    rfl
  · cases s
    rfl

/-! ## On several schedulers -/

/-- The events for an actor that are in the inbound queue. -/
def inboundEvents (sched : Local S A E) (a : A) : List (Event E) :=
  (sched.inbound.filterMap (Message.about a)).reduceOption

/-- What an actor processes in a step is processed where it is. -/
theorem migrateDestFlag_of_log {lives : A → Life S E} (h : ∀ b, Shows (st.view b) (lives b))
    (hwaiting : (lives a).Waiting) (hstep : st.step service x = some (.ok st'))
    (hlog : st'.log a ≠ st.log a) : st.migrateDestFlag a = some (x.sched, false) := by
  cases step_proceeds h hstep with
  | ok _ hadvances =>
    obtain ⟨lives', hshows, hlives'⟩ := hadvances
    have hlog' : (lives' a).log ≠ (lives a).log := by
      rwa [← (hshows a).looks.log, ← (h a).looks.log]
    rcases hlives' a with heq | hlife
    · exact absurd (congrArg Life.log heq) hlog'
    · obtain ⟨hhome, -⟩ := (hlife.log hwaiting).resolve_left hlog'
      rw [migrateDestFlag_eq (h a).looks]
      exact Place.schedId_of_home hhome

/-- On several schedulers, each event that has been sent to an actor has been processed, or it waits
at one place, and the actor processes events on the scheduler only that owns it. -/
theorem run_conserves [Fintype S] (hopen : ∀ x ∈ xs, x.closes = false)
    (hrun : run service xs {} = some (.ok st)) (a : A) :
    ((st.info a).isAlive → ((processed (st.log a) : Multiset (Event E)) +
      (st.info a).mailbox.reduceOption + ∑ s, ((st.sched s).pendingEvents a : Multiset (Event E)) +
      ∑ s, (inboundEvents (st.sched s) a : Multiset (Event E))) = st.sent a) ∧
    ∀ x st', st.step service x = some (.ok st') → st'.log a ≠ st.log a →
      st.migrateDestFlag a = some (x.sched, false) := by
  have hcomes := comes_of_open (P := fun y ↦ y.Waiting ∧ y.Conserved)
    ⟨Life.waiting_init, fun halive ↦ by cases halive⟩
    (fun hy hlife ↦ ⟨hy.1.next hlife, hy.2.next hy.1 hlife⟩) hopen hrun
  obtain ⟨lives, hlives⟩ := hcomes
  obtain ⟨hshows, -, hwaiting, hconserved⟩ := hlives a
  refine ⟨fun halive ↦ ?_, fun x st' hstep hlog ↦
    migrateDestFlag_of_log (fun b ↦ (hlives b).1) hwaiting hstep hlog⟩
  have hlooks := hshows.looks
  have hcontent := hconserved (hlooks.isAlive ▸ halive)
  rw [Life.content, ← hlooks.log, ← reduceOption_mailbox hshows, ← hlooks.parked,
    ← hlooks.inbound, ← hlooks.sent] at hcontent
  exact hcontent

/-- Two events are sent to an actor that is on its way, one of them by an old `sched_id_`. -/
def migrateSteps : List (Step Bool (Option Bool) ℕ) :=
  [.register false false none true, .runMailbox false, .nextActor false, .migrate false true,
    .handlerReturns false, .putActor false, .send false 1 .immediate none 5,
    .send true 0 .later none 6]

theorem run_conserves_migrate : ∃ st, run some migrateSteps {} = some (.ok st) ∧
    (processed (st.log none) : Multiset (Event ℕ)) + (st.info none).mailbox.reduceOption +
      ∑ s, ((st.sched s).pendingEvents none : Multiset (Event ℕ)) +
      ∑ s, (inboundEvents (st.sched s) none : Multiset (Event ℕ)) = st.sent none := by
  have hrun : run some migrateSteps {} = some (.ok _) := rfl
  exact ⟨_, hrun, (run_conserves (by decide) hrun none).1 rfl⟩

/-! ## The callbacks -/

omit [DecidableEq S] [DecidableEq A] in
theorem isOpen_of_isOpen {closes : Bool} (h : Closes closes st st') {t : S} (hopen : st'.isOpen t) :
    st.isOpen t := by
  have hphase := of_decide_eq_true hopen
  exact decide_eq_true (((h t).resolve_right fun hclosed ↦ hclosed.2 hphase).symm.trans hphase)

/-- What holds of an actor that may have callbacks. -/
structure Ready (st : System S A E) (y : Life S E) : Prop where
  waiting : y.Waiting
  lifecycle : y.needStartUp → y.Lifecycle
  single : Subsingleton S → y.Ordered ∧ ∀ s, y.Unstarted (st.isOpen s)

theorem leads_ready (hrun : run service xs {} = some (.ok st)) : ∃ lives : A → Life S E,
    ∀ a, Shows (st.view a) (lives a) ∧ Ready st (lives a) := by
  refine comes_of_run (P := Ready) ?_ (fun hy hlife ↦ ?_) (fun _ hcloses hy ↦ ?_) hrun
  · exact ⟨Life.waiting_init, fun _ ↦ .init,
      fun _ ↦ ⟨Life.ordered_init, fun _ ↦ Life.unstarted_init⟩⟩
  · refine ⟨hy.waiting.next hlife, fun hneed ↦ ?_, fun hsingle ↦ ?_⟩
    · exact (hy.lifecycle (hlife.needStartUp hneed)).next hy.waiting hneed hlife
    · obtain ⟨hordered, hunstarted⟩ := hy.single hsingle
      refine ⟨hordered.next hy.waiting hlife, fun t ↦ ?_⟩
      rw [Subsingleton.elim t]
      exact (hunstarted _).next hordered hlife
  · refine ⟨hy.waiting, hy.lifecycle, fun hsingle ↦ ⟨(hy.single hsingle).1, fun t ↦ ?_⟩⟩
    exact ((hy.single hsingle).2 t).mono (isOpen_of_isOpen hcloses)

omit [DecidableEq S] [DecidableEq A] in
theorem nonempty_of_place {place : Place S} (h : place ≠ .unborn) : Nonempty S := by
  cases place with
  | unborn => exact absurd rfl h
  | resting s => exact ⟨s⟩
  | running s guard => exact ⟨s⟩
  | migrating d => exact ⟨d⟩
  | gone s => exact ⟨s⟩

omit [DecidableEq A] in
theorem Ready.processed {v : View S E} {y : Life S E} (hy : Ready st y) (h : Shows v y)
    (hneed : y.needStartUp) (hstart : .start ∈ y.sent ∨ Subsingleton S) :
    processed y.log = [] ∨ ∃ data : List E, processed y.log = .start :: data.map .data := by
  by_cases hsent : .start ∈ y.sent
  · exact (hy.lifecycle hneed).processed hsent
  · refine .inl ?_
    by_cases hplace : y.place = .unborn
    · rw [h.looks.unborn hplace]
      rfl
    · obtain ⟨s⟩ := nonempty_of_place hplace
      obtain ⟨-, hline⟩ := (hy.single (hstart.resolve_left hsent)).2 s hneed hplace hsent
      exact (List.append_eq_nil_iff.mp hline).1

/-- The callbacks of an actor run in order, if its `Start` event has been sent, or there is one
scheduler.  Only if the actor is stopped by others, `tear_down` runs without `start_up`. -/
theorem run_callbacks (hrun : run service xs {} = some (.ok st)) (a : A)
    (hneed : (st.info a).needStartUp) (hstart : .start ∈ st.sent a ∨ Subsingleton S) :
    Callbacks (st.log a) ∧ ∀ x st', st.step service x = some (.ok st') → st'.log a = [.stop] →
      st.log a = [.stop] ∨ x.told := by
  obtain ⟨lives, hlives⟩ := leads_ready hrun
  obtain ⟨hshows, hready⟩ := hlives a
  have hlooks := hshows.looks
  have hneed : (lives a).needStartUp := hlooks.needStartUp ▸ hneed
  have hlife := hready.lifecycle hneed
  refine ⟨?_, fun x st' hstep hlog ↦ ?_⟩
  · rw [show st.log a = _ from hlooks.log]
    exact hlife.callbacks (hready.processed hshows hneed (hlooks.sent ▸ hstart))
  · cases step_proceeds (fun b ↦ (hlives b).1) hstep with
    | ok _ hadvances =>
      obtain ⟨lives', hshows', hlives'⟩ := hadvances
      rw [show st'.log a = _ from (hshows' a).looks.log] at hlog
      rw [show st.log a = _ from hlooks.log]
      rcases hlives' a with heq | hnext
      · exact .inl (heq ▸ hlog)
      · exact hlife.told_of_next hready.waiting hnext hlog

/-- An actor is started, and stops. -/
def stopSteps : List (Step Unit Bool ℕ) :=
  [.register () () true true, .runMailbox (), .nextActor (), .stop (), .handlerReturns ()]

theorem run_callbacks_stop : ∃ st, run (fun _ ↦ false) stopSteps {} = some (.ok st) ∧
    st.log true = [.start, .stop] ∧ Callbacks (st.log true) := by
  have hrun : run (fun _ ↦ false) stopSteps {} = some (.ok _) := rfl
  exact ⟨_, hrun, rfl, (run_callbacks hrun true rfl (.inr inferInstance)).1⟩

/-- A scheduler is cleared before the actor on it has been started. -/
theorem run_clear_unstarted : ∃ st : System Unit Bool ℕ, run (fun _ ↦ false)
    [.register () () false true, .register () () true true, .clear (), .handlerReturns (),
      .clearNext (), .clearNext ()] {} = some (.ok st) ∧
    (st.info true).needStartUp ∧ .stop ∈ st.log true ∧ .start ∉ st.log true :=
  ⟨_, rfl, rfl, List.mem_singleton_self _, fun hmem ↦ by cases List.mem_singleton.mp hmem⟩

end PxcCore.Scheduler.System
