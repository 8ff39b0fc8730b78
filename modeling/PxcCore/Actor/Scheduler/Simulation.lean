import PxcCore.Actor.Scheduler.Shows
import PxcCore.Lib.Result

/-!
# The scheduler leads the lives of the actors

What each function of the scheduler does to the actor that it is called for.
-/

namespace PxcCore.Scheduler.System

open Lib

variable {S A E : Type} [DecidableEq S] [DecidableEq A] {st st' : System S A E} {s d : S} {a : A}
  {x : Life S E} {guard : EventGuard S} {rest : List (A × EventGuard S)} {event : Event E}
  {isOpen told : Bool} {moved : ℕ}

theorem migrateDestFlag_eq (h : Looks moved (st.view a) x) :
    st.migrateDestFlag a = x.place.schedId := h.schedId

theorem isEmpty_mailbox (h : Looks 0 (st.view a) x) :
    (st.info a).mailbox.isEmpty = x.mailbox.isEmpty := by
  rw [show (st.info a).mailbox = _ from h.mailbox, List.replicate_zero, List.nil_append,
    List.isEmpty_map]

/-! ## Lists -/

/-- The actor is taken out of its list. -/
theorem view_removeNode_of_loose (h : Loose s (st.view a).ready (st.view a).pending) :
    (st.removeNode s a).view a = { st.view a with ready := 0, pending := 0 } := by
  rw [view_removeNode h.here, h.update_ready, h.update_pending]

/-- The actor is put into the list that its mailbox calls for. -/
theorem view_put (hready : (st.view a).ready = 0) (hpending : (st.view a).pending = 0) :
    (if (st.info a).mailbox.isEmpty then st.putPending s a else st.putReady s a).view a =
      { st.view a with
        ready := if (st.info a).mailbox.isEmpty then 0 else Pi.single s 1
        pending := if (st.info a).mailbox.isEmpty then Pi.single s 1 else 0 } := by
  split_ifs with hempty
  · rw [view_putPending, hpending]
    exact congrArg (fun ready ↦ { st.view a with ready := ready, pending := Pi.single s 1 }) hready
  · rw [view_putReady, hready]
    exact congrArg (fun pending ↦ { st.view a with ready := Pi.single s 1, pending := pending })
      hpending

theorem listed_resting {isEmpty : Bool} : (Place.resting s).Listed isEmpty
    (if isEmpty then 0 else Pi.single s 1) (if isEmpty then Pi.single s 1 else 0) := by
  cases isEmpty with
  | false => exact ⟨rfl, rfl⟩
  | true => exact ⟨rfl, rfl⟩

/-! ## The end of a run -/

theorem view_popGuard (hstack : (st.sched s).stack = (a, guard) :: rest) :
    (st.modifyLocal s fun sched ↦ { sched with stack := sched.stack.tail }).view a =
      { st.view a with
        frames := Function.update (st.view a).frames s ((st.view a).frames s).tail } := by
  rw [view_modifyLocal rfl]
  simp [view, Local.view, hstack]

theorem finishRun_spec (h : Looks 0 (st.view a) x) (hplace : x.place = .running s guard)
    (hloose : Loose s (st.view a).ready (st.view a).pending)
    (hstack : (st.sched s).stack = (a, guard) :: rest) :
    Shows ((st.finishRun s a).view a) { x with place := .resting s } := by
  have hremove := view_removeNode_of_loose hloose
  set st₁ := if (st.info a).mailbox.isEmpty then (st.removeNode s a).putPending s a
    else (st.removeNode s a).putReady s a with hst₁
  have hput : st₁.view a = { st.view a with
      ready := if (st.info a).mailbox.isEmpty then 0 else Pi.single s 1
      pending := if (st.info a).mailbox.isEmpty then Pi.single s 1 else 0 } := by
    refine (@view_put _ _ _ _ _ (st.removeNode s a) s a ?_ ?_).trans ?_
    all_goals rw [hremove]
    rfl
  have hinfo : st₁.info a = st.info a := congrArg View.info hput
  have hstack₁ : (st₁.sched s).stack = (a, guard) :: rest := by
    rw [hst₁, ← hstack]
    split_ifs <;> simp [putReady, putPending, removeNode]
  have hview : (st.finishRun s a).view a = { st.view a with
      info := { (st.view a).info with isRunning := false }
      ready := if (st.info a).mailbox.isEmpty then 0 else Pi.single s 1
      pending := if (st.info a).mailbox.isEmpty then Pi.single s 1 else 0
      frames := Function.update (st.view a).frames s ((st.view a).frames s).tail } := by
    refine (@view_popGuard _ _ _ _ _ (st₁.modifyInfo a _) _ _ _ _ hstack₁).trans ?_
    rw [view_modifyInfo, hput, hinfo]
    rfl
  rw [hview, isEmpty_mailbox h]
  exact ⟨(h.rest hplace).setLists _ _, listed_resting⟩

/-! ## Stopping -/

theorem destroyActor_spec (h : Looks moved (st.view a) x) (hplace : x.place = .resting s)
    (hloose : Loose s (st.view a).ready (st.view a).pending) :
    ∃ st', st.destroyActor s a = .ok st' ∧
      Shows (st'.view a) { x with place := .gone s, mailbox := [] } := by
  have hdest : (st.migrateDestFlag a).map Prod.fst = some s := by
    rw [migrateDestFlag_eq h, hplace]
    rfl
  refine ⟨_, if_pos hdest, ?_⟩
  rw [view_modifyInfo, view_removeNode_of_loose hloose]
  exact ⟨(h.destroy hplace).setLists 0 0, rfl, rfl⟩

/-- `do_stop_actor` of an actor that rests, which does what another life goes on with. -/
theorem doStopActor_spec {y : Life S E} (hy : y.CanStop s told)
    (hxy : x = { y with place := .resting s })
    (h : Looks 0 (st.view a) x) (hloose : Loose s (st.view a).ready (st.view a).pending) :
    ∃ st', st.doStopActor s a = .ok st' ∧
      ∃ z, Life.Next s isOpen told y z ∧ Shows (st'.view a) z := by
  subst hxy
  have hdest := migrateDestFlag_eq h
  have hneed : (st.info a).needStartUp = y.needStartUp := h.needStartUp
  unfold doStopActor
  rw [hdest, if_neg (by simp [Place.schedId]), if_neg (by simp [Place.schedId]), hneed]
  split_ifs with hstart
  · obtain ⟨st₁, henter, hview⟩ := enter_eq_ok h.isRunning .stop
    refine ⟨st₁.doEvent a .stop, by rw [henter]; rfl, _, .stop hy hstart, ?_, ?_⟩
    · rw [view_doEvent, hview]
      exact (h.enter rfl (show Task.Fits _ .stop from trivial)).process rfl .stop
    · rw [view_doEvent, hview]
      exact hloose
  · obtain ⟨st', hok, hshows⟩ := destroyActor_spec h rfl hloose
    exact ⟨st', hok, _, .destroy hy hstart, hshows⟩

theorem finishStop_spec (h : Shows (st.view a) x) (hplace : x.place = .running s guard)
    (htask : guard.task = .stop) (hstack : (st.sched s).stack = (a, guard) :: rest) :
    ∃ st', st.finishStop s a = .ok st' ∧
      ∃ y, Life.Next s isOpen told x y ∧ Shows (st'.view a) y := by
  have hlooks : Looks 0 ((st.modifyInfo a fun info ↦ { info with mailbox := [] }).view a)
      { x with mailbox := [] } := by
    rw [view_modifyInfo]
    refine h.looks.setMailbox (by rw [hplace]; rfl) rfl ?_
    rw [hplace, Place.Fits, htask]
    trivial
  have hloose := h.listed.loose (by rw [hplace]; rfl)
  have hshows := finishRun_spec hlooks hplace (by rw [view_modifyInfo]; exact hloose) hstack
  obtain ⟨st', hok, hshows'⟩ := destroyActor_spec hshows.looks rfl (hshows.listed.loose rfl)
  exact ⟨st', hok, _, .stopped hplace htask, hshows'⟩

/-! ## Migration -/

theorem startMigrateActor_spec (h : Looks 0 (st.view a) x) (hplace : x.place = .resting s)
    (hloose : Loose s (st.view a).ready (st.view a).pending) (d : S) :
    Shows ((st.startMigrateActor s a d).view a) { x with place := .migrating d } := by
  have hstore := @view_storeSchedId _ _ _ _ _ st s a (d, true)
  rw [startMigrateActor, view_removeNode_of_loose (by rw [hstore]; exact hloose), hstore]
  exact ⟨(h.migrate hplace d).setLists 0 0, rfl, rfl⟩

theorem view_parked : (st.modifyLocal s fun sched ↦
    { sched with pendingEvents :=
      Function.update sched.pendingEvents a (sched.pendingEvents a ++ [event]) }).view a =
      { st.view a with
        parked := Function.update (st.view a).parked s ((st.view a).parked s ++ [event]) } := by
  rw [view_modifyLocal rfl]
  simp [view, Local.view]

theorem view_unparked : (st.modifyLocal s fun sched ↦ { sched with
    pendingEvents := Function.update sched.pendingEvents a [] }).view a =
      { st.view a with parked := Function.update (st.view a).parked s [] } := by
  rw [view_modifyLocal rfl]
  simp [view, Local.view]

theorem view_modifyOutgoing : (st.modifyLocal s fun sched ↦
    { sched with outgoing := sched.outgoing ++ [(d, a)] }).view a = { st.view a with
      outgoing := Function.update (st.view a).outgoing s ((st.view a).outgoing s ++ [d]) } := by
  rw [view_modifyLocal rfl]
  simp [view, Local.view]

theorem doMigrateActor_spec (h : Looks 0 (st.view a) x) (hplace : x.place = .resting s)
    (hloose : Loose s (st.view a).ready (st.view a).pending) (hd : s ≠ d) :
    Shows ((st.doMigrateActor s a d).view a) { x with
      place := .migrating d
      outgoing := Function.update x.outgoing s (x.outgoing s ++ [d]) } := by
  have hshows := startMigrateActor_spec h hplace hloose d
  rw [doMigrateActor, if_neg hd, view_modifyOutgoing, hshows.looks.outgoing]
  exact hshows.setOutgoing (by simp) _

/-! ## The second half of the end of a run -/

theorem leave_spec (h : Looks 0 (st.view a) x) (hplace : x.place = .running s guard)
    (htask : guard.task ≠ .stop) (hloose : Loose s (st.view a).ready (st.view a).pending)
    (hstack : (st.sched s).stack = (a, guard) :: rest) :
    ∃ st', st.leave s a guard = .ok st' ∧
      ∃ y, Life.Next s isOpen told x y ∧ Shows (st'.view a) y := by
  have hshows := finishRun_spec h hplace hloose hstack
  unfold leave
  split_ifs with hstop
  · exact doStopActor_spec (.inr ⟨guard, hplace, htask⟩) rfl hshows.looks (hshows.listed.loose rfl)
  · cases hmigrate : guard.migrate with
    | none => exact ⟨_, rfl, _, .rest hplace htask, hshows⟩
    | some d =>
      refine ⟨_, rfl, ?_⟩
      by_cases hd : s = d
      · rw [doMigrateActor, if_pos hd]
        exact ⟨_, .rest hplace htask, hshows⟩
      · have hmigrated := doMigrateActor_spec hshows.looks rfl (hshows.listed.loose rfl) hd
        exact ⟨_, .migrate d hplace htask (Ne.symm hd), hmigrated⟩

/-! ## Running -/

/-- The next event of the mailbox is processed. -/
theorem doMailboxEvent_spec {events : List (Event E)} (h : Looks moved (st.view a) x)
    (halive : x.place.isAlive) (hmailbox : x.mailbox = event :: events)
    (hfits : x.place.Fits events.length) :
    ∃ st', st.doMailboxEvent a moved = .ok st' ∧ Looks (moved + 1) (st'.view a)
      { x with mailbox := events, log := x.log ++ [event] } ∧
      (st'.view a).ready = (st.view a).ready ∧ (st'.view a).pending = (st.view a).pending := by
  have hevents : (st.info a).mailbox = List.replicate moved none ++ some event :: events.map some :=
    h.mailbox.trans (by rw [hmailbox]; rfl)
  have hget : ((st.info a).mailbox[moved]?).join = some event := by
    rw [hevents]
    simp
  have hset : (st.info a).mailbox.set moved none =
      List.replicate (moved + 1) none ++ events.map some := by
    rw [hevents]
    simp [List.replicate_succ']
  refine ⟨_, by rw [doMailboxEvent, hget], ?_, ?_, ?_⟩
  · rw [view_doEvent, view_modifyInfo]
    exact (h.setMailbox halive hset hfits).process halive event
  · rw [view_doEvent, view_modifyInfo]
  · rw [view_doEvent, view_modifyInfo]

/-- The actor rests, and there are events in its mailbox. -/
theorem flushMailbox_spec {events : List (Event E)} (h : Looks 0 (st.view a) x)
    (hplace : x.place = .resting s) (hmailbox : x.mailbox = event :: events)
    (hloose : Loose s (st.view a).ready (st.view a).pending) :
    ∃ st', st.flushMailbox s a = .ok st' ∧
      ∃ y, Life.Next s isOpen told x y ∧ Shows (st'.view a) y := by
  have hlength : (st.info a).mailbox.length = events.length + 1 := by
    rw [show (st.info a).mailbox = _ from h.mailbox, hmailbox]
    simp
  have hrunning : (st.info a).isRunning = false := h.isRunning.trans (by rw [hplace]; rfl)
  obtain ⟨st₁, henter, hview⟩ := enter_eq_ok hrunning (.flushMailbox 0 (events.length + 1))
  have hlooks : Looks 0 (st₁.view a)
      { x with place := .running s { task := .flushMailbox 0 (events.length + 1) } } := by
    rw [hview]
    refine h.enter hplace ⟨Nat.succ_pos _, ?_⟩
    rw [hmailbox, List.length_cons]
    omega
  obtain ⟨st', hevent, hlooks', hready, hpending⟩ :=
    doMailboxEvent_spec hlooks rfl hmailbox ⟨Nat.succ_pos _, by omega⟩
  refine ⟨st', ?_, _, .flush (events.length + 1) hplace hmailbox, hlooks', ?_⟩
  · simp only [flushMailbox, hlength, henter, Nat.add_one_ne_zero, if_false, ok_bind, hevent]
  · rw [hready, hpending, hview]
    exact hloose

/-- A handler returns. -/
theorem handlerReturns_spec (h : Shows (st.view a) x) (hplace : x.place = .running s guard)
    (hstack : (st.sched s).stack = (a, guard) :: rest) :
    ∃ st', st.handlerReturns s a guard = .ok st' ∧
      ∃ y, Life.Next s isOpen told x y ∧ Shows (st'.view a) y := by
  have hloose := h.listed.loose (by rw [hplace]; rfl)
  have hlooks := h.looks
  rw [hplace, Place.moved] at hlooks
  unfold handlerReturns
  cases htask : guard.task with
  | immediate =>
    rw [htask] at hlooks
    exact leave_spec hlooks hplace (by simp [htask]) hloose hstack
  | stop => exact finishStop_spec h hplace htask hstack
  | flushMailbox i n =>
    rw [htask] at hlooks
    obtain ⟨hlt, hle⟩ : i < n ∧ n ≤ i + 1 + x.mailbox.length := by
      have hfits := hlooks.fits
      rwa [hplace, Place.Fits, htask] at hfits
    simp only
    split_ifs with hnext
    · obtain ⟨event, events, hmailbox⟩ := List.exists_cons_of_length_pos
        (show 0 < x.mailbox.length by omega)
      have hset : Looks (i + 1)
          ((st.setGuard s a { guard with task := .flushMailbox (i + 1) n }).view a)
          { x with place := .running s { guard with task := .flushMailbox (i + 1) n } } := by
        rw [view_setGuard hstack]
        exact hlooks.setGuard hplace ⟨hnext.1, by omega⟩
      rw [hmailbox, List.length_cons] at hle
      obtain ⟨st', hevent, hlooks', hready, hpending⟩ :=
        doMailboxEvent_spec hset rfl hmailbox ⟨hnext.1, by omega⟩
      refine ⟨st', hevent, _, .flushNext hplace htask hmailbox, hlooks', ?_⟩
      rw [hready, hpending, view_setGuard hstack]
      exact hloose
    · have hdrop : ((st.info a).mailbox.drop (i + 1)) = x.mailbox.map some := by
        rw [show (st.info a).mailbox = _ from hlooks.mailbox]
        simp [Task.moved]
      have hlooks' : Looks 0 ((st.modifyInfo a fun info ↦
          { info with mailbox := info.mailbox.drop (i + 1) }).view a) x := by
        rw [view_modifyInfo]
        exact hlooks.setMailbox (by rw [hplace]; rfl) hdrop hlooks.fits
      refine leave_spec hlooks' hplace (by simp [htask]) ?_ hstack
      rw [view_modifyInfo]
      exact hloose

/-! ## Sending -/

theorem addToMailbox_spec (h : Looks x.place.moved (st.view a) x) (hhome : x.place.home = some s)
    (hloose : Loose s (st.view a).ready (st.view a).pending) (event : Event E) :
    Shows ((st.addToMailbox s a event).view a) { x with mailbox := x.mailbox ++ [event] } := by
  have hmailbox : (st.info a).mailbox ++ [some event] =
      List.replicate x.place.moved none ++ (x.mailbox ++ [event]).map some := by
    rw [show (st.info a).mailbox = _ from h.mailbox]
    simp
  have hfits : x.place.Fits (x.mailbox ++ [event]).length :=
    h.fits.mono (by rw [List.length_append]; exact Nat.le_add_right _ _)
  have hlooks := h.setMailbox (Place.isAlive_of_home hhome) hmailbox hfits
  obtain hplace | ⟨guard, hplace⟩ := Place.home_eq_some.mp hhome
  · have hrunning : (st.info a).isRunning = false := h.isRunning.trans (by rw [hplace]; rfl)
    rw [addToMailbox, hrunning]
    simp only [Bool.false_eq_true, if_false]
    rw [view_modifyInfo, view_putReady, view_removeNode_of_loose hloose]
    refine ⟨hlooks.setLists _ _, ?_⟩
    simp [hplace, Place.Listed, Pi.single]
  · have hrunning : (st.info a).isRunning = true := h.isRunning.trans (by rw [hplace]; rfl)
    rw [addToMailbox, hrunning, if_pos rfl, view_modifyInfo]
    refine ⟨hlooks, ?_⟩
    rw [hplace]
    exact hloose

theorem sendToScheduler_spec (h : Shows (st.view a) x) (hborn : x.place ≠ .unborn)
    (hd : d = s → x.place = .migrating s) (event : Event E) :
    ∃ y, Life.Delivers s event x y ∧ Shows ((st.sendToScheduler s d a event).view a) y := by
  unfold sendToScheduler
  split_ifs with heq
  · refine ⟨_, .park (hd heq), ?_⟩
    rw [view_parked, h.looks.parked]
    exact h.setParked hborn _
  · refine ⟨_, .forward d heq, ?_⟩
    rw [view_writerPut_event, h.looks.inbound]
    exact h.setInbound hborn _

/-- An event comes to `s`, which loads a value of `sched_id_`. -/
theorem deliver_spec (h : Shows (st.view a) x) (halive : x.place.isAlive) {j : ℕ}
    {schedId : S × Bool} (hj : (st.view a).seen s ≤ j)
    (hload : (st.info a).schedIds[j]? = some schedId) (sendType : ActorSendType)
    (event : Event E) : ∃ st', st.deliver s schedId sendType a event = .ok st' ∧
      ∃ y, Life.Delivers s event x y ∧ Shows (st'.view a) y := by
  -- A value that names `s` is the last one.
  have hlast (hs : schedId.1 = s) : x.place.schedId = some (s, schedId.2) := by
    subst hs
    exact h.looks.schedId.symm.trans (h.looks.known.getLast? hj hload)
  have hhome (hcurrent : (!schedId.2 && decide (s = schedId.1)) = true) :
      x.place.home = some s := by
    simp only [Bool.and_eq_true, Bool.not_eq_true', decide_eq_true_eq] at hcurrent
    refine Place.home_of_schedId halive ?_
    rw [hlast hcurrent.2.symm, hcurrent.1]
  simp only [deliver]
  split_ifs with hrun hqueue
  · obtain ⟨-, hcurrent, hidle, hempty⟩ := hrun
    have hidle : (st.info a).isRunning = false := by simpa using hidle
    have hplace := h.resting (hhome hcurrent) hidle
    have hlooks := h.looks_of_resting hplace
    have hmailbox : x.mailbox = [] := by
      rwa [isEmpty_mailbox hlooks, List.isEmpty_iff] at hempty
    obtain ⟨st₁, henter, hview⟩ := enter_eq_ok hidle .immediate
    refine ⟨st₁.doEvent a event, by rw [henter]; rfl, _, .run hplace hmailbox, ?_, ?_⟩
    · rw [view_doEvent, hview]
      exact (hlooks.enter hplace (show Task.Fits _ .immediate from trivial)).process rfl event
    · rw [view_doEvent, hview]
      exact h.listed.loose (hhome hcurrent)
  · exact ⟨_, rfl, _, .queue (hhome hqueue),
      addToMailbox_spec h.looks (hhome hqueue) (h.listed.loose (hhome hqueue)) event⟩
  · have hmigrating (hs : schedId.1 = s) : x.place = .migrating s := by
      refine Place.migrating_of_schedId ?_
      rw [hlast hs]
      cases hmoving : schedId.2 with
      | true => rfl
      | false => simp [hmoving, hs] at hqueue
    obtain ⟨y, hdelivers, hshows⟩ :=
      sendToScheduler_spec h (Life.ne_unborn_of_isAlive halive) hmigrating event
    exact ⟨_, rfl, y, hdelivers, hshows⟩

omit [DecidableEq S] in
theorem view_sent (st : System S A E) (a : A) (event : Event E) :
    { st with sent := Function.update st.sent a (st.sent a ++ [event]) }.view a =
      { st.view a with sent := (st.view a).sent ++ [event] } := by
  simp [view]

/-- A new event is sent to an actor that is there. -/
theorem send_spec (h : Shows (st.view a) x) (haccepts : st.Accepts s a) {j : ℕ}
    {schedId : S × Bool} (hj : (st.view a).seen s ≤ j)
    (hload : (st.info a).schedIds[j]? = some schedId) (sendType : ActorSendType) (data : E) :
    ∃ st', st.send s schedId sendType a (.data data) = .ok st' ∧
      ∃ y, Life.Next s true told x y ∧ Shows (st'.view a) y := by
  have halive : x.place.isAlive := h.looks.isAlive ▸ haccepts.1
  have hsent := view_sent st a (.data data)
  have hshows : Shows ({ st with
      sent := Function.update st.sent a (st.sent a ++ [Event.data data]) }.view a)
      { x with sent := x.sent ++ [.data data] } := by
    rw [hsent]
    exact h.send halive _
  obtain ⟨st', hdeliver, y, hdelivers, hshows'⟩ := deliver_spec hshows halive
    (by rw [hsent]; exact hj) hload sendType (.data data)
  exact ⟨st', (if_pos haccepts).trans hdeliver, y, .send data rfl halive hdelivers, hshows'⟩

/-! ## Registering -/

theorem eq_unborn (h : Shows (st.view a) x) (hnew : (st.info a).schedIds = []) : x = {} := by
  refine h.looks.unborn ?_
  have hschedId := h.looks.schedId
  rw [show (st.view a).info.schedIds = [] from hnew] at hschedId
  cases hplace : x.place with
  | unborn => rfl
  | _ => simp [hplace, Place.schedId] at hschedId

/-- The actor is registered, and in no list yet. -/
theorem init_spec (h : Shows (st.view a) {}) (needStartUp : Bool) :
    Looks 0 (((st.see s a 0).modifyInfo a fun _ ↦
      { isAlive := true, needStartUp := needStartUp, schedIds := [(s, false)] }).view a)
      { place := .resting s, needStartUp := needStartUp } := by
  rw [view_modifyInfo, view_see]
  exact { h.looks with
    isAlive := rfl
    needStartUp := rfl
    mailbox := rfl
    isRunning := rfl
    schedId := rfl
    known := fun t j hj _ ↦ by
      cases j with
      | zero => rfl
      | succ j => simp at hj
    fits := trivial
    unborn := fun hunborn ↦ by cases hunborn }

/-- A closing scheduler sends nothing. -/
theorem send_of_closed (hclosed : (st.sched s).phase ≠ .open) (schedId : S × Bool)
    (sendType : ActorSendType) (event : Event E) : st.send s schedId sendType a event = .ok st :=
  if_neg fun h ↦ hclosed h.2

/-- A `Start` event is put into the mailbox. -/
theorem send_start (h : Looks 0 (st.view a) x) (hplace : x.place = .resting s)
    (hloose : Loose s (st.view a).ready (st.view a).pending)
    (hopen : (st.sched s).phase = .open) :
    ∃ st', st.send s (s, false) .later a .start = .ok st' ∧
      Shows (st'.view a)
        { x with mailbox := x.mailbox ++ [.start], sent := x.sent ++ [.start] } := by
  have halive : x.place.isAlive := by rw [hplace]; rfl
  have hmoved : x.place.moved = 0 := by rw [hplace]; rfl
  have haccepts : st.Accepts s a := ⟨h.isAlive.trans halive, hopen⟩
  have hsent := view_sent st a .start
  have hlooks := h.send halive .start
  refine ⟨_, (if_pos haccepts).trans (by simp [deliver]; rfl), ?_⟩
  refine addToMailbox_spec (x := { x with sent := x.sent ++ [.start] }) ?_ ?_ ?_ .start
  · rw [hsent, hmoved]
    exact hlooks
  · rw [hplace]
    rfl
  · rw [hsent]
    exact hloose

theorem registerActorImpl_spec (h : Shows (st.view a) x) (hnew : (st.info a).schedIds = [])
    (d : S) (needStartUp : Bool) :
    ∃ st', st.registerActorImpl s d a needStartUp = .ok st' ∧
      ∃ y, Life.Next s (decide ((st.sched s).phase = .open)) told x y ∧ Shows (st'.view a) y := by
  obtain rfl := eq_unborn h hnew
  have hlooks := init_spec (s := s) h needStartUp
  set st₁ := (st.see s a 0).modifyInfo a fun _ ↦
    { isAlive := true, needStartUp := needStartUp, schedIds := [(s, false)] } with hst₁
  have hphase : (st₁.sched s).phase = (st.sched s).phase := by simp [hst₁, see]
  have hview : (st₁.view a).ready = 0 ∧ (st₁.view a).pending = 0 := by
    rw [hst₁, view_modifyInfo, view_see]
    exact h.listed
  have hloose : Loose s (st₁.view a).ready (st₁.view a).pending := by
    rw [hview.1, hview.2]
    exact ⟨zero_le_one, fun _ _ ↦ ⟨rfl, rfl⟩⟩
  have hput : Shows ((st₁.putPending s a).view a)
      { place := .resting s, needStartUp := needStartUp } := by
    rw [view_putPending, hview.2]
    exact ⟨hlooks.setLists _ _, hview.1, by simp [Pi.single]⟩
  have hphase' : ((st₁.putPending s a).sched s).phase = (st.sched s).phase := by
    rw [← hphase]
    simp [putPending]
  unfold registerActorImpl
  simp only [← hst₁]
  split_ifs with hd hneed
  · by_cases hopen : (st.sched s).phase = .open
    · obtain ⟨st₂, hsend, hshows⟩ := send_start hlooks rfl hloose (hphase.trans hopen)
      have hmigrated := doMigrateActor_spec hshows.looks rfl (hshows.listed.loose rfl) (Ne.symm hd)
      refine ⟨_, by rw [hsend]; rfl, _, .register d needStartUp, ?_⟩
      simpa [Life.born, hopen, hd] using hmigrated
    · have hmigrated := doMigrateActor_spec hlooks rfl hloose (Ne.symm hd)
      refine ⟨_, by rw [send_of_closed (hphase ▸ hopen)]; rfl, _, .register d needStartUp, ?_⟩
      simpa [Life.born, hopen, hd] using hmigrated
  · by_cases hopen : (st.sched s).phase = .open
    · obtain ⟨st₂, hsend, hshows⟩ :=
        send_start hput.looks rfl (hput.listed.loose rfl) (hphase'.trans hopen)
      refine ⟨st₂, hsend, _, .register d needStartUp, ?_⟩
      simpa [Life.born, hopen, not_not.mp hd, hneed] using hshows
    · refine ⟨_, send_of_closed (hphase' ▸ hopen) _ _ _, _, .register d needStartUp, ?_⟩
      simpa [Life.born, hopen, not_not.mp hd, hneed] using hput
  · refine ⟨_, rfl, _, .register d needStartUp, ?_⟩
    simpa [Life.born, not_not.mp hd, hneed] using hput

/-- The actor arrives. -/
theorem registerMigratedActor_spec (h : Shows (st.view a) x) (hplace : x.place = .migrating s) :
    ∃ st', st.registerMigratedActor s a = .ok st' ∧ Shows (st'.view a) (x.arrived s) := by
  have hdest := migrateDestFlag_eq h.looks
  rw [hplace] at hdest
  unfold registerMigratedActor
  rw [hdest, if_neg (by simp [Place.schedId]), if_neg (by simp [Place.schedId])]
  have hlooks := h.looks
  have hlisted := h.listed
  rw [hplace] at hlooks hlisted
  have hstore := @view_storeSchedId _ _ _ _ _ st s a (s, false)
  have hparked : ((st.storeSchedId s a (s, false)).sched s).pendingEvents a =
      (st.view a).parked s := by
    simp [storeSchedId, see, view, Local.view]
  set st₁ := ((st.storeSchedId s a (s, false)).modifyInfo a fun info ↦
    { info with
      mailbox := info.mailbox ++
        (((st.storeSchedId s a (s, false)).sched s).pendingEvents a).map some }).modifyLocal s
    fun sched ↦ { sched with pendingEvents := Function.update sched.pendingEvents a [] } with hst₁
  have hview : st₁.view a = { st.view a with
      info := { (st.view a).info with
        schedIds := (st.view a).info.schedIds ++ [(s, false)]
        mailbox := (st.view a).info.mailbox ++ ((st.view a).parked s).map some }
      parked := Function.update (st.view a).parked s []
      seen := Function.update (st.view a).seen s (st.view a).info.schedIds.length } := by
    have hinfo : (st.storeSchedId s a (s, false)).info a = _ := congrArg View.info hstore
    rw [hst₁, view_unparked, view_modifyInfo, hstore, hparked, hinfo]
  have hlooks₁ : Looks 0 (st₁.view a) (x.arrived s) := by
    rw [hview]
    exact hlooks.arrived hplace
  refine ⟨if (st₁.info a).mailbox.isEmpty then st₁.putPending s a else st₁.putReady s a, rfl, ?_⟩
  rw [view_put, isEmpty_mailbox hlooks₁]
  · exact ⟨hlooks₁.setLists _ _, listed_resting⟩
  · rw [hview]
    exact hlisted.1
  · rw [hview]
    exact hlisted.2

end PxcCore.Scheduler.System
