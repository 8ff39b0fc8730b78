import Mathlib

/-!
# Timeouts

A client sets timeouts for keys, and a setting replaces the one that its key has.  From time to time
a loop starts, which takes the settings that are due out and delivers them one after the other;
while it does, the client may go on, and other loops may start.
-/

namespace PxcCore.Lib.Timeouts

variable {Key Time : Type*} [DecidableEq Key] [LinearOrder Time]

/-- One setting of a key. -/
structure Setting (Key Time : Type*) where
  number : ℕ
  key : Key
  timeout : Time

/-- Why a loop delivers settings: their time has come, or they are less than a bound. -/
inductive Source (Time : Type*) where
  | clock
  | bound (time : Time)

/-- The settings that a loop has not delivered yet. -/
structure Batch (Key Time : Type*) where
  source : Source Time
  settings : List (Setting Key Time)

structure Delivery (Key Time : Type*) where
  source : Source Time
  setting : Setting Key Time
  now : Time

inductive Event (Key Time : Type*) where
  | set (key : Key) (timeout : Time)
  /-- The key is set if it is not set already. -/
  | add (key : Key) (timeout : Time)
  | cancel (key : Key)
  | tick (now : Time)
  | start (source : Source Time)
  | deliver (key : Key)
  | finish

/-- Where the settings are; the loop that was started last comes first in `due`. -/
structure History (Key Time : Type*) where
  now : Time
  count : ℕ := 0
  active : List (Setting Key Time) := []
  withdrawn : List (Setting Key Time) := []
  due : List (Batch Key Time) := []
  delivered : List (Delivery Key Time) := []

namespace History

/-- The key is not set any more. -/
def withdraw (t : History Key Time) (key : Key) : History Key Time :=
  { t with
    active := t.active.filter (·.key ≠ key)
    withdrawn := t.withdrawn ++ t.active.filter (·.key = key) }

def set (t : History Key Time) (key : Key) (timeout : Time) : History Key Time :=
  { t.withdraw key with
    count := t.count + 1
    active := (t.withdraw key).active ++ [⟨t.count, key, timeout⟩] }

/-- The settings before this time are due. -/
def limit (t : History Key Time) : Source Time → Time
  | .clock => t.now
  | .bound time => time

def start (t : History Key Time) (source : Source Time) : History Key Time :=
  { t with
    active := t.active.filter fun setting ↦ ¬setting.timeout < t.limit source
    due := ⟨source, t.active.filter (·.timeout < t.limit source)⟩ :: t.due }

/-- The next event, if it may happen. -/
def track (t : History Key Time) : Event Key Time → Option (History Key Time)
  | .set key timeout => some (t.set key timeout)
  | .add key timeout => some (if key ∈ t.active.map Setting.key then t else t.set key timeout)
  | .cancel key => some (t.withdraw key)
  | .tick now => if t.now ≤ now then some { t with now := now } else none
  | .start source => some (t.start source)
  | .deliver key =>
    match t.due with
    | [] => none
    | batch :: due =>
      match batch.settings.find? (·.key = key) with
      | none => none
      | some setting => some { t with
          due := { batch with
            settings := batch.settings.eraseP (·.key = key) } :: due
          delivered := t.delivered ++ [⟨batch.source, setting, t.now⟩] }
  | .finish =>
    match t.due with
    | ⟨_, []⟩ :: due => some { t with due := due }
    | _ => none

/-- All settings, wherever they are. -/
def settings (t : History Key Time) : List (Setting Key Time) :=
  t.active ++ (t.withdrawn ++ (t.due.flatMap Batch.settings ++ t.delivered.map Delivery.setting))

/-- Each setting is in one place, and what the clock makes due has a time that is over. -/
structure Sound (t : History Key Time) : Prop where
  settings : (t.settings.map Setting.number).Perm (List.range t.count)
  due : ∀ batch ∈ t.due, batch.source = .clock →
    ∀ setting ∈ batch.settings, setting.timeout < t.now
  delivered : ∀ delivery ∈ t.delivered, delivery.source = .clock →
    delivery.setting.timeout < delivery.now

variable {t t' : History Key Time} {event : Event Key Time} {events : List (Event Key Time)}
  {key : Key} {timeout : Time}

omit [DecidableEq Key] in
theorem Sound.init (now : Time) : Sound (⟨now, 0, [], [], [], []⟩ : History Key Time) where
  settings := .nil
  due := List.forall_mem_nil _
  delivered := List.forall_mem_nil _

omit [LinearOrder Time] in
theorem settings_withdraw (t : History Key Time) (key : Key) :
    (t.withdraw key).settings.Perm t.settings := by
  have hperm := List.filter_append_perm (fun setting ↦ decide (setting.key = key)) t.active
  rw [settings, settings, withdraw]
  simp only [← Multiset.coe_eq_coe, ← Multiset.coe_add] at hperm ⊢
  rw [← hperm]
  simp only [decide_not]
  abel

theorem Sound.withdraw (h : Sound t) (key : Key) : Sound (t.withdraw key) where
  settings := ((settings_withdraw t key).map _).trans h.settings
  due := h.due
  delivered := h.delivered

theorem Sound.set (h : Sound t) (key : Key) (timeout : Time) : Sound (t.set key timeout) where
  settings := by
    have hperm : (t.set key timeout).settings.Perm
        ((t.withdraw key).settings ++ [⟨t.count, key, timeout⟩]) := by
      rw [History.settings, History.settings, History.set, List.append_assoc, List.append_assoc]
      exact List.perm_append_comm.append_left _
    refine (hperm.map _).trans ?_
    rw [List.map_append]
    show List.Perm _ (List.range (t.count + 1))
    rw [List.range_succ]
    exact (h.withdraw key).settings.append_right _
  due := h.due
  delivered := h.delivered

omit [DecidableEq Key] in
theorem settings_start (t : History Key Time) (source : Source Time) :
    (t.start source).settings.Perm t.settings := by
  have hperm := List.filter_append_perm
    (fun setting ↦ decide (setting.timeout < t.limit source)) t.active
  rw [settings, settings, start, List.flatMap_cons]
  simp only [← Multiset.coe_eq_coe, ← Multiset.coe_add] at hperm ⊢
  rw [← hperm]
  simp only [decide_not]
  abel

omit [DecidableEq Key] in
theorem Sound.start (h : Sound t) (source : Source Time) : Sound (t.start source) where
  settings := ((settings_start t source).map _).trans h.settings
  due batch hbatch hsource setting hsetting := by
    rcases List.mem_cons.1 hbatch with rfl | hbatch
    · obtain rfl : source = .clock := hsource
      exact of_decide_eq_true (List.mem_filter.1 hsetting).2
    · exact h.due batch hbatch hsource setting hsetting
  delivered := h.delivered

omit [DecidableEq Key] in
theorem Sound.tick (h : Sound t) {now : Time} (hle : t.now ≤ now) :
    Sound { t with now := now } where
  settings := h.settings
  due batch hbatch hsource setting hsetting :=
    (h.due batch hbatch hsource setting hsetting).trans_le hle
  delivered := h.delivered

theorem perm_cons_eraseP {α : Type*} {p : α → Bool} {l : List α} {a : α}
    (h : l.find? p = some a) : l.Perm (a :: l.eraseP p) := by
  induction l with
  | nil => cases h
  | cons b l ih =>
    rw [List.find?_cons] at h
    cases hb : p b with
    | true =>
      rw [hb] at h
      obtain rfl := Option.some.inj h
      rw [List.eraseP_cons_of_pos hb]
    | false =>
      rw [hb] at h
      rw [List.eraseP_cons_of_neg (by rw [hb]; exact Bool.false_ne_true)]
      exact ((ih h).cons b).trans (.swap a b _)

omit [DecidableEq Key] in
/-- A setting of the loop that was started last is delivered. -/
theorem Sound.deliver (h : Sound t) {batch : Batch Key Time} {due : List (Batch Key Time)}
    (hdue : t.due = batch :: due) {setting : Setting Key Time}
    {settings : List (Setting Key Time)} (hperm : batch.settings.Perm (setting :: settings)) :
    Sound { t with
      due := { batch with settings := settings } :: due
      delivered := t.delivered ++ [⟨batch.source, setting, t.now⟩] } where
  settings := by
    refine List.Perm.trans (List.Perm.map _ ?_) h.settings
    rw [History.settings, History.settings, hdue, List.flatMap_cons, List.flatMap_cons,
      List.map_append]
    simp only [← Multiset.coe_eq_coe, ← Multiset.coe_add] at hperm ⊢
    rw [hperm, List.map_singleton, Multiset.coe_singleton, ← Multiset.cons_coe,
      ← Multiset.singleton_add]
    abel
  due batch' hbatch' hsource other hother := by
    rcases List.mem_cons.1 hbatch' with rfl | hbatch'
    · exact h.due batch (hdue ▸ List.mem_cons_self) hsource other
        (hperm.mem_iff.2 (List.mem_cons_of_mem _ hother))
    · exact h.due batch' (hdue ▸ List.mem_cons_of_mem _ hbatch') hsource other hother
  delivered delivery hdelivery hsource := by
    rcases List.mem_append.1 hdelivery with hdelivery | hdelivery
    · exact h.delivered delivery hdelivery hsource
    · obtain rfl := List.mem_singleton.1 hdelivery
      exact h.due batch (hdue ▸ List.mem_cons_self) hsource setting
        (hperm.mem_iff.2 List.mem_cons_self)

/-- Every event keeps the settings in their places. -/
theorem Sound.track (h : Sound t) (ht : t.track event = some t') : Sound t' := by
  cases event with
  | set key timeout =>
    obtain rfl := Option.some.inj ht
    exact h.set key timeout
  | add key timeout =>
    obtain rfl := Option.some.inj ht
    split_ifs
    · exact h
    · exact h.set key timeout
  | cancel key =>
    obtain rfl := Option.some.inj ht
    exact h.withdraw key
  | tick now =>
    rw [History.track] at ht
    split_ifs at ht with hle
    obtain rfl := Option.some.inj ht
    exact h.tick hle
  | start source =>
    obtain rfl := Option.some.inj ht
    exact h.start source
  | deliver key =>
    rw [History.track] at ht
    cases hdue : t.due with
    | nil =>
      rw [hdue] at ht
      cases ht
    | cons batch due =>
      rw [hdue] at ht
      cases hfind : batch.settings.find? (·.key = key) with
      | none =>
        simp only [hfind] at ht
        cases ht
      | some setting =>
        simp only [hfind] at ht
        obtain rfl := Option.some.inj ht
        exact h.deliver hdue (perm_cons_eraseP hfind)
  | finish =>
    rw [History.track] at ht
    rcases hdue : t.due with _ | ⟨⟨source, _ | ⟨setting, settings⟩⟩, due⟩
    · rw [hdue] at ht
      cases ht
    · rw [hdue] at ht
      obtain rfl := Option.some.inj ht
      refine ⟨?_, fun batch hbatch ↦ h.due batch (hdue ▸ List.mem_cons_of_mem _ hbatch),
        h.delivered⟩
      have hsettings := h.settings
      rw [History.settings, hdue] at hsettings
      exact hsettings
    · rw [hdue] at ht
      cases ht

/-! ## Deliveries -/

omit [DecidableEq Key] in
theorem Sound.nodup (h : Sound t) : (t.settings.map Setting.number).Nodup :=
  h.settings.nodup_iff.2 List.nodup_range

omit [DecidableEq Key] in
/-- No setting is delivered twice. -/
theorem Sound.delivered_nodup (h : Sound t) :
    (t.delivered.map fun delivery ↦ delivery.setting.number).Nodup := by
  have hnodup := h.nodup
  rw [History.settings, List.map_append, List.map_append, List.map_append, List.map_map] at hnodup
  exact hnodup.of_append_right.of_append_right.of_append_right

omit [DecidableEq Key] in
/-- A setting that was withdrawn is not delivered. -/
theorem Sound.ne_withdrawn (h : Sound t) {delivery : Delivery Key Time}
    (hdelivery : delivery ∈ t.delivered) {setting : Setting Key Time}
    (hsetting : setting ∈ t.withdrawn) : delivery.setting.number ≠ setting.number := by
  have hnodup := h.nodup
  rw [History.settings, List.map_append, List.map_append, List.map_append] at hnodup
  have hdisjoint := List.disjoint_of_nodup_append hnodup.of_append_right
  intro heq
  refine hdisjoint (List.mem_map_of_mem hsetting) (List.mem_append_right _ ?_)
  rw [← heq]
  exact List.mem_map_of_mem (List.mem_map_of_mem hdelivery)

/-! ## Runs -/

/-- What the events of a run do. -/
def history (now : Time) (events : List (Event Key Time)) : Option (History Key Time) :=
  events.foldlM track ⟨now, 0, [], [], [], []⟩

theorem history_concat (now : Time) (ht : history now events = some t) (event : Event Key Time) :
    history now (events ++ [event]) = t.track event := by
  rw [history, List.foldlM_append]
  show history now events >>= _ = _
  rw [ht]
  exact Option.bind_eq_bind.symm ▸ bind_pure _

theorem Sound.of_history {now : Time} (ht : history now events = some t) : Sound t := by
  induction events using List.reverseRecOn generalizing t with
  | nil =>
    obtain rfl := Option.some.inj ht
    exact .init now
  | append_singleton events event ih =>
    cases hevents : history now events with
    | none =>
      rw [history, List.foldlM_append] at ht
      change history now events >>= _ = _ at ht
      rw [hevents] at ht
      cases ht
    | some t₁ =>
      rw [history_concat now hevents] at ht
      exact (ih hevents).track ht

end History

end PxcCore.Lib.Timeouts
