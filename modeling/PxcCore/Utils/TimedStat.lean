import Mathlib

/-!
# `TimedStat`

`TimedStat.h`, with rational numbers for times and any statistic that is built up event by event.
Two statistics overlap; when the newer one is old enough, it takes the place of the older one.
-/

namespace PxcCore

/-- `TimedStat` -/
structure TimedStat (StatT : Type*) where
  duration : ℚ
  current : StatT
  currentTimestamp : ℚ
  next : StatT
  nextTimestamp : ℚ

namespace TimedStat

/-! ## Operations -/

section Operations

variable {StatT EventT : Type*} (empty : StatT) (onEvent : StatT → EventT → StatT)

/-- `TimedStat(duration, now)` -/
def new (duration now : ℚ) : TimedStat StatT := ⟨duration, empty, now - 1, empty, now⟩

/-- `update`, with the time that it leaves in `now`. -/
def update (s : TimedStat StatT) (now : ℚ) : TimedStat StatT × ℚ :=
  let now := if now < s.nextTimestamp then s.nextTimestamp else now
  if s.duration = 0 then (s, now)
  else if s.nextTimestamp + 2 * s.duration < now then
    (⟨s.duration, empty, now - s.duration, empty, now⟩, now)
  else if s.nextTimestamp + s.duration < now then
    (⟨s.duration, s.next, s.nextTimestamp, empty, now⟩, now)
  else (s, now)

/-- `add_event` -/
def addEvent (s : TimedStat StatT) (e : EventT) (now : ℚ) : TimedStat StatT :=
  let s := (s.update empty now).1
  { s with current := onEvent s.current e, next := onEvent s.next e }

/-- `get_stat` -/
def getStat (s : TimedStat StatT) (now : ℚ) : StatT × TimedStat StatT :=
  let s := (s.update empty now).1
  (s.current, s)

/-- `stat_duration` -/
def statDuration (s : TimedStat StatT) (now : ℚ) : (StatT × ℚ) × TimedStat StatT :=
  let (s, now) := s.update empty now
  ((s.current, now - s.currentTimestamp), s)

end Operations

/-! ## Runs -/

section Runs

variable {StatT EventT : Type*} {empty : StatT} {onEvent : StatT → EventT → StatT}

variable (empty onEvent) in
/-- The statistic of these events. -/
def statOf (events : List (EventT × ℚ)) : StatT := (events.map Prod.fst).foldl onEvent empty

variable (empty onEvent) in
/-- What a run leads to: the events so far, with their times, and the time of the last call. The
times of a run, from that of the constructor on, never decrease. -/
inductive Reachable (duration : ℚ) : List (EventT × ℚ) → ℚ → TimedStat StatT → Prop
  | new (now : ℚ) : Reachable duration [] now (new empty duration now)
  | addEvent {history : List (EventT × ℚ)} {last now : ℚ} {s : TimedStat StatT}
    (h : Reachable duration history last s) (hle : last ≤ now) (e : EventT) :
    Reachable duration (history ++ [(e, now)]) now (s.addEvent empty onEvent e now)
  | getStat {history : List (EventT × ℚ)} {last now : ℚ} {s : TimedStat StatT}
    (h : Reachable duration history last s) (hle : last ≤ now) :
    Reachable duration history now (s.getStat empty now).2
  | statDuration {history : List (EventT × ℚ)} {last now : ℚ} {s : TimedStat StatT}
    (h : Reachable duration history last s) (hle : last ≤ now) :
    Reachable duration history now (s.statDuration empty now).2

variable (empty onEvent) in
/-- The events that neither statistic has, those that only the older one has and those of both. -/
structure Inv (duration : ℚ) (old middle recent : List (EventT × ℚ)) (last : ℚ)
    (s : TimedStat StatT) : Prop where
  duration_eq : s.duration = duration
  current : s.current = statOf empty onEvent (middle ++ recent)
  next : s.next = statOf empty onEvent recent
  timestamp_le : s.nextTimestamp ≤ last
  le_timestamp : last ≤ s.nextTimestamp + duration
  old_lt : ∀ e ∈ old, e.2 + duration < s.nextTimestamp
  middle_le : ∀ e ∈ middle, e.2 ≤ s.nextTimestamp
  le_middle : ∀ e ∈ middle, s.nextTimestamp ≤ e.2 + 2 * duration
  le_recent : ∀ e ∈ recent, s.nextTimestamp ≤ e.2
  recent_le : ∀ e ∈ recent, e.2 ≤ last

variable {duration last now : ℚ} {old middle recent history : List (EventT × ℚ)}
variable {s : TimedStat StatT}

theorem statOf_append_singleton (events : List (EventT × ℚ)) (e : EventT) (now : ℚ) :
    statOf empty onEvent (events ++ [(e, now)]) = onEvent (statOf empty onEvent events) e := by
  rw [statOf, statOf, List.map_append, List.foldl_append]
  rfl

theorem Inv.update_eq (hduration : 0 < duration)
    (h : Inv empty onEvent duration old middle recent last s) (hle : last ≤ now) :
    (s.update empty now).1 =
      if s.nextTimestamp + 2 * duration < now then ⟨duration, empty, now - duration, empty, now⟩
      else if s.nextTimestamp + duration < now then
        ⟨duration, s.next, s.nextTimestamp, empty, now⟩
      else s := by
  have hnow : ¬now < s.nextTimestamp := not_lt.mpr (h.timestamp_le.trans hle)
  rw [TimedStat.update]
  simp only [if_neg hnow, h.duration_eq, if_neg hduration.ne']
  split_ifs <;> rfl

/-- A long gap: both statistics start anew. -/
theorem Inv.restart (hduration : 0 < duration)
    (h : Inv empty onEvent duration old middle recent last s)
    (hgap : s.nextTimestamp + 2 * duration < now) :
    Inv empty onEvent duration (old ++ (middle ++ recent)) [] [] now
      ⟨duration, empty, now - duration, empty, now⟩ where
  duration_eq := rfl
  current := rfl
  next := rfl
  timestamp_le := le_rfl
  le_timestamp := le_add_of_nonneg_right hduration.le
  old_lt e he := by
    show e.2 + duration < now
    have hlast := h.le_timestamp
    rcases List.mem_append.mp he with hold | he
    · linarith [h.old_lt e hold]
    · rcases List.mem_append.mp he with hmiddle | hrecent
      · linarith [h.middle_le e hmiddle]
      · linarith [h.recent_le e hrecent]
  middle_le := by simp
  le_middle := by simp
  le_recent := by simp
  recent_le := by simp

/-- A short gap: the newer statistic takes the place of the older one. -/
theorem Inv.rotate (hduration : 0 < duration)
    (h : Inv empty onEvent duration old middle recent last s) (hle : last ≤ now)
    (hgap : s.nextTimestamp + duration < now) (hshort : now ≤ s.nextTimestamp + 2 * duration) :
    Inv empty onEvent duration (old ++ middle) recent [] now
      ⟨duration, s.next, s.nextTimestamp, empty, now⟩ where
  duration_eq := rfl
  current := by rw [List.append_nil, h.next]
  next := rfl
  timestamp_le := le_rfl
  le_timestamp := le_add_of_nonneg_right hduration.le
  old_lt e he := by
    show e.2 + duration < now
    rcases List.mem_append.mp he with hold | hmiddle
    · linarith [h.old_lt e hold]
    · linarith [h.middle_le e hmiddle]
  middle_le e he := (h.recent_le e he).trans hle
  le_middle e he := by
    show now ≤ e.2 + 2 * duration
    linarith [h.le_recent e he]
  le_recent := by simp
  recent_le := by simp

/-- What time does to the statistics. -/
theorem Inv.update (hduration : 0 < duration)
    (h : Inv empty onEvent duration old middle recent last s) (hle : last ≤ now) :
    ∃ old' middle' recent', old' ++ (middle' ++ recent') = old ++ (middle ++ recent) ∧
      Inv empty onEvent duration old' middle' recent' now (s.update empty now).1 := by
  rw [h.update_eq hduration hle]
  split_ifs with hlong hgap
  · exact ⟨_, [], [], List.append_nil _, h.restart hduration hlong⟩
  · refine ⟨old ++ middle, recent, [], ?_, h.rotate hduration hle hgap (not_lt.mp hlong)⟩
    rw [List.append_nil, List.append_assoc]
  · exact ⟨old, middle, recent, rfl, { h with
      timestamp_le := h.timestamp_le.trans hle
      le_timestamp := not_lt.mp hgap
      recent_le := fun e he ↦ (h.recent_le e he).trans hle }⟩

/-- An event goes to both statistics. -/
theorem Inv.event (h : Inv empty onEvent duration old middle recent last s) (e : EventT) :
    Inv empty onEvent duration old middle (recent ++ [(e, last)]) last
      { s with current := onEvent s.current e, next := onEvent s.next e } where
  duration_eq := h.duration_eq
  current := by
    show onEvent s.current e = _
    rw [h.current, ← List.append_assoc, statOf_append_singleton]
  next := by
    show onEvent s.next e = _
    rw [h.next, statOf_append_singleton]
  timestamp_le := h.timestamp_le
  le_timestamp := h.le_timestamp
  old_lt := h.old_lt
  middle_le := h.middle_le
  le_middle := h.le_middle
  le_recent := List.forall_mem_append.mpr ⟨h.le_recent, by simpa using h.timestamp_le⟩
  recent_le := List.forall_mem_append.mpr ⟨h.recent_le, by simp⟩

theorem Reachable.inv (hduration : 0 < duration)
    (h : Reachable empty onEvent duration history last s) :
    ∃ old middle recent, old ++ (middle ++ recent) = history ∧
      Inv empty onEvent duration old middle recent last s := by
  induction h with
  | new now =>
    exact ⟨[], [], [], rfl, rfl, rfl, rfl, le_rfl, le_add_of_nonneg_right hduration.le, by simp,
      by simp, by simp, by simp, by simp⟩
  | addEvent h hle e ih =>
    obtain ⟨old, middle, recent, rfl, hinv⟩ := ih
    obtain ⟨old', middle', recent', heq, hinv'⟩ := hinv.update hduration hle
    refine ⟨old', middle', recent' ++ [(e, _)], ?_, hinv'.event e⟩
    rw [← heq, List.append_assoc, List.append_assoc]
  | getStat h hle ih =>
    obtain ⟨old, middle, recent, rfl, hinv⟩ := ih
    exact hinv.update hduration hle
  | statDuration h hle ih =>
    obtain ⟨old, middle, recent, rfl, hinv⟩ := ih
    exact hinv.update hduration hle

/-- The statistic is that of the latest events: all of the last `duration` are among them, and none
that is older than three times as much. -/
theorem reachable_getStat (hduration : 0 < duration)
    (h : Reachable empty onEvent duration history last s) (hle : last ≤ now) :
    ∃ old latest, history = old ++ latest ∧
      (s.getStat empty now).1 = statOf empty onEvent latest ∧
      (∀ e ∈ old, e.2 + duration < now) ∧ ∀ e ∈ latest, now ≤ e.2 + 3 * duration := by
  obtain ⟨old, middle, recent, rfl, hinv⟩ := h.inv hduration
  obtain ⟨old', middle', recent', heq, hinv'⟩ := hinv.update hduration hle
  have hnow := hinv'.le_timestamp
  refine ⟨old', middle' ++ recent', heq.symm, hinv'.current, fun e he ↦ ?_,
    List.forall_mem_append.mpr ⟨fun e he ↦ ?_, fun e he ↦ ?_⟩⟩
  · exact (hinv'.old_lt e he).trans_le hinv'.timestamp_le
  · linarith [hinv'.le_middle e he]
  · linarith [hinv'.le_recent e he]

/-- Events at 0, 11 and 22 with a duration of 10: the first one is forgotten, the second one, older
than the duration, is not. -/
theorem reachable_getStat_three :
    ∃ old latest, [(1, 0), (2, 11), (3, 22)] = old ++ latest ∧
      ((((((new [] 10 0).addEvent [] (fun l e ↦ l ++ [e]) 1 0).addEvent [] (fun l e ↦ l ++ [e])
        2 11).addEvent [] (fun l e ↦ l ++ [e]) 3 22).getStat [] 30).1 : List ℕ) =
          statOf [] (fun l e ↦ l ++ [e]) latest ∧
      (∀ e ∈ old, e.2 + 10 < (30 : ℚ)) ∧ ∀ e ∈ latest, (30 : ℚ) ≤ e.2 + 3 * 10 :=
  reachable_getStat (by norm_num)
    ((((Reachable.new 0).addEvent le_rfl 1).addEvent (by norm_num) 2).addEvent (by norm_num) 3)
    (by norm_num)

end Runs

end TimedStat

end PxcCore
