import PxcCore.Lib.Result

/-!
# `FloodControlStrict`

`FloodControlStrict.h`, with rational numbers for times.  The list of events is shared by all limits
and loses its oldest events from time to time; each limit has its own position in it.  What is
computed in `size_t` wraps around at `2^64`.
-/

namespace PxcCore

open Lib

/-- How a function ends other than by returning: a failed `CHECK` or an event that is not there. -/
inductive FloodControlStrict.Fault where
  | check
  | outOfRange
deriving DecidableEq, Repr

/-- `FloodControlStrict::Limit`. -/
structure FloodControlStrict.Limit where
  duration : ℤ
  count : ℕ
  pos : ℕ
deriving DecidableEq, Repr

/-- `FloodControlStrict`. -/
structure FloodControlStrict where
  wakeupAt : ℚ := 0
  withoutUpdate : ℕ := 0
  events : List ℚ := []
  limits : List FloodControlStrict.Limit := []
deriving DecidableEq, Repr

namespace FloodControlStrict

/-! ## Operations -/

/-- Addition of `size_t`. -/
def sizeAdd (a b : ℕ) : ℕ := (a + b) % 2 ^ 64

/-- Subtraction of `size_t`. -/
def sizeSub (a b : ℕ) : ℕ := (a + 2 ^ 64 - b) % 2 ^ 64

/-- The loop of `update` over the events before `endTime`, of at most `n` rounds. -/
def skipOld (events : List ℚ) (endTime : ℚ) : ℕ → ℕ → ℕ
  | 0, pos => pos
  | n + 1, pos =>
    match events[pos]? with
    | none => pos
    | some t => if t < endTime then skipOld events endTime n (pos + 1) else pos

/-- The variables of `update` that its loop over the limits changes. -/
structure Progress where
  wakeupAt : ℚ
  withoutUpdate : ℕ
  minPos : ℕ
deriving DecidableEq, Repr

/-- The body of the loop over the limits. -/
def updateLimit (events : List ℚ) (now : ℚ) (s : Progress) (limit : Limit) :
    Except Fault (Progress × Limit) := do
  let size := events.length
  let pos :=
    if limit.count < sizeSub size limit.pos then sizeSub size limit.count else limit.pos
  let endTime := now - limit.duration
  let pos := skipOld events endTime size pos
  if sizeAdd limit.count pos ≤ size then
    if sizeAdd limit.count pos ≠ size then throw .check
    match events[pos]? with
    | none => throw .outOfRange
    | some timestamp =>
      return ({ wakeupAt := max s.wakeupAt (timestamp + limit.duration), withoutUpdate := 0
                minPos := min s.minPos pos }, { limit with pos := pos })
  else
    let left := sizeSub (sizeSub (sizeAdd limit.count pos) size) 1
    return ({ s with withoutUpdate := min s.withoutUpdate left, minPos := min s.minPos pos },
      { limit with pos := pos })

/-- The loop over the limits. -/
def updateLimits (events : List ℚ) (now : ℚ) :
    Progress → List Limit → Except Fault (Progress × List Limit)
  | s, [] => .ok (s, [])
  | s, limit :: limits => do
    let (s, limit) ← updateLimit events now s limit
    let (s, limits) ← updateLimits events now s limits
    return (s, limit :: limits)

/-- `update`. -/
def update (f : FloodControlStrict) (now : ℚ) : Except Fault FloodControlStrict := do
  let (s, limits) ← updateLimits f.events now
    { wakeupAt := f.wakeupAt, withoutUpdate := 2 ^ 64 - 1, minPos := f.events.length } f.limits
  let f := { f with wakeupAt := s.wakeupAt, withoutUpdate := s.withoutUpdate, limits := limits }
  if s.minPos * 2 % 2 ^ 64 > f.events.length then
    return { f with
      limits := limits.map fun limit ↦ { limit with pos := sizeSub limit.pos s.minPos }
      events := f.events.drop s.minPos }
  else return f

/-- `add_event`. -/
def addEvent (f : FloodControlStrict) (now : ℚ) : Except Fault FloodControlStrict :=
  let f := { f with events := f.events ++ [now] }
  if f.withoutUpdate > 0 then .ok { f with withoutUpdate := f.withoutUpdate - 1 } else f.update now

/-- `add_limit`. -/
def addLimit (f : FloodControlStrict) (duration : ℤ) (count : ℕ) : FloodControlStrict :=
  { f with limits := f.limits ++ [⟨duration, count, 0⟩], withoutUpdate := 0 }

/-- `clear_events`. -/
def clearEvents (f : FloodControlStrict) : FloodControlStrict :=
  { f with
    events := [], limits := f.limits.map fun limit ↦ { limit with pos := 0 }
    withoutUpdate := 0, wakeupAt := 0 }

/-- The limits that are added to a new object. -/
def start (limits : List (ℤ × ℕ)) : FloodControlStrict :=
  limits.foldl (fun f limit ↦ f.addLimit limit.1 limit.2) {}

/-! ## What one limit needs -/

/-- A time that is not before any event. -/
def Latest (history : List ℚ) (now : ℚ) : Prop := ∀ t ∈ history, t ≤ now

/-- The limit stands `k` events and its position into the history.  The events before that have been
followed by enough others, or are so old that they do not matter any more. -/
structure Limit.Inv (history : List ℚ) (k size : ℕ) (limit : Limit) : Prop where
  pos_le : limit.pos ≤ size
  old : ∀ j < k + limit.pos, ∀ t, history[j]? = some t → history.length ≤ j + limit.count →
    ∀ now, Latest history now → t + limit.duration ≤ now

/-- The next event, and `without` more, keep the limit if they are not before `wakeupAt`. -/
def Limit.Ready (history : List ℚ) (wakeupAt : ℚ) (without : ℕ) (limit : Limit) : Prop :=
  ∀ j t, history[j]? = some t → history.length ≤ j + limit.count →
    j + limit.count ≤ history.length + without →
    ∀ now, wakeupAt ≤ now → Latest history now → t + limit.duration ≤ now

/-- Any `count + 1` events in a row span the duration. -/
def Spaced (history : List ℚ) (duration : ℤ) (count : ℕ) : Prop :=
  ∀ i a b, history[i]? = some a → history[i + count]? = some b → a + duration ≤ b

variable {history events : List ℚ} {now : ℚ} {k : ℕ} {limit : Limit}

theorem sizeAdd_eq {a b : ℕ} (h : a + b < 2 ^ 64) : sizeAdd a b = a + b := Nat.mod_eq_of_lt h

theorem sizeSub_eq {a b : ℕ} (h : b ≤ a) (ha : a < 2 ^ 64) : sizeSub a b = a - b := by
  rw [sizeSub]
  omega

theorem Latest.of_append {t : ℚ} (h : Latest (history ++ [t]) now) : Latest history now :=
  fun x hx ↦ h x (List.mem_append_left _ hx)

theorem Limit.Ready.mono {wakeupAt wakeupAt' : ℚ} {without without' : ℕ}
    (h : limit.Ready history wakeupAt without) (hw : wakeupAt ≤ wakeupAt')
    (hn : without' ≤ without) : limit.Ready history wakeupAt' without' :=
  fun j t ht hlo hhi now hnow ↦ h j t ht hlo (by omega) now (hw.trans hnow)

/-- The position does not matter. -/
theorem Limit.Ready.withPos {wakeupAt : ℚ} {without : ℕ}
    (h : limit.Ready history wakeupAt without) (pos : ℕ) :
    Limit.Ready history wakeupAt without { limit with pos := pos } :=
  fun j t ht hlo hhi now hw hlatest ↦ h j t ht hlo hhi now hw hlatest

/-- Only events before the end time are passed over. -/
theorem skipOld_spec (events : List ℚ) (endTime : ℚ) (n pos : ℕ) (hpos : pos ≤ events.length) :
    pos ≤ skipOld events endTime n pos ∧ skipOld events endTime n pos ≤ events.length ∧
      ∀ j < skipOld events endTime n pos, pos ≤ j → ∀ t, events[j]? = some t → t < endTime := by
  induction n generalizing pos with
  | zero => exact ⟨le_rfl, hpos, fun j hj hle ↦ absurd hle (not_le.2 hj)⟩
  | succ n ih =>
    rw [skipOld]
    split
    · exact ⟨le_rfl, hpos, fun j hj hle ↦ absurd hle (not_le.2 hj)⟩
    case h_2 t ht =>
    split_ifs with hlt
    · have hlt' : pos < events.length := (List.getElem?_eq_some_iff.1 ht).1
      obtain ⟨hle, hlen, hall⟩ := ih (pos + 1) hlt'
      refine ⟨by omega, hlen, fun j hj hle' t' ht' ↦ ?_⟩
      rcases Nat.eq_or_lt_of_le hle' with rfl | hlt''
      · rw [ht] at ht'
        cases ht'
        exact hlt
      · exact hall j hj hlt'' t' ht'
    · exact ⟨le_rfl, hpos, fun j hj hle ↦ absurd hle (not_le.2 hj)⟩

/-! ## `update` -/

/-- One limit is brought up to date. -/
structure Updated (history : List ℚ) (k size : ℕ) (s s' : Progress) (limit limit' : Limit) :
    Prop where
  duration : limit'.duration = limit.duration
  count : limit'.count = limit.count
  inv : limit'.Inv history k size
  ready : limit'.Ready history s'.wakeupAt s'.withoutUpdate
  wakeupAt : s.wakeupAt ≤ s'.wakeupAt
  withoutUpdate : s'.withoutUpdate ≤ s.withoutUpdate
  minPos : s'.minPos ≤ s.minPos
  minPos_le : s'.minPos ≤ limit'.pos
  lt_count : s'.withoutUpdate < limit'.count

/-- More than `count` events behind the position: the first of them do not matter any more. -/
theorem Limit.Inv.pass (h : limit.Inv history k events.length)
    (hlen : k + events.length = history.length) (hsize : events.length < 2 ^ 64) :
    ∃ pos, (if limit.count < sizeSub events.length limit.pos then
        sizeSub events.length limit.count else limit.pos) = pos ∧
      Limit.Inv history k events.length { limit with pos := pos } ∧
      events.length ≤ limit.count + pos := by
  have hpos := h.pos_le
  rw [sizeSub_eq hpos hsize]
  split_ifs with hlt
  · rw [sizeSub_eq (by omega) hsize]
    refine ⟨_, rfl, ⟨Nat.sub_le _ _, fun j hj t ht hle now hnow ↦ ?_⟩, ?_⟩
    · change j < k + (events.length - limit.count) at hj
      change history.length ≤ j + limit.count at hle
      omega
    · omega
  · exact ⟨_, rfl, h, by omega⟩

/-- Events before `now - duration` do not matter any more. -/
theorem Limit.Inv.skip (h : limit.Inv history k events.length) (he : events = history.drop k)
    (hnow : now ∈ history) (n : ℕ) :
    ∃ pos, skipOld events (now - limit.duration) n limit.pos = pos ∧ limit.pos ≤ pos ∧
      Limit.Inv history k events.length { limit with pos := pos } := by
  obtain ⟨hle, hlen, hall⟩ := skipOld_spec events (now - limit.duration) n limit.pos h.pos_le
  refine ⟨_, rfl, hle, hlen, fun j hj t ht hcount now' hnow' ↦ ?_⟩
  by_cases hjk : j < k + limit.pos
  · exact h.old j hjk t ht hcount now' hnow'
  · obtain ⟨d, rfl⟩ := Nat.exists_eq_add_of_le (show k ≤ j by omega)
    rw [← List.getElem?_drop, ← he] at ht
    have hd : k + d < k + skipOld events (now - limit.duration) n limit.pos := hj
    have hlt := hall d (by omega) (by omega) t ht
    have hle' := hnow' now hnow
    change t + limit.duration ≤ now'
    linarith

theorem updateLimit_spec (h : limit.Inv history k events.length) (he : events = history.drop k)
    (hk : k ≤ history.length) (hnow : now ∈ history) (hcount : 0 < limit.count)
    (hroom : limit.count + events.length < 2 ^ 64) (s : Progress) :
    ∃ s' limit', updateLimit events now s limit = .ok (s', limit') ∧
      Updated history k events.length s s' limit limit' := by
  have hlen : k + events.length = history.length := by
    rw [he, List.length_drop]
    omega
  obtain ⟨pos₁, hpos₁, h₁, hfull₁⟩ := h.pass hlen (by omega)
  change events.length ≤ limit.count + pos₁ at hfull₁
  obtain ⟨pos, hpos, hle, h₂⟩ := h₁.skip he hnow events.length
  change skipOld events (now - limit.duration) events.length pos₁ = pos at hpos
  change pos₁ ≤ pos at hle
  have hposle : pos ≤ events.length := h₂.pos_le
  have hfull : events.length ≤ limit.count + pos := by omega
  have hold : ∀ j < k + pos, ∀ t, history[j]? = some t → history.length ≤ j + limit.count →
    ∀ now, Latest history now → t + limit.duration ≤ now := h₂.old
  rw [updateLimit]
  simp only [hpos₁, hpos]
  rw [sizeAdd_eq (by omega)]
  by_cases hreached : limit.count + pos ≤ events.length
  · have heq : limit.count + pos = events.length := by omega
    have hlt : pos < events.length := by omega
    have hget : events[pos]? = some events[pos] := List.getElem?_eq_getElem hlt
    simp only [heq, le_refl, if_true, ne_eq, not_true_eq_false, if_false, hget]
    refine ⟨⟨max s.wakeupAt (events[pos] + limit.duration), 0, min s.minPos pos⟩,
      { limit with pos := pos }, rfl, rfl, rfl, h₂, ?_, le_max_left _ _, Nat.zero_le _,
      min_le_left _ _, min_le_right _ _, hcount⟩
    intro j t ht hlo hhi now' hnow' hlatest
    change history.length ≤ j + limit.count at hlo
    change j + limit.count ≤ history.length + 0 at hhi
    obtain rfl : j = k + pos := by omega
    rw [← List.getElem?_drop, ← he, hget] at ht
    cases ht
    exact (le_max_right _ _).trans hnow'
  · have hsub : sizeSub (limit.count + pos) events.length = limit.count + pos - events.length :=
      sizeSub_eq hfull (by omega)
    rw [if_neg hreached, hsub, sizeSub_eq (by omega) (by omega)]
    have hmin := min_le_right s.withoutUpdate (limit.count + pos - events.length - 1)
    refine ⟨⟨s.wakeupAt, min s.withoutUpdate (limit.count + pos - events.length - 1),
      min s.minPos pos⟩, { limit with pos := pos }, rfl, rfl, rfl, h₂, ?_, le_rfl,
      min_le_left _ _, min_le_left _ _, min_le_right _ _, hmin.trans_lt ?_⟩
    swap
    · change limit.count + pos - events.length - 1 < limit.count
      omega
    intro j t ht hlo hhi now' hnow' hlatest
    change history.length ≤ j + limit.count at hlo
    change j + limit.count ≤ history.length + min _ _ at hhi
    exact hold j (by omega) t ht hlo now' hlatest

/-- All limits are brought up to date. -/
theorem updateLimits_spec {limits : List Limit}
    (h : ∀ limit ∈ limits, limit.Inv history k events.length) (he : events = history.drop k)
    (hk : k ≤ history.length) (hnow : now ∈ history) (hcount : ∀ limit ∈ limits, 0 < limit.count)
    (hroom : ∀ limit ∈ limits, limit.count + events.length < 2 ^ 64) (s : Progress) :
    ∃ s' limits', updateLimits events now s limits = .ok (s', limits') ∧
      limits'.map (fun limit ↦ (limit.duration, limit.count)) =
        limits.map (fun limit ↦ (limit.duration, limit.count)) ∧
      s.wakeupAt ≤ s'.wakeupAt ∧ s'.withoutUpdate ≤ s.withoutUpdate ∧ s'.minPos ≤ s.minPos ∧
      ∀ limit ∈ limits', limit.Inv history k events.length ∧
        limit.Ready history s'.wakeupAt s'.withoutUpdate ∧ s'.minPos ≤ limit.pos ∧
        s'.withoutUpdate < limit.count := by
  induction limits generalizing s with
  | nil => exact ⟨s, [], rfl, rfl, le_rfl, le_rfl, le_rfl, List.forall_mem_nil _⟩
  | cons limit limits ih =>
    rw [List.forall_mem_cons] at h hcount hroom
    obtain ⟨s₁, limit', hr₁, hu⟩ := updateLimit_spec h.1 he hk hnow hcount.1 hroom.1 s
    obtain ⟨s', limits', hr, hmap, hw, hn, hp, hall⟩ := ih h.2 hcount.2 hroom.2 s₁
    refine ⟨s', limit' :: limits', ?_, ?_, hu.wakeupAt.trans hw, hn.trans hu.withoutUpdate,
      hp.trans hu.minPos, List.forall_mem_cons.2
        ⟨⟨hu.inv, hu.ready.mono hw hn, hp.trans hu.minPos_le, hn.trans_lt hu.lt_count⟩, hall⟩⟩
    · rw [updateLimits, hr₁, ok_bind]
      dsimp only
      rw [hr]
      rfl
    · rw [List.map_cons, List.map_cons, hmap, hu.duration, hu.count]

/-! ## Runs -/

/-- The events so far and what the object knows of them. -/
structure Inv (limits : List (ℤ × ℕ)) (history : List ℚ) (f : FloodControlStrict) : Prop where
  limits_eq : f.limits.map (fun limit ↦ (limit.duration, limit.count)) = limits
  spaced : ∀ limit ∈ limits, Spaced history limit.1 limit.2
  exists_drop : ∃ k ≤ history.length, f.events = history.drop k ∧
    ∀ limit ∈ f.limits, limit.Inv history k f.events.length
  ready : ∀ limit ∈ f.limits, limit.Ready history f.wakeupAt f.withoutUpdate
  lt_count : ∀ limit ∈ f.limits, f.withoutUpdate < limit.count

/-- No position can wrap around in the next step. -/
def HasRoom (f : FloodControlStrict) : Prop :=
  ∀ limit ∈ f.limits, limit.count + (f.events.length + 1) < 2 ^ 64

variable {limits : List (ℤ × ℕ)} {f : FloodControlStrict}

theorem start_eq (limits : List (ℤ × ℕ)) :
    start limits = { limits := limits.map fun limit ↦ ⟨limit.1, limit.2, 0⟩ } := by
  have hfold (f : FloodControlStrict) (hf : f.withoutUpdate = 0) :
      limits.foldl (fun f limit ↦ f.addLimit limit.1 limit.2) f =
        { f with limits := f.limits ++ limits.map fun limit ↦ ⟨limit.1, limit.2, 0⟩ } := by
    induction limits generalizing f with
    | nil => simp
    | cons limit limits ih =>
      rw [List.foldl_cons, ih _ rfl]
      simp [addLimit, hf]
  exact hfold {} rfl

theorem Inv.start (hcount : ∀ limit ∈ limits, 0 < limit.2) : Inv limits [] (start limits) where
  limits_eq := by
    rw [start_eq, List.map_map]
    exact List.map_id limits
  spaced limit _ i a b ha := by simp at ha
  exists_drop := by
    refine ⟨0, le_rfl, by rw [start_eq]; rfl, fun limit hlimit ↦ ?_⟩
    rw [start_eq] at hlimit ⊢
    obtain ⟨limit, -, rfl⟩ := List.mem_map.1 hlimit
    exact ⟨le_rfl, fun j hj ↦ absurd hj (Nat.not_lt_zero j)⟩
  ready limit _ j t ht := by simp at ht
  lt_count limit hlimit := by
    rw [start_eq] at hlimit ⊢
    obtain ⟨limit, hmem, rfl⟩ := List.mem_map.1 hlimit
    exact hcount limit hmem

/-- `clear_events` leads back to the start. -/
theorem Inv.clearEvents (h : Inv limits history f) :
    f.clearEvents = FloodControlStrict.start limits := by
  rw [start_eq, FloodControlStrict.clearEvents, ← h.limits_eq, List.map_map]
  rfl

/-- An event that was allowed keeps the distance. -/
theorem Limit.Ready.spaced {wakeupAt : ℚ} {without : ℕ}
    (h : limit.Ready history wakeupAt without) (hs : Spaced history limit.duration limit.count)
    (hcount : 0 < limit.count) (hw : wakeupAt ≤ now) (hlatest : Latest history now) :
    Spaced (history ++ [now]) limit.duration limit.count := by
  intro i a b ha hb
  have hlt := (List.getElem?_eq_some_iff.1 hb).1
  rw [List.length_append, List.length_singleton] at hlt
  rw [List.getElem?_append_left (by omega)] at ha
  rcases Nat.lt_succ_iff_lt_or_eq.1 hlt with hlt | heq
  · rw [List.getElem?_append_left hlt] at hb
    exact hs i a b ha hb
  · rw [heq, List.getElem?_concat_length] at hb
    cases hb
    exact h i a ha heq.ge (by omega) now hw hlatest

/-- One more event behind those that the position has passed. -/
theorem Limit.Inv.append (h : limit.Inv history k events.length)
    (hlen : k + events.length = history.length) :
    limit.Inv (history ++ [now]) k (events ++ [now]).length where
  pos_le := by
    rw [List.length_append]
    exact Nat.le_add_right_of_le h.pos_le
  old j hj t ht hle now' hlatest := by
    have hpos := h.pos_le
    rw [List.getElem?_append_left (by omega)] at ht
    rw [List.length_append] at hle
    exact h.old j hj t ht (by omega) now' hlatest.of_append

/-- One event that was allowed without an update. -/
theorem Limit.Ready.append {wakeupAt : ℚ} {without : ℕ}
    (h : limit.Ready history wakeupAt (without + 1)) (hlt : without + 1 < limit.count) :
    limit.Ready (history ++ [now]) wakeupAt without := by
  intro j t ht hlo hhi now' hw hlatest
  rw [List.length_append, List.length_singleton] at hlo hhi
  rw [List.getElem?_append_left (by omega)] at ht
  exact h j t ht (by omega) (by omega) now' hw hlatest.of_append

/-- The compaction moves the positions and the start of the events together. -/
theorem Limit.Inv.compact {n : ℕ} (h : limit.Inv history k events.length) (hn : n ≤ limit.pos)
    (hsize : events.length < 2 ^ 64) :
    Limit.Inv history (k + n) (events.drop n).length
      { limit with pos := sizeSub limit.pos n } := by
  have hpos := h.pos_le
  rw [sizeSub_eq hn (by omega)]
  refine ⟨?_, fun j hj t ht hle now hlatest ↦ ?_⟩
  · change limit.pos - n ≤ (events.drop n).length
    rw [List.length_drop]
    omega
  · change j < k + n + (limit.pos - n) at hj
    exact h.old j (by omega) t ht hle now hlatest

/-- One more event, at a time that is allowed. -/
theorem Inv.addEvent (h : Inv limits history f) (hcount : ∀ limit ∈ limits, 0 < limit.2)
    (hw : f.wakeupAt ≤ now) (hlatest : Latest history now) (hroom : f.HasRoom) :
    ∃ f', f.addEvent now = .ok f' ∧ Inv limits (history ++ [now]) f' := by
  obtain ⟨k, hk, he, hinv⟩ := h.exists_drop
  have hlen : k + f.events.length = history.length := by
    rw [he, List.length_drop]
    omega
  have hparams {limit : Limit} (hlimit : limit ∈ f.limits) :
      (limit.duration, limit.count) ∈ limits := by
    rw [← h.limits_eq]
    exact List.mem_map.2 ⟨limit, hlimit, rfl⟩
  have hspaced : ∀ limit ∈ limits, Spaced (history ++ [now]) limit.1 limit.2 := by
    intro limit hlimit
    have hs := h.spaced limit hlimit
    have hpos := hcount limit hlimit
    rw [← h.limits_eq] at hlimit
    obtain ⟨limit, hmem, rfl⟩ := List.mem_map.1 hlimit
    exact (h.ready limit hmem).spaced hs hpos hw hlatest
  have hk' : k ≤ (history ++ [now]).length := by
    rw [List.length_append]
    omega
  have he' : f.events ++ [now] = (history ++ [now]).drop k := by
    rw [List.drop_append_of_le_length hk, he]
  have hinv' : ∀ limit ∈ f.limits, limit.Inv (history ++ [now]) k (f.events ++ [now]).length :=
    fun limit hlimit ↦ (hinv limit hlimit).append hlen
  rw [FloodControlStrict.addEvent]
  dsimp only
  by_cases hwithout : f.withoutUpdate > 0
  · obtain ⟨without, hwo⟩ := Nat.exists_eq_succ_of_ne_zero hwithout.ne'
    rw [if_pos hwithout]
    refine ⟨_, rfl, h.limits_eq, hspaced, ⟨k, hk', he', hinv'⟩, fun limit hlimit ↦ ?_,
      fun limit hlimit ↦ ?_⟩
    · have hr := h.ready limit hlimit
      have hlt := h.lt_count limit hlimit
      rw [hwo] at hr hlt
      change limit.Ready _ f.wakeupAt (f.withoutUpdate - 1)
      rw [hwo]
      exact hr.append hlt
    · exact (Nat.sub_le _ 1).trans_lt (h.lt_count limit hlimit)
  · rw [if_neg hwithout]
    have hcount' : ∀ limit ∈ f.limits, 0 < limit.count := fun limit hlimit ↦
      hcount _ (hparams hlimit)
    have hroom' : ∀ limit ∈ f.limits, limit.count + (f.events ++ [now]).length < 2 ^ 64 := by
      intro limit hlimit
      rw [List.length_append]
      exact hroom limit hlimit
    obtain ⟨s, limits', hr, hmap, hw', hn', hp', hall⟩ := updateLimits_spec hinv' he' hk'
      (List.mem_append_right _ (List.mem_singleton_self now)) hcount' hroom'
      ⟨f.wakeupAt, 2 ^ 64 - 1, (f.events ++ [now]).length⟩
    rw [update]
    dsimp only
    rw [hr, ok_bind]
    dsimp only
    have heq := hmap.trans h.limits_eq
    split_ifs
    · refine ⟨_, rfl, ?_, hspaced, ⟨k + s.minPos, ?_, ?_, ?_⟩, ?_, ?_⟩
      · rw [← heq]
        exact List.map_map
      · change s.minPos ≤ (f.events ++ [now]).length at hp'
        rw [he', List.length_drop] at hp'
        omega
      · change (f.events ++ [now]).drop s.minPos = _
        rw [he', List.drop_drop]
      · intro limit hlimit
        obtain ⟨limit, hmem, rfl⟩ := List.mem_map.1 hlimit
        obtain ⟨hi, -, hle, -⟩ := hall limit hmem
        have hmem' :=
          List.mem_map_of_mem (f := fun limit : Limit ↦ (limit.duration, limit.count)) hmem
        rw [hmap] at hmem'
        obtain ⟨limit₀, h₀, -⟩ := List.mem_map.1 hmem'
        have hsize := hroom' limit₀ h₀
        exact hi.compact hle (by omega)
      · intro limit hlimit
        obtain ⟨limit, hmem, rfl⟩ := List.mem_map.1 hlimit
        exact (hall limit hmem).2.1.withPos _
      · intro limit hlimit
        obtain ⟨limit, hmem, rfl⟩ := List.mem_map.1 hlimit
        exact (hall limit hmem).2.2.2
    · exact ⟨_, rfl, heq, hspaced, ⟨k, hk', he', fun limit hlimit ↦ (hall limit hlimit).1⟩,
        fun limit hlimit ↦ (hall limit hlimit).2.1, fun limit hlimit ↦ (hall limit hlimit).2.2.2⟩

/-- What a run leads to: limits that are added to a new object, and events at times that are not
before an earlier one or the wakeup time of the moment. -/
inductive Reachable (limits : List (ℤ × ℕ)) : List ℚ → FloodControlStrict → Prop
  | start : Reachable limits [] (start limits)
  | addEvent {history : List ℚ} {f f' : FloodControlStrict} {now : ℚ}
    (h : Reachable limits history f) (hw : f.wakeupAt ≤ now) (hlatest : Latest history now)
    (hroom : f.HasRoom) (hr : f.addEvent now = .ok f') : Reachable limits (history ++ [now]) f'

theorem Reachable.inv (h : Reachable limits history f) (hcount : ∀ limit ∈ limits, 0 < limit.2) :
    Inv limits history f := by
  induction h with
  | start => exact .start hcount
  | addEvent h hw hlatest hroom hr ih =>
    obtain ⟨f', hr', hinv⟩ := ih.addEvent hcount hw hlatest hroom
    rw [hr] at hr'
    cases hr'
    exact hinv

/-- As long as no position can wrap around, every limit is kept and the next event returns. -/
theorem reachable_spaced (hcount : ∀ limit ∈ limits, 0 < limit.2)
    (h : Reachable limits history f) :
    (∀ limit ∈ limits, ∀ i a b, history[i]? = some a → history[i + limit.2]? = some b →
      a + limit.1 ≤ b) ∧
    ∀ now, f.wakeupAt ≤ now → Latest history now → f.HasRoom → ∃ f', f.addEvent now = .ok f' := by
  have hinv := h.inv hcount
  refine ⟨hinv.spaced, fun now hw hlatest hroom ↦ ?_⟩
  obtain ⟨f', hr, -⟩ := hinv.addEvent hcount hw hlatest hroom
  exact ⟨f', hr⟩

theorem reachable_spaced_two :
    (∀ limit ∈ [((1 : ℤ), 1)], ∀ (i : ℕ) (a b : ℚ), [(0 : ℚ), 1][i]? = some a →
      [(0 : ℚ), 1][i + limit.2]? = some b → a + limit.1 ≤ b) ∧
    ∀ now : ℚ, 2 ≤ now → Latest [0, 1] now → HasRoom ⟨2, 0, [0, 1], [⟨1, 1, 1⟩]⟩ →
      ∃ f', addEvent ⟨2, 0, [0, 1], [⟨1, 1, 1⟩]⟩ now = .ok f' := by
  have hroom (events : List ℚ) (pos : ℕ) (w : ℚ) (hlen : events.length ≤ 1) :
      HasRoom ⟨w, 0, events, [⟨1, 1, pos⟩]⟩ := by
    intro limit hlimit
    cases List.mem_singleton.1 hlimit
    change 1 + (events.length + 1) < 2 ^ 64
    omega
  have h₁ : Reachable [(1, 1)] [0] ⟨1, 0, [0], [⟨1, 1, 0⟩]⟩ :=
    .addEvent .start le_rfl (List.forall_mem_nil _) (hroom [] 0 0 (by decide)) (by decide +kernel)
  have h₂ : Reachable [(1, 1)] [0, 1] ⟨2, 0, [0, 1], [⟨1, 1, 1⟩]⟩ := by
    refine .addEvent h₁ le_rfl ?_ (hroom [0] 0 1 (by decide)) (by decide +kernel)
    intro t ht
    cases List.mem_singleton.1 ht
    exact zero_le_one
  refine reachable_spaced ?_ h₂
  intro limit hlimit
  cases List.mem_singleton.1 hlimit
  exact Nat.one_pos

/-- A count that is the largest `size_t` wraps around with the first event that is passed over. -/
theorem count_overflows :
    ∃ f, (start [(1, 2 ^ 64 - 1), (1, 1)]).addEvent 0 = .ok f ∧ f.wakeupAt = 1 ∧
      f.addEvent 100 = .error .check :=
  ⟨⟨1, 0, [0], [⟨1, 2 ^ 64 - 1, 0⟩, ⟨1, 1, 0⟩]⟩, by decide +kernel, rfl, by decide +kernel⟩

end FloodControlStrict

end PxcCore
