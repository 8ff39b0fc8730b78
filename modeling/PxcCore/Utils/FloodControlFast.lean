import PxcCore.Lib.Result
import PxcCore.Lib.TokenBucket

/-!
# `FloodControlFast`

`FloodControlFast.h`, with rational numbers for times.  Each limit is a bucket of its own; an event
that comes too early for the tokens that are left puts off the next one until they are filled in.
-/

namespace PxcCore

open Lib TokenBucket

/-- A failed `CHECK`. -/
inductive FloodControlFast.Fault where
  | check
deriving DecidableEq, Repr

/-- `FloodControlFast::FloodControlBucket` -/
structure FloodControlFast.Bucket where
  maxCapacity : ℚ
  speed : ℚ
  volume : ℚ
  volumeAt : ℚ := 0
  wakeupAt : ℚ := 0
deriving DecidableEq, Repr

/-- `FloodControlFast` -/
structure FloodControlFast where
  wakeupAt : ℚ := 0
  buckets : List FloodControlFast.Bucket := []
deriving DecidableEq, Repr

namespace FloodControlFast

/-! ## Operations -/

namespace Bucket

/-- `FloodControlBucket` -/
def new (duration count : ℚ) : Bucket :=
  { maxCapacity := count - 1, speed := count / duration, volume := count - 1 }

/-- `update_volume` -/
def updateVolume (b : Bucket) (now : ℚ) : Except Fault Bucket := do
  if ¬now ≥ b.volumeAt then throw .check
  let passed := now - b.volumeAt
  return { b with volume := min (b.volume + passed * b.speed) b.maxCapacity, volumeAt := now }

/-- `add_event` -/
def addEvent (b : Bucket) (now size : ℚ) : Except Fault Bucket := do
  if ¬now ≥ b.wakeupAt then throw .check
  let b ← b.updateVolume now
  if b.volume ≥ size then return { b with volume := b.volume - size }
  let size := size - b.volume
  let wakeupAt := b.volumeAt + size / b.speed
  return { b with volume := 0, wakeupAt := wakeupAt, volumeAt := wakeupAt }

/-- `clear_events` -/
def clearEvents (b : Bucket) : Bucket :=
  { b with volume := b.maxCapacity, volumeAt := 0, wakeupAt := 0 }

end Bucket

/-- The loop of `add_event`. -/
def addEvents (now : ℚ) : ℚ → List Bucket → Except Fault (ℚ × List Bucket)
  | wakeupAt, [] => .ok (wakeupAt, [])
  | wakeupAt, b :: buckets => do
    let b ← b.addEvent now 1
    let (wakeupAt, buckets) ← addEvents now (max wakeupAt b.wakeupAt) buckets
    return (wakeupAt, b :: buckets)

/-- `add_event` -/
def addEvent (f : FloodControlFast) (now : ℚ) : Except Fault FloodControlFast := do
  let (wakeupAt, buckets) ← addEvents now f.wakeupAt f.buckets
  return ⟨wakeupAt, buckets⟩

/-- `add_limit` -/
def addLimit (f : FloodControlFast) (duration count : ℚ) : FloodControlFast :=
  { f with buckets := f.buckets ++ [.new duration count] }

/-- `clear_events` -/
def clearEvents (f : FloodControlFast) : FloodControlFast :=
  ⟨0, f.buckets.map Bucket.clearEvents⟩

/-- The limits that are added to a new object. -/
def start (limits : List (ℚ × ℚ)) : FloodControlFast :=
  limits.foldl (fun f limit ↦ f.addLimit limit.1 limit.2) {}

/-! ## One bucket -/

variable {history : List ℚ} {b : Bucket} {now : ℚ}

/-- A time that is not before any event. -/
def Latest (history : List ℚ) (now : ℚ) : Prop := ∀ t ∈ history, t ≤ now

/-- What a bucket knows about the events: its parameters make sense, it holds something between
nothing and its capacity at a time that comes no later than the next event, the events have taken
their tokens out of it, and there have not been too many. -/
structure Bucket.Inv (history : List ℚ) (b : Bucket) : Prop where
  capacity : 0 ≤ b.maxCapacity
  speed : 0 < b.speed
  nonneg : 0 ≤ b.volume
  volume_le : b.volume ≤ b.maxCapacity
  ready : ∀ now, b.wakeupAt ≤ now → Latest history now → b.volumeAt ≤ now
  taken : Taken b.maxCapacity b.speed history (b.volume - b.volumeAt * b.speed)
  bounded : Bounded b.maxCapacity b.speed history

theorem Bucket.Inv.new {duration count : ℚ} (hduration : 0 < duration) (hcount : 1 ≤ count) :
    (Bucket.new duration count).Inv [] where
  capacity := sub_nonneg.mpr hcount
  speed := div_pos (by linarith) hduration
  nonneg := sub_nonneg.mpr hcount
  volume_le := le_rfl
  ready _ hwakeup _ := hwakeup
  taken := .nil
  bounded := .nil (sub_nonneg.mpr hcount) (div_nonneg (by linarith) hduration.le)

/-- The bucket is filled up to a time that has come. -/
theorem Bucket.Inv.updateVolume (h : b.Inv history) (hnow : b.volumeAt ≤ now) :
    ∃ volume, b.updateVolume now = .ok { b with volume, volumeAt := now } ∧ 0 ≤ volume ∧
      volume ≤ b.maxCapacity ∧
      Taken b.maxCapacity b.speed history (volume - now * b.speed) := by
  have hpassed := mul_nonneg (sub_nonneg.mpr hnow) h.speed.le
  refine ⟨min (b.volume + (now - b.volumeAt) * b.speed) b.maxCapacity, ?_, ?_, min_le_right _ _,
    h.taken.mono ?_⟩
  · rw [Bucket.updateVolume, if_neg (not_not.mpr hnow)]
    rfl
  · exact le_min (add_nonneg h.nonneg hpassed) h.capacity
  · have hmin := min_le_left (b.volume + (now - b.volumeAt) * b.speed) b.maxCapacity
    rw [sub_mul] at hmin ⊢
    linarith

/-- Another event, at a time that is allowed. -/
theorem Bucket.Inv.addEvent (h : b.Inv history) (hwakeup : b.wakeupAt ≤ now)
    (hlatest : Latest history now) :
    ∃ b', b.addEvent now 1 = .ok b' ∧ b'.Inv (history ++ [now]) ∧
      b'.maxCapacity = b.maxCapacity ∧ b'.speed = b.speed := by
  obtain ⟨volume, hupdate, hnonneg, hle, htaken⟩ := h.updateVolume (h.ready now hwakeup hlatest)
  have hfull : volume - now * b.speed + now * b.speed ≤ b.maxCapacity := by linarith
  have hlevel : 0 ≤ volume - now * b.speed + now * b.speed := by linarith
  have htaken' := htaken.append hfull h.speed.le hlatest
  have hbounded := h.bounded.append htaken h.capacity h.speed.le hlevel
  rw [Bucket.addEvent, if_neg (not_not.mpr hwakeup)]
  simp only [hupdate, ok_bind]
  split_ifs with hvolume
  · refine ⟨_, rfl, ⟨h.capacity, h.speed, sub_nonneg.mpr hvolume, ?_, ?_, ?_, hbounded⟩, rfl, rfl⟩
    · exact (sub_le_self _ zero_le_one).trans hle
    · exact fun _ _ hlatest ↦ hlatest now (by simp)
    · refine htaken'.mono ?_
      linarith
  · refine ⟨_, rfl, ⟨h.capacity, h.speed, le_rfl, h.capacity, ?_, ?_, hbounded⟩, rfl, rfl⟩
    · exact fun _ hwakeup _ ↦ hwakeup
    · refine htaken'.mono ?_
      have hdebt : (now + (1 - volume) / b.speed) * b.speed = now * b.speed + (1 - volume) := by
        rw [add_mul, div_mul_cancel₀ _ h.speed.ne']
      show 0 - (now + (1 - volume) / b.speed) * b.speed ≤ _
      linarith

/-! ## All buckets -/

/-- A bucket of this limit. -/
structure Bucket.Of (history : List ℚ) (limit : ℚ × ℚ) (b : Bucket) : Prop extends
    b.Inv history where
  maxCapacity : b.maxCapacity = limit.2 - 1
  speed_eq : b.speed = limit.2 / limit.1

/-- The buckets of the limits, none of which waits longer than the object. -/
structure Inv (limits : List (ℚ × ℚ)) (history : List ℚ) (f : FloodControlFast) : Prop where
  buckets : List.Forall₂ (Bucket.Of history) limits f.buckets
  wakeup_le : ∀ b ∈ f.buckets, b.wakeupAt ≤ f.wakeupAt

variable {limits : List (ℚ × ℚ)} {f : FloodControlFast} {buckets : List Bucket}

theorem Inv.start (hlimits : ∀ limit ∈ limits, 0 < limit.1 ∧ 1 ≤ limit.2) :
    Inv limits [] (start limits) := by
  have hstart : FloodControlFast.start limits =
      ⟨0, limits.map fun limit ↦ Bucket.new limit.1 limit.2⟩ := by
    have hfold (limits : List (ℚ × ℚ)) (f : FloodControlFast) :
        limits.foldl (fun f limit ↦ f.addLimit limit.1 limit.2) f =
          { f with buckets := f.buckets ++ limits.map fun limit ↦ Bucket.new limit.1 limit.2 } := by
      induction limits generalizing f with
      | nil => simp
      | cons limit limits ih =>
        rw [List.foldl_cons, ih, addLimit, List.append_assoc]
        rfl
    exact hfold limits {}
  rw [hstart]
  refine ⟨?_, fun b hb ↦ ?_⟩
  · refine List.forall₂_map_right_iff.mpr (List.forall₂_same.mpr fun limit hlimit ↦ ?_)
    exact ⟨.new (hlimits limit hlimit).1 (hlimits limit hlimit).2, rfl, rfl⟩
  · obtain ⟨limit, -, rfl⟩ := List.mem_map.mp hb
    exact le_rfl

/-- No check fails in the loop, which raises the time to the greatest one of the buckets. -/
theorem addEvents_spec (h : List.Forall₂ (Bucket.Of history) limits buckets)
    (hlatest : Latest history now) (hwakeup : ∀ b ∈ buckets, b.wakeupAt ≤ now) (wakeupAt : ℚ) :
    ∃ wakeupAt' buckets', addEvents now wakeupAt buckets = .ok (wakeupAt', buckets') ∧
      wakeupAt ≤ wakeupAt' ∧ List.Forall₂ (Bucket.Of (history ++ [now])) limits buckets' ∧
      ∀ b ∈ buckets', b.wakeupAt ≤ wakeupAt' := by
  induction h generalizing wakeupAt with
  | nil => exact ⟨wakeupAt, [], rfl, le_rfl, .nil, by simp⟩
  | @cons limit b limits buckets hb _ ih =>
    obtain ⟨b', hadd, hinv, hcapacity, hspeed⟩ :=
      hb.addEvent (hwakeup b List.mem_cons_self) hlatest
    obtain ⟨wakeupAt', buckets', hrest, hle, hbuckets, hmax⟩ :=
      ih (fun b hmem ↦ hwakeup b (List.mem_cons_of_mem _ hmem)) (max wakeupAt b'.wakeupAt)
    refine ⟨wakeupAt', b' :: buckets', ?_, (le_max_left _ _).trans hle, .cons ?_ hbuckets, ?_⟩
    · rw [addEvents, hadd, ok_bind, hrest]
      rfl
    · exact ⟨hinv, hcapacity.trans hb.maxCapacity, hspeed.trans hb.speed_eq⟩
    · exact List.forall_mem_cons.mpr ⟨(le_max_right _ _).trans hle, hmax⟩

theorem Inv.addEvent (h : Inv limits history f) (hwakeup : f.wakeupAt ≤ now)
    (hlatest : Latest history now) :
    ∃ f', f.addEvent now = .ok f' ∧ Inv limits (history ++ [now]) f' ∧
      f.wakeupAt ≤ f'.wakeupAt := by
  obtain ⟨wakeupAt, buckets, hadd, hle, hbuckets, hmax⟩ := addEvents_spec h.buckets hlatest
    (fun b hb ↦ (h.wakeup_le b hb).trans hwakeup) f.wakeupAt
  refine ⟨⟨wakeupAt, buckets⟩, ?_, ⟨hbuckets, hmax⟩, hle⟩
  rw [FloodControlFast.addEvent, hadd]
  rfl

theorem exists_of_forall₂ (h : List.Forall₂ (Bucket.Of history) limits buckets)
    {limit : ℚ × ℚ} (hlimit : limit ∈ limits) : ∃ b, Bucket.Of history limit b := by
  induction h with
  | nil => simp at hlimit
  | @cons _ b _ _ hb _ ih =>
    rcases List.mem_cons.mp hlimit with rfl | hmem
    · exact ⟨b, hb⟩
    · exact ih hmem

/-! ## Runs -/

/-- What a run leads to: limits that are added to a new object, and events at times that are not
before an earlier one or the wakeup time of the moment. -/
inductive Reachable (limits : List (ℚ × ℚ)) : List ℚ → FloodControlFast → Prop
  | start : Reachable limits [] (start limits)
  | addEvent {history : List ℚ} {f f' : FloodControlFast} {now : ℚ}
    (h : Reachable limits history f) (hwakeup : f.wakeupAt ≤ now)
    (hlatest : Latest history now) (hr : f.addEvent now = .ok f') :
    Reachable limits (history ++ [now]) f'

theorem Reachable.inv (h : Reachable limits history f)
    (hlimits : ∀ limit ∈ limits, 0 < limit.1 ∧ 1 ≤ limit.2) : Inv limits history f := by
  induction h with
  | start => exact .start hlimits
  | addEvent h hwakeup hlatest hr ih =>
    obtain ⟨f', hr', hinv, -⟩ := ih.addEvent hwakeup hlatest
    rw [hr, Except.ok.injEq] at hr'
    exact hr' ▸ hinv

/-- No window has more events than a limit allows for its length, the next event returns, and it
never brings the wakeup time forward. -/
theorem reachable_inWindow_le (hlimits : ∀ limit ∈ limits, 0 < limit.1 ∧ 1 ≤ limit.2)
    (h : Reachable limits history f) :
    (∀ limit ∈ limits, ∀ s length, 0 ≤ length →
      (inWindow history s length : ℚ) ≤ limit.2 + limit.2 * length / limit.1) ∧
    ∀ now, f.wakeupAt ≤ now → Latest history now →
      ∃ f', f.addEvent now = .ok f' ∧ f.wakeupAt ≤ f'.wakeupAt := by
  have hinv := h.inv hlimits
  refine ⟨fun limit hlimit s length hlength ↦ ?_, fun now hwakeup hlatest ↦ ?_⟩
  · obtain ⟨b, hb⟩ := exists_of_forall₂ hinv.buckets hlimit
    have hbounded := hb.bounded s length hlength
    have hright : limit.2 - 1 + 1 + length * (limit.2 / limit.1) =
        limit.2 + limit.2 * length / limit.1 := by ring
    rwa [hb.maxCapacity, hb.speed_eq, hright] at hbounded
  · obtain ⟨f', hadd, -, hle⟩ := hinv.addEvent hwakeup hlatest
    exact ⟨f', hadd, hle⟩

/-- One event in a second, of which the second comes at the wakeup time. -/
theorem reachable_one_per_second :
    (∀ limit ∈ [((1 : ℚ), (1 : ℚ))], ∀ s length : ℚ, 0 ≤ length →
      (inWindow [(0 : ℚ), 1] s length : ℚ) ≤ limit.2 + limit.2 * length / limit.1) ∧
    ∀ now : ℚ, 2 ≤ now → Latest [0, 1] now →
      ∃ f', addEvent ⟨2, [⟨0, 1, 0, 2, 2⟩]⟩ now = .ok f' ∧ 2 ≤ f'.wakeupAt := by
  have h₁ : Reachable [(1, 1)] [0] ⟨1, [⟨0, 1, 0, 1, 1⟩]⟩ :=
    .addEvent .start le_rfl (List.forall_mem_nil _) (by decide +kernel)
  have h₂ : Reachable [(1, 1)] [0, 1] ⟨2, [⟨0, 1, 0, 2, 2⟩]⟩ := by
    refine .addEvent h₁ le_rfl ?_ (by decide +kernel)
    intro t ht
    cases List.mem_singleton.mp ht
    exact zero_le_one
  refine reachable_inWindow_le ?_ h₂
  intro limit hlimit
  cases List.mem_singleton.mp hlimit
  exact ⟨zero_lt_one, le_rfl⟩

end FloodControlFast

end PxcCore
