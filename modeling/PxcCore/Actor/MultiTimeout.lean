import PxcCore.Lib.Timeouts
import PxcCore.Utils.Heap

/-!
# MultiTimeout

`MultiTimeout.cpp`, and what it uses of `Scheduler.cpp`: an actor that keeps the timeouts of many
keys in a heap, and has one timer, which the scheduler sets for it.

When the timer is over, the scheduler sends a `Timeout` event to the actor.  The event is run at
once, or waits in the mailbox of the actor.  Callbacks run while the loop that makes them is on the
stack, and may call the actor.
-/

namespace PxcCore

open Lib Lib.Timeouts

namespace MultiTimeout

/-- `Event::Type`, but for the events that stop the actor. -/
inductive EventType where
  | start
  | yield
  | timeout
  | raw
  | custom
deriving DecidableEq

/-- What runs: `flush_mailbox` with its `i` and `mailbox_size`, or a loop over expired keys with
those that are left.  An event that runs at once has nothing to take from the mailbox. -/
inductive Frame where
  | guard (i mailboxSize : ℕ)
  | callbacks (expiredKeys : List Int64)

end MultiTimeout

open MultiTimeout

/-- The actor, what the scheduler has for it, the stack and the time.  `log` is what has happened so
far. -/
structure MultiTimeout where
  items : Finset Int64 := ∅
  timeoutQueue : KHeap ℚ Int64 := {}
  /-- The key of the actor in `timeout_queue_` of the scheduler. -/
  timer : Option ℚ := none
  mailbox : List EventType := [.start]
  stack : List Frame := []
  now : ℚ := 0
  log : List (Event Int64 ℚ) := []

namespace MultiTimeout

def Frame.toGuard : Frame → Option (ℕ × ℕ)
  | guard i mailboxSize => some (i, mailboxSize)
  | callbacks _ => none

def Frame.toKeys : Frame → Option (List Int64)
  | guard _ _ => none
  | callbacks expiredKeys => some expiredKeys

/-- `ActorInfo::is_running` -/
def isRunning (s : MultiTimeout) : Bool := !(s.stack.filterMap Frame.toGuard).isEmpty

/-- The events of the mailbox that have not been processed yet. -/
def waiting (s : MultiTimeout) : List EventType :=
  match s.stack.filterMap Frame.toGuard with
  | [] => s.mailbox
  | (i, _) :: _ => s.mailbox.drop i

/-- Something has happened. -/
def record (s : MultiTimeout) (event : Event Int64 ℚ) : MultiTimeout :=
  { s with log := s.log ++ [event] }

/-- `update_timeout` -/
def updateTimeout (s : MultiTimeout) : Except KHeap.Fault MultiTimeout :=
  if s.items = ∅ then
    if s.timeoutQueue.array ≠ [] then .error .check
    else
      match s.timer with
      | none => if .timeout ∈ s.mailbox then .ok s else .error .check
      | some _ => .ok { s with timer := none }
  else
    match s.timeoutQueue.topKey with
    | none => .error .outOfRange
    | some top => .ok { s with timer := some top }

/-- `set_timeout_at` -/
def setTimeoutAt (s : MultiTimeout) (key : Int64) (timeout : ℚ) :
    Except KHeap.Fault MultiTimeout := do
  let second : Bool := key ∉ s.items
  let s := { s with items := insert key s.items }.record (.set key timeout)
  if s.timeoutQueue.inHeap key then
    if second then throw .check
    let needUpdateTimeout := s.timeoutQueue.isTop key
    let timeoutQueue ← s.timeoutQueue.fix 4 timeout key
    let s := { s with timeoutQueue := timeoutQueue }
    if needUpdateTimeout || timeoutQueue.isTop key then s.updateTimeout else return s
  else
    if !second then throw .check
    let timeoutQueue ← s.timeoutQueue.insert 4 timeout key
    let s := { s with timeoutQueue := timeoutQueue }
    if timeoutQueue.isTop key then s.updateTimeout else return s

/-- `add_timeout_at` -/
def addTimeoutAt (s : MultiTimeout) (key : Int64) (timeout : ℚ) :
    Except KHeap.Fault MultiTimeout := do
  let second : Bool := key ∉ s.items
  let s := { s with items := insert key s.items }.record (.add key timeout)
  if s.timeoutQueue.inHeap key then
    if second then throw .check
    return s
  else
    if !second then throw .check
    let timeoutQueue ← s.timeoutQueue.insert 4 timeout key
    let s := { s with timeoutQueue := timeoutQueue }
    if timeoutQueue.isTop key then s.updateTimeout else return s

/-- `cancel_timeout` -/
def cancelTimeout (s : MultiTimeout) (key : Int64) : Except KHeap.Fault MultiTimeout := do
  let s := s.record (.cancel key)
  if key ∈ s.items then
    if !s.timeoutQueue.inHeap key then throw .check
    let needUpdateTimeout := s.timeoutQueue.isTop key
    let timeoutQueue ← s.timeoutQueue.erase 4 key
    let s := { s with timeoutQueue := timeoutQueue, items := s.items.erase key }
    if needUpdateTimeout then s.updateTimeout else return s
  else return s

/-- The loop of `get_expired_keys`. -/
def getExpiredKeysLoop (now : ℚ) :
    ℕ → MultiTimeout → Except KHeap.Fault (List Int64 × MultiTimeout)
  | 0, _ => .error .fuel
  | fuel + 1, s =>
    match s.timeoutQueue.topKey with
    | none => .ok ([], s)
    | some top =>
      if top < now then do
        let (key, timeoutQueue) ← s.timeoutQueue.pop 4
        let (keys, s) ← getExpiredKeysLoop now fuel
          { s with timeoutQueue := timeoutQueue, items := s.items.erase key }
        return (key :: keys, s)
      else .ok ([], s)

/-- `get_expired_keys` -/
def getExpiredKeys (s : MultiTimeout) (now : ℚ) : Except KHeap.Fault (List Int64 × MultiTimeout) :=
  getExpiredKeysLoop now (s.timeoutQueue.array.length + 1) s

/-- The loop over the expired keys begins. -/
def startCallbacks (s : MultiTimeout) (expiredKeys : List Int64) : MultiTimeout :=
  { s with stack := .callbacks expiredKeys :: s.stack }

/-- `timeout_expired`, up to its loop. -/
def timeoutExpired (s : MultiTimeout) : Except KHeap.Fault MultiTimeout := do
  let (expiredKeys, s) ← (s.record (.start .clock)).getExpiredKeys s.now
  let s ← (if s.items ≠ ∅ then s.updateTimeout else pure s)
  return s.startCallbacks expiredKeys

/-- `run_all`, up to its loop. -/
def runAll (s : MultiTimeout) : Except KHeap.Fault MultiTimeout := do
  let (expiredKeys, s) ←
    (s.record (.start (.bound (s.now + 10 ^ 10)))).getExpiredKeys (s.now + 10 ^ 10)
  let s ← (if expiredKeys ≠ [] then s.updateTimeout else pure s)
  return s.startCallbacks expiredKeys

/-! ## The scheduler -/

/-- `do_event`.  What a closure calls is called by itself. -/
def doEvent (s : MultiTimeout) : EventType → Except KHeap.Fault MultiTimeout
  | .timeout => s.timeoutExpired
  | .start | .yield | .raw | .custom => return s

/-- `send_impl` -/
def sendImpl (s : MultiTimeout) (immediate : Bool) (event : EventType) :
    Except KHeap.Fault MultiTimeout :=
  if immediate ∧ s.isRunning = false ∧ s.mailbox = [] then
    { s with stack := .guard 0 0 :: s.stack }.doEvent event
  else return { s with mailbox := s.mailbox ++ [event] }

/-- The part of `run_timeout` that is about this actor. -/
def runTimeout (s : MultiTimeout) (now : ℚ) : Except KHeap.Fault MultiTimeout :=
  match s.timer with
  | none => return s
  | some timer => if timer < now then { s with timer := none }.sendImpl true .timeout else return s

/-- `flush_mailbox`, up to its loop. -/
def flushMailbox (s : MultiTimeout) : MultiTimeout :=
  { s with stack := .guard 0 s.mailbox.length :: s.stack }

/-- What is on top of the stack goes on. -/
def resume (s : MultiTimeout) : Except KHeap.Fault MultiTimeout :=
  match s.stack with
  | [] => return s
  | .callbacks (key :: keys) :: stack =>
    return { s with stack := .callbacks keys :: stack }.record (.deliver key)
  | .callbacks [] :: stack => return { s with stack := stack }.record .finish
  | .guard i mailboxSize :: stack =>
    if i < mailboxSize then
      match s.mailbox[i]? with
      | none => .error .outOfRange
      | some event => { s with stack := .guard (i + 1) mailboxSize :: stack }.doEvent event
    else return { s with mailbox := s.mailbox.drop i, stack := stack }

/-! ## Runs -/

inductive Op where
  | setTimeoutAt (key : Int64) (timeout : ℚ)
  | addTimeoutAt (key : Int64) (timeout : ℚ)
  | cancelTimeout (key : Int64)
  | runAll
  /-- Another event is sent to the actor. -/
  | send (immediate : Bool) (event : EventType)
  | resume
  | flushMailbox
  /-- `now` is the time that the scheduler has read. -/
  | runTimeout (now : ℚ)
  | tick (now : ℚ)

def step (s : MultiTimeout) : Op → Except KHeap.Fault MultiTimeout
  | .setTimeoutAt key timeout => s.setTimeoutAt key timeout
  | .addTimeoutAt key timeout => s.addTimeoutAt key timeout
  | .cancelTimeout key => s.cancelTimeout key
  | .runAll => s.runAll
  | .send immediate event => s.sendImpl immediate event
  | .resume => s.resume
  | .flushMailbox => return s.flushMailbox
  | .runTimeout now => s.runTimeout now
  | .tick now => return { s with now := now }.record (.tick now)

/-- The actor is called at any time; the scheduler goes on when nothing runs; time does not go
back. -/
def Allows (s : MultiTimeout) : Op → Prop
  | .setTimeoutAt _ _ | .addTimeoutAt _ _ | .cancelTimeout _ | .runAll => True
  | .send _ event => event ≠ .timeout
  | .resume => s.stack ≠ []
  | .flushMailbox => s.stack = [] ∧ s.mailbox ≠ []
  | .runTimeout now => s.stack = [] ∧ now ≤ s.now
  | .tick now => s.now ≤ now

/-- The states that operations lead to, through states with these numbers of timeouts. -/
inductive Reachable (sizes : Set ℕ) : MultiTimeout → Prop where
  | init : Reachable sizes {}
  | step {s s' : MultiTimeout} {op : Op} : Reachable sizes s → s.Allows op → s.step op = .ok s' →
    s'.timeoutQueue.array.length ∈ sizes → Reachable sizes s'

/-! ## Invariants -/

/-- The keys are the nodes of a heap, and at most one guard is on the stack. -/
structure Base (s : MultiTimeout) : Prop where
  valid : s.timeoutQueue.Valid 4
  items : ∀ key, key ∈ s.items ↔ s.timeoutQueue.Mem key
  guards : s.stack.filterMap Frame.toGuard = [] ∨ ∃ i mailboxSize,
    s.stack.filterMap Frame.toGuard = [(i, mailboxSize)] ∧ i ≤ mailboxSize ∧
      mailboxSize ≤ s.mailbox.length

/-- The timer is set to the smallest timeout, unless it is over. -/
structure Good (s : MultiTimeout) : Prop extends Base s where
  timer : s.items ≠ ∅ → .timeout ∈ s.waiting ∨ s.timer = s.timeoutQueue.topKey

/-- The key and the timeout of an item of the heap. -/
def entry (item : KHeap.Item ℚ Int64) : Int64 × ℚ := (item.node, item.key)

/-- The settings in force are in the heap, and those that are due on the stack. -/
structure Tracks (s : MultiTimeout) (t : History Int64 ℚ) : Prop where
  log : History.history 0 s.log = some t
  now : t.now = s.now
  active : (s.timeoutQueue.array.map entry).Perm
    (t.active.map fun setting ↦ (setting.key, setting.timeout))
  due : List.Forall₂ (fun keys batch ↦ keys.Perm (batch.settings.map Setting.key))
    (s.stack.filterMap Frame.toKeys) t.due

variable {s s' : MultiTimeout} {t t' : History Int64 ℚ} {op : Op} {key : Int64} {timeout : ℚ}
  {timeoutQueue : KHeap ℚ Int64} {event : EventType}

theorem Tracks.log_record (h : Tracks s t) {event : Event Int64 ℚ} (ht : t.track event = some t') :
    History.history 0 (s.record event).log = some t' :=
  (History.history_concat 0 h.log event).trans ht

theorem Base.items_eq_empty (h : Base s) : s.items = ∅ ↔ s.timeoutQueue.array = [] := by
  constructor
  · intro hitems
    by_contra hne
    obtain ⟨item, hitem⟩ := List.exists_mem_of_ne_nil _ hne
    have hmem := (h.items item.node).2 ⟨item, hitem, rfl⟩
    rw [hitems] at hmem
    exact Finset.notMem_empty _ hmem
  · intro harray
    refine Finset.eq_empty_of_forall_notMem fun key hkey ↦ ?_
    obtain ⟨item, hitem, -⟩ := (h.items key).1 hkey
    rw [harray] at hitem
    exact List.not_mem_nil hitem

theorem Base.exists_topKey (h : Base s) (hne : s.items ≠ ∅) :
    ∃ top, s.timeoutQueue.topKey = some top := by
  cases harray : s.timeoutQueue.array with
  | nil => exact absurd (h.items_eq_empty.2 harray) hne
  | cons item array => exact ⟨item.key, by rw [KHeap.topKey, harray]; rfl⟩

theorem mem_mailbox_of_waiting (h : event ∈ s.waiting) : event ∈ s.mailbox := by
  rw [waiting] at h
  split at h
  · exact h
  · exact List.mem_of_mem_drop h

/-- While there are keys, an event waits or the timer is set. -/
theorem Good.armed (h : Good s) (hne : s.items ≠ ∅) :
    s.timer ≠ none ∨ .timeout ∈ s.mailbox := by
  rcases h.timer hne with hwaits | htimer
  · exact .inr (mem_mailbox_of_waiting hwaits)
  · obtain ⟨top, htop⟩ := h.exists_topKey hne
    rw [htimer, htop]
    exact .inl (Option.some_ne_none _)

theorem updateTimeout_of_ne (hne : s.items ≠ ∅) {top : ℚ}
    (htop : s.timeoutQueue.topKey = some top) :
    s.updateTimeout = .ok { s with timer := some top } := by
  rw [MultiTimeout.updateTimeout, if_neg hne, htop]

/-- `update_timeout` sets the timer. -/
theorem Base.updateTimeout (h : Base s)
    (hcheck : s.items = ∅ → s.timer ≠ none ∨ .timeout ∈ s.mailbox) :
    ∃ timer, s.updateTimeout = .ok { s with timer := timer } ∧ Good { s with timer := timer } := by
  by_cases hitems : s.items = ∅
  · rw [MultiTimeout.updateTimeout, if_pos hitems,
      if_neg (not_not.2 (h.items_eq_empty.1 hitems))]
    refine ⟨none, ?_, { h with timer := fun hne ↦ absurd hitems hne }⟩
    cases htimer : s.timer with
    | none =>
      have hmailbox := (hcheck hitems).resolve_left (not_not.2 htimer)
      dsimp only
      rw [if_pos hmailbox, ← htimer]
    | some top => rfl
  · obtain ⟨top, htop⟩ := h.exists_topKey hitems
    exact ⟨some top, updateTimeout_of_ne hitems htop, { h with timer := fun _ ↦ .inr htop.symm }⟩

/-- After a change of the heap, the timer is set when the top has changed. -/
theorem Good.settle (h : Good s) {items : Finset Int64} {log : List (Event Int64 ℚ)}
    (needUpdateTimeout : Bool)
    (hb : Base { s with timeoutQueue := timeoutQueue, items := items, log := log })
    (hempty : items = ∅ → s.items ≠ ∅)
    (htop : needUpdateTimeout = false → items ≠ ∅ →
      s.items ≠ ∅ ∧ timeoutQueue.topKey = s.timeoutQueue.topKey) :
    ∃ timer, (if needUpdateTimeout then
        { s with timeoutQueue := timeoutQueue, items := items, log := log }.updateTimeout
      else pure { s with timeoutQueue := timeoutQueue, items := items, log := log }) =
        .ok { s with timeoutQueue := timeoutQueue, items := items, log := log, timer := timer } ∧
      Good { s with
        timeoutQueue := timeoutQueue, items := items, log := log, timer := timer } := by
  cases needUpdateTimeout with
  | true => exact hb.updateTimeout fun hitems ↦ h.armed (hempty hitems)
  | false =>
    refine ⟨s.timer, rfl, { hb with timer := fun hne ↦ ?_ }⟩
    obtain ⟨hne', htop'⟩ := htop rfl hne
    exact (h.timer hne').imp_right fun htimer ↦ htimer.trans htop'.symm

/-! ## Calls -/

theorem Tracks.withdraw_perm (h : Tracks s t) {olds rest : List (KHeap.Item ℚ Int64)}
    (hperm : s.timeoutQueue.array.Perm (olds ++ rest)) (holds : ∀ item ∈ olds, item.node = key)
    (hrest : ∀ item ∈ rest, item.node ≠ key) :
    (rest.map entry).Perm
      ((t.withdraw key).active.map fun setting ↦ (setting.key, setting.timeout)) := by
  have hfilter := (((hperm.map entry).symm.trans h.active).filter fun pair ↦ pair.1 ≠ key)
  rw [List.map_append, List.filter_append, List.filter_map, List.filter_map, List.filter_map]
    at hfilter
  rw [List.filter_eq_nil_iff.2, List.filter_eq_self.2] at hfilter
  · exact hfilter
  · exact fun item hitem ↦ decide_eq_true (hrest item hitem)
  · exact fun item hitem hne ↦ of_decide_eq_true hne (holds item hitem)

theorem mem_iff_of_perm {h : KHeap ℚ Int64} {item : KHeap.Item ℚ Int64}
    {rest : List (KHeap.Item ℚ Int64)} (hperm : h.array.Perm (item :: rest))
    (hnode : item.node = key) (key' : Int64) :
    h.Mem key' ↔ key' = key ∨ ∃ other ∈ rest, other.node = key' := by
  rw [← hnode]
  constructor
  · rintro ⟨other, hother, rfl⟩
    rcases List.mem_cons.1 (hperm.mem_iff.1 hother) with rfl | hother
    · exact .inl rfl
    · exact .inr ⟨other, hother, rfl⟩
  · rintro (rfl | ⟨other, hother, rfl⟩)
    · exact ⟨item, hperm.mem_iff.2 List.mem_cons_self, rfl⟩
    · exact ⟨other, hperm.mem_iff.2 (List.mem_cons_of_mem _ hother), rfl⟩

theorem node_ne_of_perm {h : KHeap ℚ Int64} (hv : h.Valid 4) {item : KHeap.Item ℚ Int64}
    {rest : List (KHeap.Item ℚ Int64)} (hperm : h.array.Perm (item :: rest))
    (hnode : item.node = key) : ∀ other ∈ rest, other.node ≠ key := by
  have hnodup := ((hperm.map KHeap.Item.node).nodup_iff).1 hv.nodup
  rw [List.map_cons, List.nodup_cons, hnode] at hnodup
  rintro other hother rfl
  exact hnodup.1 (List.mem_map_of_mem hother)

/-- A key is taken out of the heap and of the items. -/
theorem Base.erase (h : Base s) (hvalid : timeoutQueue.Valid 4) {item : KHeap.Item ℚ Int64}
    (hperm : s.timeoutQueue.array.Perm (item :: timeoutQueue.array)) (hnode : item.node = key)
    (log : List (Event Int64 ℚ)) :
    Base { s with timeoutQueue, items := s.items.erase key, log } where
  valid := hvalid
  items key' := by
    rw [Finset.mem_erase, h.items, mem_iff_of_perm hperm hnode]
    constructor
    · exact fun hkey' ↦ hkey'.2.resolve_left hkey'.1
    · rintro ⟨other, hmem', rfl⟩
      exact ⟨node_ne_of_perm h.valid hperm hnode other hmem', .inr ⟨other, hmem', rfl⟩⟩
  guards := h.guards

/-- A new key is put into the heap. -/
theorem Good.insert (h : Good s) (hsize : s.timeoutQueue.array.length ≤ 2 ^ 31)
    (hkey : key ∉ s.items) (timeout : ℚ) (log : List (Event Int64 ℚ)) :
    ∃ timeoutQueue timer, s.timeoutQueue.insert 4 timeout key = .ok timeoutQueue ∧
      timeoutQueue.array.Perm (⟨timeout, key⟩ :: s.timeoutQueue.array) ∧
      (if timeoutQueue.isTop key then
        { s with timeoutQueue, items := Insert.insert key s.items, log }.updateTimeout
      else pure { s with timeoutQueue, items := Insert.insert key s.items, log }) =
        .ok { s with timeoutQueue, items := Insert.insert key s.items, log, timer } ∧
      Good { s with timeoutQueue, items := Insert.insert key s.items, log, timer } := by
  have hmem : ¬s.timeoutQueue.Mem key := fun hmem ↦ hkey ((h.items key).2 hmem)
  obtain ⟨timeoutQueue, hinsert, hvalid, hperm⟩ := h.valid.insert timeout hmem
  have hb : Base { s with timeoutQueue, items := Insert.insert key s.items, log } :=
    { valid := hvalid
      items := fun key' ↦ by
        rw [mem_iff_of_perm hperm rfl, Finset.mem_insert, h.items]
        rfl
      guards := h.guards }
  have hlength := hperm.length_eq
  rw [List.length_cons] at hlength
  obtain ⟨timer, hrun, hgood⟩ := h.settle (timeoutQueue.isTop key) hb
    (fun hempty ↦ absurd hempty (Finset.insert_ne_empty _ _)) (fun htop hne ↦ by
      have hnot : s.timeoutQueue.isTop key = false := by
        rw [Bool.eq_false_iff, Ne, h.valid.isTop_iff (by omega)]
        rintro ⟨item, hhead, hnode⟩
        exact hmem ⟨item, List.mem_of_head? hhead, hnode⟩
      have heq : timeoutQueue.topKey = s.timeoutQueue.topKey :=
        h.valid.topKey_eq_of_isTop_eq_false [] [⟨timeout, key⟩] hvalid (by omega) (by omega)
          (.refl _) hperm (List.forall_mem_nil _)
          (fun item hitem ↦ by rw [List.mem_singleton.1 hitem]) hnot htop
      refine ⟨fun hempty ↦ ?_, heq⟩
      obtain ⟨top, htopKey⟩ := hb.exists_topKey hne
      rw [heq, KHeap.topKey, h.items_eq_empty.1 hempty] at htopKey
      cases htopKey)
  exact ⟨timeoutQueue, timer, hinsert, hperm, hrun, hgood⟩

/-- The settings after a key is set. -/
theorem Tracks.set (h : Tracks s t) {olds rest array : List (KHeap.Item ℚ Int64)}
    (hperm : s.timeoutQueue.array.Perm (olds ++ rest)) (holds : ∀ item ∈ olds, item.node = key)
    (hrest : ∀ item ∈ rest, item.node ≠ key) (harray : array.Perm (⟨timeout, key⟩ :: rest)) :
    (array.map entry).Perm
      ((t.set key timeout).active.map fun setting ↦ (setting.key, setting.timeout)) := by
  refine (harray.map entry).trans ?_
  rw [History.set, List.map_append]
  exact ((h.withdraw_perm hperm holds hrest).cons _).trans (List.perm_append_singleton _ _).symm

/-- `set_timeout_at` -/
theorem Good.setTimeoutAt (h : Good s) (ht : Tracks s t)
    (hsize : s.timeoutQueue.array.length ≤ 2 ^ 31) (key : Int64) (timeout : ℚ) :
    ∃ s' t', s.setTimeoutAt key timeout = .ok s' ∧ Good s' ∧ Tracks s' t' := by
  have hlog := ht.log_record (show t.track (.set key timeout) = some (t.set key timeout) from rfl)
  rw [MultiTimeout.setTimeoutAt]
  by_cases hkey : key ∈ s.items
  · have hmem := (h.items key).1 hkey
    obtain ⟨timeoutQueue, old, rest, hfix, hvalid, hold, hperm, hperm'⟩ :=
      h.valid.fix (by decide) hsize timeout hmem
    have hlength := hperm.length_eq.trans hperm'.length_eq.symm
    have hb : Base { s.record (.set key timeout) with
        timeoutQueue, items := Insert.insert key s.items } :=
      { valid := hvalid
        items := fun key' ↦ by
          rw [Finset.mem_insert, h.items, mem_iff_of_perm hperm hold, mem_iff_of_perm hperm' rfl,
            or_self_left]
        guards := h.guards }
    obtain ⟨timer, hrun, hgood⟩ := h.settle (s.timeoutQueue.isTop key || timeoutQueue.isTop key) hb
      (fun hempty ↦ absurd hempty (Finset.insert_ne_empty _ _)) (fun htop _ ↦ by
        rw [Bool.or_eq_false_iff] at htop
        exact ⟨Finset.ne_empty_of_mem hkey,
          h.valid.topKey_eq_of_isTop_eq_false [old] [⟨timeout, key⟩] hvalid (by omega) (by omega)
            hperm hperm' (fun item hitem ↦ by rw [List.mem_singleton.1 hitem, hold])
            (fun item hitem ↦ by rw [List.mem_singleton.1 hitem]) htop.1 htop.2⟩)
    have hset := ht.set (show _ from List.Perm.trans hperm (.refl ([old] ++ rest)))
      (fun item hitem ↦ by rw [List.mem_singleton.1 hitem, hold])
      (node_ne_of_perm h.valid hperm hold) hperm'
    refine ⟨_, t.set key timeout, ?_, hgood, hlog, ht.now, hset, ht.due⟩
    have hin : s.timeoutQueue.inHeap key = true := (h.valid.inHeap_iff hsize).2 hmem
    have hsecond : decide (key ∉ s.items) = false := decide_eq_false (not_not.2 hkey)
    simp only [hsecond, record, hin, if_true, Bool.false_eq_true, if_false, hfix, ok_bind]
    exact hrun
  · obtain ⟨timeoutQueue, timer, hinsert, hperm, hrun, hgood⟩ :=
      h.insert hsize hkey timeout (s.record (.set key timeout)).log
    have hmem : ¬s.timeoutQueue.Mem key := fun hmem ↦ hkey ((h.items key).2 hmem)
    have hset := ht.set (.refl ([] ++ s.timeoutQueue.array)) (List.forall_mem_nil _)
      (fun item hitem hnode ↦ hmem ⟨item, hitem, hnode⟩) hperm
    refine ⟨_, t.set key timeout, ?_, hgood, hlog, ht.now, hset, ht.due⟩
    have hin : ¬s.timeoutQueue.inHeap key = true :=
      fun hin ↦ hmem ((h.valid.inHeap_iff hsize).1 hin)
    have hsecond : decide (key ∉ s.items) = true := decide_eq_true hkey
    simp only [hsecond, record, hin, if_false, Bool.not_true, Bool.false_eq_true, hinsert, ok_bind]
    exact hrun

/-- The keys that are set are those of the items. -/
theorem Tracks.mem_keys (h : Tracks s t) (key : Int64) :
    key ∈ t.active.map Setting.key ↔ s.timeoutQueue.Mem key := by
  have hkeys := (h.active.map Prod.fst).mem_iff (a := key)
  rw [List.map_map, List.map_map] at hkeys
  exact hkeys.symm.trans List.mem_map

/-- `add_timeout_at` -/
theorem Good.addTimeoutAt (h : Good s) (ht : Tracks s t)
    (hsize : s.timeoutQueue.array.length ≤ 2 ^ 31) (key : Int64) (timeout : ℚ) :
    ∃ s' t', s.addTimeoutAt key timeout = .ok s' ∧ Good s' ∧ Tracks s' t' := by
  rw [MultiTimeout.addTimeoutAt]
  by_cases hkey : key ∈ s.items
  · have hmem := (h.items key).1 hkey
    have htrack : t.track (.add key timeout) = some t := by
      rw [History.track, if_pos ((ht.mem_keys key).2 hmem)]
    refine ⟨s.record (.add key timeout), t, ?_, { h with }, ht.log_record htrack, ht.now, ht.active,
      ht.due⟩
    have hin : s.timeoutQueue.inHeap key = true := (h.valid.inHeap_iff hsize).2 hmem
    have hsecond : decide (key ∉ s.items) = false := decide_eq_false (not_not.2 hkey)
    simp only [hsecond, record, hin, if_true, Bool.false_eq_true, if_false,
      Finset.insert_eq_self.2 hkey]
    rfl
  · obtain ⟨timeoutQueue, timer, hinsert, hperm, hrun, hgood⟩ :=
      h.insert hsize hkey timeout (s.record (.add key timeout)).log
    have hmem : ¬s.timeoutQueue.Mem key := fun hmem ↦ hkey ((h.items key).2 hmem)
    have htrack : t.track (.add key timeout) = some (t.set key timeout) := by
      rw [History.track, if_neg fun hkeys ↦ hmem ((ht.mem_keys key).1 hkeys)]
    have hset := ht.set (.refl ([] ++ s.timeoutQueue.array)) (List.forall_mem_nil _)
      (fun item hitem hnode ↦ hmem ⟨item, hitem, hnode⟩) hperm
    refine ⟨_, t.set key timeout, ?_, hgood, ht.log_record htrack, ht.now, hset, ht.due⟩
    have hin : ¬s.timeoutQueue.inHeap key = true :=
      fun hin ↦ hmem ((h.valid.inHeap_iff hsize).1 hin)
    have hsecond : decide (key ∉ s.items) = true := decide_eq_true hkey
    simp only [hsecond, record, hin, if_false, Bool.not_true, Bool.false_eq_true, hinsert, ok_bind]
    exact hrun

/-- `cancel_timeout` -/
theorem Good.cancelTimeout (h : Good s) (ht : Tracks s t)
    (hsize : s.timeoutQueue.array.length ≤ 2 ^ 31) (key : Int64) :
    ∃ s' t', s.cancelTimeout key = .ok s' ∧ Good s' ∧ Tracks s' t' := by
  have hlog := ht.log_record (show t.track (.cancel key) = some (t.withdraw key) from rfl)
  rw [MultiTimeout.cancelTimeout]
  by_cases hkey : key ∈ s.items
  · have hmem := (h.items key).1 hkey
    obtain ⟨timeoutQueue, item, herase, hvalid, hnode, hperm⟩ :=
      h.valid.erase (by decide) hsize hmem
    have hlength := hperm.length_eq
    rw [List.length_cons] at hlength
    have hother := node_ne_of_perm h.valid hperm hnode
    have hb := h.erase hvalid hperm hnode (s.record (.cancel key)).log
    have hnot : timeoutQueue.isTop key = false := by
      rw [Bool.eq_false_iff, Ne, hvalid.isTop_iff (by omega)]
      rintro ⟨other, hhead, hnode'⟩
      exact hother other (List.mem_of_head? hhead) hnode'
    obtain ⟨timer, hrun, hgood⟩ := h.settle (s.timeoutQueue.isTop key) hb
      (fun _ ↦ Finset.ne_empty_of_mem hkey) (fun htop _ ↦ ⟨Finset.ne_empty_of_mem hkey,
        h.valid.topKey_eq_of_isTop_eq_false [item] [] hvalid (by omega) (by omega) hperm (.refl _)
          (fun item' hitem ↦ by rw [List.mem_singleton.1 hitem, hnode]) (List.forall_mem_nil _) htop
          hnot⟩)
    have hwithdraw := ht.withdraw_perm (show _ from List.Perm.trans hperm (.refl ([item] ++ _)))
      (fun item' hitem ↦ by rw [List.mem_singleton.1 hitem, hnode]) hother
    refine ⟨_, t.withdraw key, ?_, hgood, hlog, ht.now, hwithdraw, ht.due⟩
    have hin : s.timeoutQueue.inHeap key = true := (h.valid.inHeap_iff hsize).2 hmem
    simp only [record, hkey, hin, if_true, Bool.not_true, Bool.false_eq_true, if_false, herase,
      ok_bind]
    exact hrun
  · have hmem : ¬s.timeoutQueue.Mem key := fun hmem ↦ hkey ((h.items key).2 hmem)
    have hwithdraw := ht.withdraw_perm (.refl ([] ++ s.timeoutQueue.array)) (List.forall_mem_nil _)
      (fun item hitem hnode ↦ hmem ⟨item, hitem, hnode⟩)
    refine ⟨s.record (.cancel key), t.withdraw key, ?_, { h with }, hlog, ht.now, hwithdraw, ht.due⟩
    exact if_neg hkey

/-! ## Loops -/

/-- `get_expired_keys` takes the keys out whose timeout is before `now`. -/
theorem Base.getExpiredKeysLoop (h : Base s) (now : ℚ) {fuel : ℕ}
    (hfuel : s.timeoutQueue.array.length < fuel) :
    ∃ popped timeoutQueue items, getExpiredKeysLoop now fuel s =
        .ok (popped.map KHeap.Item.node, { s with timeoutQueue, items }) ∧
      Base { s with timeoutQueue, items } ∧
      s.timeoutQueue.array.Perm (popped ++ timeoutQueue.array) ∧
      (∀ item ∈ popped, item.key < now) ∧ (∀ item ∈ timeoutQueue.array, now ≤ item.key) ∧
      (popped = [] → timeoutQueue = s.timeoutQueue ∧ items = s.items) := by
  induction fuel generalizing s with
  | zero => exact absurd hfuel (Nat.not_lt_zero _)
  | succ fuel ih =>
    rw [MultiTimeout.getExpiredKeysLoop]
    cases htop : s.timeoutQueue.topKey with
    | none =>
      have harray : s.timeoutQueue.array = [] :=
        List.head?_eq_none_iff.1 (Option.map_eq_none_iff.1 htop)
      refine ⟨[], s.timeoutQueue, s.items, rfl, h, .refl _, List.forall_mem_nil _, ?_,
        fun _ ↦ ⟨rfl, rfl⟩⟩
      rw [harray]
      exact List.forall_mem_nil _
    | some top =>
      dsimp only
      obtain ⟨first, hfirst, rfl⟩ := Option.map_eq_some_iff.1 htop
      split_ifs with hlt
      · have hne : s.timeoutQueue.array ≠ [] := List.ne_nil_of_mem (List.mem_of_head? hfirst)
        obtain ⟨timeoutQueue, item, hpop, hvalid, hperm, htop', -⟩ := h.valid.pop (by decide) hne
        obtain heq : first.key = item.key := Option.some.inj (htop.symm.trans htop')
        have hlength := hperm.length_eq
        rw [List.length_cons] at hlength
        have hb := h.erase hvalid hperm rfl s.log
        obtain ⟨popped, timeoutQueue', items', hrun, hb', hperm', hpopped, hrest, -⟩ :=
          ih hb (show timeoutQueue.array.length < fuel by omega)
        refine ⟨item :: popped, timeoutQueue', items', ?_, hb', hperm.trans (hperm'.cons _), ?_,
          hrest, fun hnil ↦ absurd hnil (List.cons_ne_nil _ _)⟩
        · rw [hpop, ok_bind]
          dsimp only
          rw [hrun]
          rfl
        · rw [List.forall_mem_cons, ← heq]
          exact ⟨hlt, hpopped⟩
      · exact ⟨[], s.timeoutQueue, s.items, rfl, h, .refl _, List.forall_mem_nil _,
          fun item hitem ↦ (not_lt.1 hlt).trans (h.valid.top_le hfirst hitem), fun _ ↦ ⟨rfl, rfl⟩⟩

/-- The settings that are due are those of the keys that are taken out. -/
theorem Tracks.start (h : Tracks s t) (source : Source ℚ) {popped array : List (KHeap.Item ℚ Int64)}
    (hperm : s.timeoutQueue.array.Perm (popped ++ array))
    (hpopped : ∀ item ∈ popped, item.key < t.limit source)
    (harray : ∀ item ∈ array, t.limit source ≤ item.key) :
    (array.map entry).Perm
        ((t.start source).active.map fun setting ↦ (setting.key, setting.timeout)) ∧
      (popped.map KHeap.Item.node).Perm
        ((t.active.filter (·.timeout < t.limit source)).map Setting.key) := by
  have hentries := (hperm.map entry).symm.trans h.active
  rw [List.map_append] at hentries
  constructor
  · have hfilter := hentries.filter fun pair ↦ ¬pair.2 < t.limit source
    rw [List.filter_append, List.filter_map, List.filter_map, List.filter_map] at hfilter
    rw [List.filter_eq_nil_iff.2, List.filter_eq_self.2] at hfilter
    · exact hfilter
    · exact fun item hitem ↦ decide_eq_true (not_lt.2 (harray item hitem))
    · exact fun item hitem hge ↦ of_decide_eq_true hge (hpopped item hitem)
  · have hfilter := (hentries.filter fun pair ↦ pair.2 < t.limit source).map Prod.fst
    rw [List.filter_append, List.filter_map, List.filter_map, List.filter_map] at hfilter
    rw [List.filter_eq_self.2, List.filter_eq_nil_iff.2, List.map_nil, List.append_nil,
      List.map_map, List.map_map] at hfilter
    · exact hfilter
    · exact fun item hitem hlt ↦ (of_decide_eq_true hlt).not_ge (harray item hitem)
    · exact fun item hitem ↦ decide_eq_true (hpopped item hitem)

theorem Good.startCallbacks (h : Good s) (keys : List Int64) : Good (s.startCallbacks keys) :=
  { h with timer := h.timer }

/-- `timeout_expired` sets the timer again. -/
theorem Base.timeoutExpired (h : Base s) (ht : Tracks s t) :
    ∃ s' t', s.timeoutExpired = .ok s' ∧ Good s' ∧ Tracks s' t' := by
  have hlog := ht.log_record (show t.track (.start .clock) = some (t.start .clock) from rfl)
  have hr : Base (s.record (.start .clock)) := { h with }
  obtain ⟨popped, timeoutQueue, items, hrun, hb, hperm, hpopped, harray, -⟩ :=
    hr.getExpiredKeysLoop s.now (Nat.lt_succ_self _)
  obtain ⟨timer, hupdate, hgood⟩ : ∃ timer,
      (if items ≠ ∅ then
        { s.record (.start .clock) with timeoutQueue, items }.updateTimeout
      else pure { s.record (.start .clock) with timeoutQueue, items }) =
        .ok { s.record (.start .clock) with timeoutQueue, items, timer } ∧
      Good { s.record (.start .clock) with timeoutQueue, items, timer } := by
    by_cases hitems : items = ∅
    · rw [if_neg (not_not.2 hitems)]
      exact ⟨s.timer, rfl, { hb with timer := fun hne ↦ absurd hitems hne }⟩
    · rw [if_pos hitems]
      exact hb.updateTimeout fun hempty ↦ absurd hempty hitems
  rw [← ht.now] at hpopped harray
  obtain ⟨hactive, hdue⟩ := ht.start .clock hperm hpopped harray
  refine ⟨_, t.start .clock, ?_, hgood.startCallbacks (popped.map KHeap.Item.node), hlog, ht.now,
    hactive, .cons hdue ht.due⟩
  rw [MultiTimeout.timeoutExpired, getExpiredKeys, hrun, ok_bind]
  dsimp only
  rw [hupdate]
  rfl

/-- `run_all` -/
theorem Good.runAll (h : Good s) (ht : Tracks s t) :
    ∃ s' t', s.runAll = .ok s' ∧ Good s' ∧ Tracks s' t' := by
  have hlog := ht.log_record (show t.track (.start (.bound (s.now + 10 ^ 10))) =
    some (t.start (.bound (s.now + 10 ^ 10))) from rfl)
  have hr : Base (s.record (.start (.bound (s.now + 10 ^ 10)))) := { h with }
  obtain ⟨popped, timeoutQueue, items, hrun, hb, hperm, hpopped, harray, hnil⟩ :=
    hr.getExpiredKeysLoop (s.now + 10 ^ 10) (Nat.lt_succ_self _)
  obtain ⟨timer, hupdate, hgood⟩ : ∃ timer,
      (if popped.map KHeap.Item.node ≠ [] then
        { s.record (.start (.bound (s.now + 10 ^ 10))) with timeoutQueue, items }.updateTimeout
      else pure { s.record (.start (.bound (s.now + 10 ^ 10))) with timeoutQueue, items }) =
        .ok { s.record (.start (.bound (s.now + 10 ^ 10))) with timeoutQueue, items, timer } ∧
      Good { s.record (.start (.bound (s.now + 10 ^ 10))) with timeoutQueue, items, timer } := by
    by_cases hpopped' : popped = []
    · obtain ⟨rfl, rfl⟩ := hnil hpopped'
      rw [if_neg (not_not.2 (List.map_eq_nil_iff.2 hpopped'))]
      exact ⟨s.timer, rfl, { hb with timer := h.timer }⟩
    · rw [if_pos fun hmap ↦ hpopped' (List.map_eq_nil_iff.1 hmap)]
      refine hb.updateTimeout fun _ ↦ h.armed fun hempty ↦ ?_
      have harray' := h.items_eq_empty.1 hempty
      change s.timeoutQueue.array.Perm _ at hperm
      rw [harray', List.nil_perm, List.append_eq_nil_iff] at hperm
      exact hpopped' hperm.1
  obtain ⟨hactive, hdue⟩ := ht.start (.bound (s.now + 10 ^ 10)) hperm hpopped harray
  refine ⟨_, t.start (.bound (s.now + 10 ^ 10)), ?_,
    hgood.startCallbacks (popped.map KHeap.Item.node), hlog, ht.now, hactive, .cons hdue ht.due⟩
  rw [MultiTimeout.runAll, getExpiredKeys, hrun, ok_bind]
  dsimp only
  rw [hupdate]
  rfl

/-! ## Events -/

theorem doEvent_of_ne (hne : event ≠ .timeout) : s.doEvent event = .ok s := by
  cases event with
  | timeout => exact absurd rfl hne
  | start | yield | raw | custom => rfl

/-- An event that is put into the mailbox. -/
theorem Base.push (h : Base s) (event : EventType) :
    Base { s with mailbox := s.mailbox ++ [event] } where
  valid := h.valid
  items := h.items
  guards := by
    refine h.guards.imp_right fun ⟨i, mailboxSize, hguards, hi, hle⟩ ↦
      ⟨i, mailboxSize, hguards, hi, ?_⟩
    rw [List.length_append]
    exact Nat.le_add_right_of_le hle

theorem Base.waiting_push (h : Base s) (event : EventType) :
    waiting { s with mailbox := s.mailbox ++ [event] } = s.waiting ++ [event] := by
  rw [waiting, waiting]
  rcases h.guards with hguards | ⟨i, mailboxSize, hguards, hi, hle⟩
  · rw [hguards]
  · rw [hguards]
    exact List.drop_append_of_le_length (hi.trans hle)

/-- An event that runs at once. -/
theorem Base.guard (h : Base s) (hrunning : s.isRunning = false) :
    Base { s with stack := .guard 0 0 :: s.stack } where
  valid := h.valid
  items := h.items
  guards := by
    rw [isRunning, Bool.not_eq_false', List.isEmpty_iff] at hrunning
    exact .inr ⟨0, 0, congrArg (_ :: ·) hrunning, le_rfl, Nat.zero_le _⟩

/-- The timer of the actor is over. -/
theorem Base.sendTimeout (h : Base s) (ht : Tracks s t) :
    ∃ s' t', s.sendImpl true .timeout = .ok s' ∧ Good s' ∧ Tracks s' t' := by
  rw [sendImpl]
  split_ifs with hrun
  · exact (h.guard hrun.2.1).timeoutExpired { ht with }
  · refine ⟨_, t, rfl, { h.push .timeout with timer := fun _ ↦ .inl ?_ }, { ht with }⟩
    rw [h.waiting_push]
    exact List.mem_append_right _ List.mem_cons_self

theorem Good.sendImpl (h : Good s) (ht : Tracks s t) (immediate : Bool) (hne : event ≠ .timeout) :
    ∃ s' t', s.sendImpl immediate event = .ok s' ∧ Good s' ∧ Tracks s' t' := by
  rw [MultiTimeout.sendImpl]
  split_ifs with hrun
  · refine ⟨_, t, doEvent_of_ne hne, { h.guard hrun.2.1 with timer := fun hitems ↦ ?_ },
      { ht with }⟩
    refine (h.timer hitems).imp_left fun hwaits ↦ ?_
    have hmailbox := mem_mailbox_of_waiting hwaits
    rw [hrun.2.2] at hmailbox
    cases hmailbox
  · refine ⟨_, t, rfl, { h.push event with timer := fun hitems ↦ ?_ }, { ht with }⟩
    refine (h.timer hitems).imp_left fun hwaits ↦ ?_
    rw [h.waiting_push]
    exact List.mem_append_left _ hwaits

/-- `run_timeout` -/
theorem Good.runTimeout (h : Good s) (ht : Tracks s t) (now : ℚ) :
    ∃ s' t', s.runTimeout now = .ok s' ∧ Good s' ∧ Tracks s' t' := by
  rw [MultiTimeout.runTimeout]
  cases s.timer with
  | none => exact ⟨s, t, rfl, h, ht⟩
  | some timer =>
    dsimp only
    split_ifs
    · exact Base.sendTimeout { h with } { ht with }
    · exact ⟨s, t, rfl, h, ht⟩

/-- `flush_mailbox` starts with the whole mailbox. -/
theorem Good.flushMailbox (h : Good s) (ht : Tracks s t) (hstack : s.stack = []) :
    Good s.flushMailbox ∧ Tracks s.flushMailbox t := by
  have hguards : s.flushMailbox.stack.filterMap Frame.toGuard = [(0, s.mailbox.length)] := by
    rw [MultiTimeout.flushMailbox, hstack]
    rfl
  refine ⟨⟨⟨h.valid, h.items, .inr ⟨_, _, hguards, Nat.zero_le _, le_rfl⟩⟩,
    fun hne ↦ (h.timer hne).imp_left fun hwaits ↦ ?_⟩, { ht with }⟩
  have hmailbox := mem_mailbox_of_waiting hwaits
  rw [waiting, hguards]
  exact hmailbox

theorem Base.guards_cons (h : Base s) {i mailboxSize : ℕ} {stack : List Frame}
    (hstack : s.stack = .guard i mailboxSize :: stack) :
    stack.filterMap Frame.toGuard = [] ∧ i ≤ mailboxSize ∧ mailboxSize ≤ s.mailbox.length := by
  rcases h.guards with hguards | ⟨i', mailboxSize', hguards, hi, hle⟩
  · rw [hstack] at hguards
    cases hguards
  · rw [hstack] at hguards
    obtain ⟨hpair, hnil⟩ := List.cons.inj hguards
    obtain ⟨rfl, rfl⟩ := Prod.mk.inj hpair
    exact ⟨hnil, hi, hle⟩

/-- The next event of the mailbox is processed. -/
theorem Good.resume_guard (h : Good s) (ht : Tracks s t) {i mailboxSize : ℕ} {stack : List Frame}
    (hstack : s.stack = .guard i mailboxSize :: stack) :
    ∃ s' t', s.resume = .ok s' ∧ Good s' ∧ Tracks s' t' := by
  obtain ⟨hnil, hi, hle⟩ := h.guards_cons hstack
  have hwaiting : s.waiting = s.mailbox.drop i := by
    rw [waiting, hstack]
    rfl
  have hdue := ht.due
  rw [hstack] at hdue
  rw [MultiTimeout.resume, hstack]
  dsimp only
  split_ifs with hlt
  · have hget : s.mailbox[i]? = some s.mailbox[i] := List.getElem?_eq_getElem (hlt.trans_le hle)
    rw [List.drop_eq_getElem_cons (hlt.trans_le hle)] at hwaiting
    generalize s.mailbox[i] = event at hget hwaiting
    have hb : Base { s with stack := .guard (i + 1) mailboxSize :: stack } :=
      { valid := h.valid
        items := h.items
        guards := .inr ⟨i + 1, mailboxSize, congrArg (_ :: ·) hnil, hlt, hle⟩ }
    have ht' : Tracks { s with stack := .guard (i + 1) mailboxSize :: stack } t :=
      { ht with due := hdue }
    rw [hget]
    by_cases hevent : event = .timeout
    · rw [hevent]
      exact hb.timeoutExpired ht'
    · refine ⟨_, t, doEvent_of_ne hevent, { hb with timer := fun hne ↦ ?_ }, ht'⟩
      refine (h.timer hne).imp_left fun hwaits ↦ ?_
      rw [hwaiting] at hwaits
      exact List.mem_of_ne_of_mem (Ne.symm hevent) hwaits
  · have heq : waiting { s with mailbox := s.mailbox.drop i, stack := stack } = s.waiting := by
      rw [hwaiting, waiting, hnil]
    refine ⟨_, t, rfl, ⟨⟨h.valid, h.items, .inl hnil⟩, fun hne ↦ ?_⟩, { ht with due := hdue }⟩
    rw [heq]
    exact h.timer hne

theorem waiting_congr {stack : List Frame}
    (hstack : stack.filterMap Frame.toGuard = s.stack.filterMap Frame.toGuard)
    (log : List (Event Int64 ℚ)) : waiting { s with stack, log } = s.waiting := by
  rw [waiting, waiting, hstack]

/-- The stack changes, but no guard does. -/
theorem Good.congr (h : Good s) {stack : List Frame}
    (hstack : stack.filterMap Frame.toGuard = s.stack.filterMap Frame.toGuard)
    (log : List (Event Int64 ℚ)) : Good { s with stack, log } where
  valid := h.valid
  items := h.items
  guards := by
    dsimp only
    rw [hstack]
    exact h.guards
  timer hne := by
    rw [waiting_congr hstack]
    exact h.timer hne

/-- The next callback is made, or there is none left. -/
theorem Good.resume_callbacks (h : Good s) (ht : Tracks s t) {keys : List Int64}
    {stack : List Frame} (hstack : s.stack = .callbacks keys :: stack) :
    ∃ s' t', s.resume = .ok s' ∧ Good s' ∧ Tracks s' t' := by
  have hdue := ht.due
  rw [hstack] at hdue
  cases hbatches : t.due with
  | nil =>
    rw [hbatches] at hdue
    cases hdue
  | cons batch due =>
    rw [hbatches] at hdue
    obtain ⟨hkeys, hrest⟩ := List.forall₂_cons.1 hdue
    rw [MultiTimeout.resume, hstack]
    cases keys with
    | nil =>
      have hsettings := List.map_eq_nil_iff.1 (List.nil_perm.1 hkeys)
      have htrack : t.track .finish = some { t with due := due } := by
        obtain ⟨source, settings⟩ := batch
        obtain rfl : settings = [] := hsettings
        rw [History.track, hbatches]
      exact ⟨_, _, rfl, h.congr (by rw [hstack]; rfl) _, ht.log_record htrack, ht.now, ht.active,
        hrest⟩
    | cons key keys =>
      obtain ⟨setting, hfind⟩ : ∃ setting, batch.settings.find? (·.key = key) = some setting := by
        obtain ⟨setting, hsetting, hkey⟩ := List.mem_map.1 (hkeys.mem_iff.1 List.mem_cons_self)
        rw [← Option.isSome_iff_exists, List.find?_isSome]
        exact ⟨setting, hsetting, decide_eq_true hkey⟩
      have htrack : t.track (.deliver key) = some { t with
          due := { batch with settings := batch.settings.eraseP (·.key = key) } :: due
          delivered := t.delivered ++ [⟨batch.source, setting, t.now⟩] } := by
        rw [History.track, hbatches]
        dsimp only
        rw [hfind]
      have hperm : keys.Perm ((batch.settings.eraseP (·.key = key)).map Setting.key) := by
        obtain rfl : setting.key = key := by simpa using List.find?_some hfind
        exact List.Perm.cons_inv (hkeys.trans ((History.perm_cons_eraseP hfind).map _))
      exact ⟨_, _, rfl, h.congr (by rw [hstack]; rfl) _, ht.log_record htrack, ht.now, ht.active,
        .cons hperm hrest⟩

/-- What is on top of the stack goes on. -/
theorem Good.resume (h : Good s) (ht : Tracks s t) :
    ∃ s' t', s.resume = .ok s' ∧ Good s' ∧ Tracks s' t' := by
  rcases hstack : s.stack with _ | ⟨⟨i, mailboxSize⟩ | keys, stack⟩
  · exact ⟨s, t, by rw [MultiTimeout.resume, hstack]; rfl, h, ht⟩
  · exact h.resume_guard ht hstack
  · exact h.resume_callbacks ht hstack

/-! ## Runs -/

theorem Good.init : Good {} where
  valid := .init
  items key := by
    refine iff_of_false (Finset.notMem_empty key) ?_
    rintro ⟨item, hitem, -⟩
    cases hitem
  guards := .inl rfl
  timer := fun hne ↦ absurd rfl hne

theorem Tracks.init : Tracks {} ⟨0, 0, [], [], [], []⟩ where
  log := rfl
  now := rfl
  active := .nil
  due := .nil

/-- Every operation that may happen returns, and keeps the invariants. -/
theorem Good.step (h : Good s) (ht : Tracks s t) (hsize : s.timeoutQueue.array.length ≤ 2 ^ 31)
    (hallows : s.Allows op) : ∃ s' t', s.step op = .ok s' ∧ Good s' ∧ Tracks s' t' := by
  cases op with
  | setTimeoutAt key timeout => exact h.setTimeoutAt ht hsize key timeout
  | addTimeoutAt key timeout => exact h.addTimeoutAt ht hsize key timeout
  | cancelTimeout key => exact h.cancelTimeout ht hsize key
  | runAll => exact h.runAll ht
  | send immediate event => exact h.sendImpl ht immediate hallows
  | resume => exact h.resume ht
  | flushMailbox => exact ⟨_, t, rfl, h.flushMailbox ht hallows.1⟩
  | runTimeout now => exact h.runTimeout ht now
  | tick now =>
    have hle : t.now ≤ now := by
      rw [ht.now]
      exact hallows
    exact ⟨_, { t with now := now }, rfl, { h with timer := h.timer },
      ht.log_record (if_pos hle), rfl, ht.active, ht.due⟩

theorem Reachable.good {sizes : Set ℕ} (hsizes : ∀ n ∈ sizes, n ≤ 2 ^ 31) (h : Reachable sizes s) :
    Good s ∧ (∃ t, Tracks s t) ∧ s.timeoutQueue.array.length ≤ 2 ^ 31 := by
  induction h with
  | init => exact ⟨.init, ⟨_, .init⟩, Nat.zero_le _⟩
  | @step s s' op _ hallows hstep hsize ih =>
    obtain ⟨hgood, ⟨t, ht⟩, hsize'⟩ := ih
    obtain ⟨s₁, t', hrun, hgood', ht'⟩ := hgood.step ht hsize' hallows
    obtain rfl := Except.ok.inj (hrun.symm.trans hstep)
    exact ⟨hgood', ⟨t', ht'⟩, hsizes _ hsize⟩

/-- The keys are the nodes of the heap, no check of the next operation fails, the timer is set to
the smallest timeout unless a `Timeout` event waits, and the callbacks so far are deliveries of
different settings that were not withdrawn and, but for `run_all`, are over. -/
structure Sound (s : MultiTimeout) : Prop where
  items : ∀ key, key ∈ s.items ↔ s.timeoutQueue.Mem key
  returns : ∀ op, s.Allows op → ∃ s', s.step op = .ok s'
  timer : s.items ≠ ∅ → .timeout ∉ s.waiting → ∃ item ∈ s.timeoutQueue.array,
    s.timer = some item.key ∧ ∀ other ∈ s.timeoutQueue.array, item.key ≤ other.key
  callbacks : ∃ t, History.history 0 s.log = some t ∧
    (t.delivered.map fun delivery ↦ delivery.setting.number).Nodup ∧
    (∀ delivery ∈ t.delivered, ∀ setting ∈ t.withdrawn,
      delivery.setting.number ≠ setting.number) ∧
    ∀ delivery ∈ t.delivered, delivery.source = .clock → delivery.setting.timeout < delivery.now

/-- As long as there are not more keys than an `int32` can count, each state is sound. -/
theorem timeouts_sound (h : Reachable {n | n ≤ 2 ^ 31} s) : Sound s := by
  obtain ⟨hgood, ⟨t, ht⟩, hsize⟩ := h.good fun n hn ↦ hn
  have hsound := History.Sound.of_history ht.log
  refine ⟨hgood.items, fun op hallows ↦ ?_, fun hne hnot ↦ ?_, t, ht.log, hsound.delivered_nodup,
    fun delivery hdelivery setting ↦ hsound.ne_withdrawn hdelivery, hsound.delivered⟩
  · obtain ⟨s', -, hrun, -⟩ := hgood.step ht hsize hallows
    exact ⟨s', hrun⟩
  · obtain ⟨top, htop⟩ := hgood.exists_topKey hne
    obtain ⟨item, hhead, rfl⟩ := Option.map_eq_some_iff.1 htop
    have htimer := (hgood.timer hne).resolve_left hnot
    rw [htop] at htimer
    exact ⟨item, List.mem_of_head? hhead, htimer,
      fun other hother ↦ hgood.valid.top_le hhead hother⟩

theorem timeouts_sound_one : ∃ s : MultiTimeout,
    s.log = [.set 7 1, .tick 2, .start .clock, .deliver 7] ∧ Sound s := by
  have h₁ : Reachable {n | n ≤ 2 ^ 31} _ :=
    Reachable.init.step (show Allows _ (.setTimeoutAt 7 1) from trivial) rfl (by decide)
  have h₃ := (h₁.step (show Allows _ .flushMailbox from ⟨rfl, List.cons_ne_nil _ _⟩) rfl
    (by decide)).step (show Allows _ .resume from List.cons_ne_nil _ _) rfl (by decide)
  have h₄ := h₃.step (show Allows _ .resume from List.cons_ne_nil _ _) rfl (by decide)
  have h₅ := h₄.step (show Allows _ (.tick 2) from (show (0 : ℚ) ≤ 2 by decide)) rfl (by decide)
  have h₆ := h₅.step (show Allows _ (.runTimeout 2) from ⟨rfl, le_refl (2 : ℚ)⟩) rfl (by decide)
  have h₇ := h₆.step (show Allows _ .resume from List.cons_ne_nil _ _) rfl (by decide)
  exact ⟨_, rfl, timeouts_sound h₇⟩

/-! ## More keys -/

theorem ofNat_inj {i j : ℕ} (hi : i ≤ 2 ^ 32) (hj : j ≤ 2 ^ 32)
    (h : Int64.ofNat i = Int64.ofNat j) : i = j := by
  have htoInt := congrArg Int64.toInt h
  rw [Int64.toInt_ofNat_of_lt (by omega), Int64.toInt_ofNat_of_lt (by omega)] at htoInt
  exact_mod_cast htoInt

/-- The keys `0`, …, `n - 1` are set in this order, each with its number as its timeout. -/
theorem ascending (n : ℕ) (hn : n ≤ 2 ^ 32 + 1) :
    ∃ s, Reachable Set.univ s ∧ Base s ∧
      s.timeoutQueue.array = (List.range n).map fun i : ℕ ↦ ⟨i, Int64.ofNat i⟩ := by
  induction n with
  | zero => exact ⟨{}, .init, Good.init.toBase, rfl⟩
  | succ n ih =>
    obtain ⟨s, hs, hb, harray⟩ := ih (Nat.le_of_succ_le hn)
    have hmem : ¬s.timeoutQueue.Mem (Int64.ofNat n) := by
      rintro ⟨item, hitem, hnode⟩
      rw [harray] at hitem
      obtain ⟨i, hi, rfl⟩ := List.mem_map.1 hitem
      have hlt := List.mem_range.1 hi
      exact hlt.ne (ofNat_inj (by omega) (by omega) hnode)
    have hkey : Int64.ofNat n ∉ s.items := fun hkey ↦ hmem ((hb.items _).1 hkey)
    have hin : s.timeoutQueue.inHeap (Int64.ofNat n) = false := by
      rw [KHeap.inHeap, hb.valid.out]
      · rfl
      · intro hm
        obtain ⟨item, hitem, hnode⟩ := List.mem_map.1 hm
        exact hmem ⟨item, hitem, hnode⟩
    have hlt : ∀ item ∈ s.timeoutQueue.array, item.key < (n : ℚ) := by
      rw [harray]
      intro item hitem
      obtain ⟨i, hi, rfl⟩ := List.mem_map.1 hitem
      exact Nat.cast_lt.2 (List.mem_range.1 hi)
    obtain ⟨timeoutQueue, hinsert, hvalid, hperm⟩ := hb.valid.insert (n : ℚ) hmem
    have harray' :
        timeoutQueue.array = (List.range (n + 1)).map fun i : ℕ ↦ ⟨i, Int64.ofNat i⟩ := by
      rw [KHeap.insert_of_lt hin hlt] at hinsert
      obtain rfl := Except.ok.inj hinsert
      rw [KHeap.place_array, List.range_succ, List.map_append, ← harray]
      exact KHeap.set_self List.getElem?_concat_length
    have hb' : Base { s.record (.set (Int64.ofNat n) n) with
        timeoutQueue, items := insert (Int64.ofNat n) s.items } :=
      { valid := hvalid
        items := fun key' ↦ by
          rw [mem_iff_of_perm hperm rfl, Finset.mem_insert, hb.items]
          rfl
        guards := hb.guards }
    have hne : insert (Int64.ofNat n) s.items ≠ ∅ := Finset.insert_ne_empty _ _
    obtain ⟨top, htop⟩ := hb'.exists_topKey hne
    have hsecond : decide (Int64.ofNat n ∉ s.items) = true := decide_eq_true hkey
    obtain ⟨timer, hstep⟩ : ∃ timer, s.step (.setTimeoutAt (Int64.ofNat n) n) =
        .ok { s.record (.set (Int64.ofNat n) n) with
          timeoutQueue, items := insert (Int64.ofNat n) s.items, timer } := by
      rw [step, MultiTimeout.setTimeoutAt]
      simp only [hsecond, record, hin, if_false, Bool.not_true, Bool.false_eq_true, hinsert,
        ok_bind]
      split_ifs
      · exact ⟨some top, updateTimeout_of_ne hne htop⟩
      · exact ⟨s.timer, rfl⟩
    exact ⟨_, hs.step (show s.Allows (.setTimeoutAt _ _) from trivial) hstep trivial, { hb' with },
      harray'⟩

/-- The key at index `2 ^ 32` has the position of the top, which is what `cancel_timeout` takes
out. -/
theorem cancel_top : ¬∀ s, Reachable Set.univ s → Sound s := by
  intro hall
  obtain ⟨s, hs, hb, harray⟩ := ascending (2 ^ 32 + 1) le_rfl
  have hget {i : ℕ} (hi : i ≤ 2 ^ 32) :
      s.timeoutQueue.array[i]? = some ⟨i, Int64.ofNat i⟩ := by
    rw [harray, List.getElem?_map, List.getElem?_range (Nat.lt_succ_of_le hi)]
    rfl
  have hkey {i : ℕ} (hi : i ≤ 2 ^ 32) : Int64.ofNat i ∈ s.items :=
    (hb.items _).2 ⟨_, List.mem_of_getElem? (hget hi), rfl⟩
  have hpos : s.timeoutQueue.pos (Int64.ofNat (2 ^ 32)) = 0 := hb.valid.pos _ _ (hget le_rfl)
  have h0 : (0 : ℕ) ≤ 2 ^ 32 := Nat.zero_le _
  obtain ⟨timeoutQueue, herase, -, hperm⟩ := hb.valid.erasePos (by decide) (hget h0)
  obtain ⟨pos, herase'⟩ :=
    KHeap.erasePos_pos (p := (s.timeoutQueue.remove (Int64.ofNat (2 ^ 32))).pos) herase
  have hlength := hperm.length_eq
  rw [harray, List.length_map, List.length_range, List.length_cons] at hlength
  have hzero : Int64.ofNat 0 ∈ s.items.erase (Int64.ofNat (2 ^ 32)) :=
    Finset.mem_erase.2 ⟨by decide, hkey h0⟩
  obtain ⟨top, htop⟩ : ∃ top, KHeap.topKey { timeoutQueue with pos := pos } = some top := by
    cases hitems : timeoutQueue.array with
    | nil =>
      rw [hitems] at hlength
      cases hlength
    | cons item array => exact ⟨item.key, rfl⟩
  have hstep : s.step (.cancelTimeout (Int64.ofNat (2 ^ 32))) =
      .ok { s.record (.cancel (Int64.ofNat (2 ^ 32))) with
        timeoutQueue := { timeoutQueue with pos := pos }
        items := s.items.erase (Int64.ofNat (2 ^ 32))
        timer := some top } := by
    have hin : s.timeoutQueue.inHeap (Int64.ofNat (2 ^ 32)) = true := by
      rw [KHeap.inHeap, hpos]
      rfl
    have htopNode : s.timeoutQueue.isTop (Int64.ofNat (2 ^ 32)) = true := by
      rw [KHeap.isTop, hpos]
      rfl
    have hrun : s.timeoutQueue.erase 4 (Int64.ofNat (2 ^ 32)) =
        .ok { timeoutQueue with pos := pos } := by
      rw [KHeap.erase, hpos]
      refine (if_pos ?_).trans herase'
      rw [harray, List.length_map, List.length_range]
      exact Nat.succ_pos _
    rw [step, MultiTimeout.cancelTimeout]
    simp only [record, hkey le_rfl, hin, htopNode, if_true, Bool.not_true, Bool.false_eq_true,
      if_false, hrun, ok_bind]
    exact updateTimeout_of_ne (Finset.ne_empty_of_mem hzero) htop
  have hsound := hall _ (hs.step (show s.Allows (.cancelTimeout _) from trivial) hstep trivial)
  obtain ⟨item, hitem, hnode⟩ := (hsound.items (Int64.ofNat 0)).1 hzero
  exact node_ne_of_perm hb.valid hperm rfl item hitem hnode

end MultiTimeout

end PxcCore
