import PxcCore.Lib.Result

/-!
# Secure random bytes

`Random::secure_bytes`, `Random::add_seed` and `Random::secure_cleanup` on one thread.  `RAND_bytes`
always succeeds, and each byte that it generates is known by its number.
-/

namespace PxcCore

open Lib

/-! ## Definitions -/

/-- `BUF_SIZE` -/
def SecureBytes.bufSize : ℕ := 512

/-- The buffer of the thread, and the generations of the seed.  A byte in memory is the number of a
generated byte, or `none` if it has not been generated. -/
structure SecureBytes where
  buf : Option (List (Option ℕ)) := none
  bufPos : ℕ := 0
  generation : Int64 := 0
  randomSeedGeneration : Int64 := 0
  /-- How many bytes have been generated. -/
  generated : ℕ := 0

namespace SecureBytes

/-- What changes the state. -/
inductive Op where
  | secureBytes (size : ℕ)
  | addSeed
  | secureCleanup
deriving DecidableEq

/-- `RAND_bytes` -/
def randBytes (st : SecureBytes) (num : ℕ) : List (Option ℕ) × SecureBytes :=
  ((List.range' st.generated num).map some, { st with generated := st.generated + num })

/-- `init_thread_local` and what is done when it has allocated the buffer. -/
def initThreadLocal (st : SecureBytes) : List (Option ℕ) × SecureBytes :=
  match st.buf with
  | some buf => (buf, st)
  | none =>
    let buf := List.replicate bufSize none
    (buf, { st with buf := some buf, bufPos := bufSize, generation := 0 })

/-- The buffer is not used any more when the generation of the seed has changed. -/
def checkGeneration (st : SecureBytes) : SecureBytes :=
  if st.generation ≠ st.randomSeedGeneration then
    { st with generation := st.randomSeedGeneration, bufPos := bufSize }
  else st

/-- The part of `secure_bytes` that takes bytes from the buffer and generates others. -/
def takeBytes (st : SecureBytes) (buf : List (Option ℕ)) (size : ℕ) :
    Except String (List (Option ℕ) × SecureBytes) :=
  let ready := min size (bufSize - st.bufPos)
  let bytes := (buf.drop st.bufPos).take ready
  let st := { st with bufPos := st.bufPos + ready }
  let size := size - ready
  if ready ≠ 0 ∧ size = 0 then .ok (bytes, st)
  else if size < bufSize then
    let (buf, st) := st.randBytes bufSize
    .ok (bytes ++ buf.take size, { st with buf := some buf, bufPos := size })
  else if size ≤ 2 ^ 31 - 1 then
    let (rest, st) := st.randBytes size
    .ok (bytes ++ rest, st)
  else .error "CHECK(size <= static_cast<size_t>(std::numeric_limits<int>::max()))"

/-- `Random::secure_bytes` for a pointer that may be null, with the bytes that are put there. -/
def secureBytes (st : SecureBytes) (isNull : Bool) (size : ℕ) :
    Except String (List (Option ℕ) × SecureBytes) :=
  let (buf, st) := st.initThreadLocal
  if isNull then
    .ok ([], { st with buf := some (List.replicate bufSize none), bufPos := bufSize })
  else st.checkGeneration.takeBytes buf size

/-- `Random::add_seed` -/
def addSeed (st : SecureBytes) : SecureBytes :=
  { st with randomSeedGeneration := st.randomSeedGeneration + 1 }

/-- One call, with what a request is given. -/
def step (st : SecureBytes) : Op → Except String (List (List (Option ℕ)) × SecureBytes)
  | .secureBytes size => do
    let (bytes, st) ← st.secureBytes false size
    return ([bytes], st)
  | .addSeed => .ok ([], st.addSeed)
  | .secureCleanup => do
    let (_, st) ← st.secureBytes true 0
    return ([], st)

/-- Calls one after another, with what the requests are given. -/
def run (st : SecureBytes) : List Op → Except String (List (List (Option ℕ)) × SecureBytes)
  | [] => .ok ([], st)
  | op :: ops => do
    let (requests, st) ← st.step op
    let (requests', st) ← st.run ops
    return (requests ++ requests', st)

/-! ## One request -/

/-- What is left in the buffer. -/
def rest (st : SecureBytes) : List (Option ℕ) := (st.buf.getD []).drop st.bufPos

/-- What the next request is given from the buffer. -/
def current (st : SecureBytes) : List (Option ℕ) :=
  if st.generation = st.randomSeedGeneration then st.rest else []

/-- The buffer has its size, and the position is in it. -/
structure Valid (st : SecureBytes) : Prop where
  length : ∀ buf, st.buf = some buf → buf.length = bufSize ∧ st.bufPos ≤ bufSize
  generation : st.buf = none → st.generation = 0

/-- The buffer is there. -/
structure Ready (st : SecureBytes) (buf : List (Option ℕ)) : Prop where
  eq : st.buf = some buf
  length : buf.length = bufSize
  bufPos : st.bufPos ≤ bufSize

variable {st st' : SecureBytes} {size : ℕ} {buf : List (Option ℕ)}

theorem Ready.valid (h : st.Ready buf) : st.Valid where
  length buf' hbuf := by
    obtain rfl : buf = buf' := Option.some.inj (h.eq.symm.trans hbuf)
    exact ⟨h.length, h.bufPos⟩
  generation hnone := by simp [h.eq] at hnone

theorem Ready.rest (h : st.Ready buf) : st.rest = buf.drop st.bufPos := by
  rw [SecureBytes.rest, h.eq, Option.getD_some]

theorem Ready.current (h : st.Ready buf) (hgeneration : st.generation = st.randomSeedGeneration) :
    st.current = buf.drop st.bufPos := by
  rw [SecureBytes.current, if_pos hgeneration, h.rest]

theorem initThreadLocal_spec (h : st.Valid) :
    st.initThreadLocal.2.Ready st.initThreadLocal.1 ∧
      st.initThreadLocal.2.current = st.current ∧
      st.initThreadLocal.2.generated = st.generated ∧
      st.initThreadLocal.2.generation = st.generation ∧
      st.initThreadLocal.2.randomSeedGeneration = st.randomSeedGeneration := by
  unfold initThreadLocal
  cases hbuf : st.buf with
  | some buf =>
    obtain ⟨hlength, hbufPos⟩ := h.length buf hbuf
    exact ⟨⟨hbuf, hlength, hbufPos⟩, rfl, rfl, rfl, rfl⟩
  | none =>
    refine ⟨⟨rfl, List.length_replicate, le_rfl⟩, ?_, rfl, (h.generation hbuf).symm, rfl⟩
    simp [current, rest, hbuf]

theorem checkGeneration_spec (h : st.Ready buf) :
    st.checkGeneration.Ready buf ∧
      st.checkGeneration.current = st.current ∧
      st.checkGeneration.generated = st.generated ∧
      st.checkGeneration.generation = st.randomSeedGeneration ∧
      st.checkGeneration.randomSeedGeneration = st.randomSeedGeneration := by
  unfold checkGeneration
  split_ifs with hne
  · refine ⟨⟨h.eq, h.length, le_rfl⟩, ?_, rfl, rfl, rfl⟩
    simp [current, rest, h.eq, h.length.le, hne]
  · exact ⟨h, rfl, rfl, not_not.1 hne, rfl⟩

/-- A request is given so many bytes, and what it is given and what is left in the buffer afterwards
is what there was to give and what has been generated. -/
structure Gives (st : SecureBytes) (size : ℕ) (bytes : List (Option ℕ)) (st' : SecureBytes) :
    Prop where
  length : bytes.length = size
  valid : st'.Valid
  generation : st'.generation = st.randomSeedGeneration
  randomSeedGeneration : st'.randomSeedGeneration = st.randomSeedGeneration
  sublist : ∃ num, st'.generated = st.generated + num ∧
    (bytes ++ st'.rest).Sublist (st.current ++ (List.range' st.generated num).map some)

theorem takeBytes_spec (h : st.Ready buf) (hgeneration : st.generation = st.randomSeedGeneration)
    (size : ℕ) : (∃ bytes st', st.takeBytes buf size = .ok (bytes, st') ∧ st.Gives size bytes st') ∨
      2 ^ 31 - 1 < size - st.current.length ∧ ∃ error, st.takeBytes buf size = .error error := by
  have hcurrent := h.current hgeneration
  have hlength : st.current.length = bufSize - st.bufPos := by
    rw [hcurrent, List.length_drop, h.length]
  have hbufPos := h.bufPos
  have hrest (ready : ℕ) : ({ st with bufPos := st.bufPos + ready }).rest =
      st.current.drop ready := by
    rw [rest, h.eq, hcurrent, List.drop_drop]
    rfl
  simp only [takeBytes]
  rw [← hcurrent, ← hlength]
  split_ifs with hready hrefill hdirect
  · refine .inl ⟨_, _, rfl, ?_, Ready.valid ⟨h.eq, h.length, ?_⟩, hgeneration, rfl, 0, rfl, ?_⟩
    · rw [List.length_take]
      omega
    · change st.bufPos + _ ≤ bufSize
      omega
    · rw [hrest, List.take_append_drop, List.range'_zero, List.map_nil, List.append_nil]
  · refine .inl ⟨_, _, rfl, ?_, Ready.valid ⟨rfl, ?_, hrefill.le⟩, hgeneration, rfl, bufSize, rfl,
      ?_⟩
    · simp only [randBytes, List.length_append, List.length_take, List.length_map,
        List.length_range']
      omega
    · simp only [randBytes, List.length_map, List.length_range']
    · simp only [randBytes, rest, Option.getD_some]
      rw [List.append_assoc, List.take_append_drop]
      exact (List.take_sublist _ _).append_right _
  · refine .inl ⟨_, _, rfl, ?_, Ready.valid ⟨h.eq, h.length, ?_⟩, hgeneration, rfl, _, rfl, ?_⟩
    · simp only [randBytes, List.length_append, List.length_take, List.length_map,
        List.length_range']
      omega
    · change st.bufPos + _ ≤ bufSize
      omega
    · -- The buffer has been used up.
      have hused : min size st.current.length = st.current.length := by omega
      have hempty := hrest st.current.length
      rw [List.drop_length] at hempty
      rw [hused, List.take_length]
      change (_ ++ ({ st with bufPos := st.bufPos + st.current.length }).rest).Sublist _
      rw [hempty, List.append_nil]
      exact List.Sublist.refl _
  · exact .inr ⟨by omega, _, rfl⟩

theorem secureBytes_spec (h : st.Valid) (size : ℕ) :
    (∃ bytes st', st.secureBytes false size = .ok (bytes, st') ∧ st.Gives size bytes st') ∨
      2 ^ 31 - 1 < size - st.current.length ∧
        ∃ error, st.secureBytes false size = .error error := by
  obtain ⟨hready, hcurrent, hgenerated, hgeneration, hseed⟩ := initThreadLocal_spec h
  obtain ⟨hready', hcurrent', hgenerated', hgeneration', hseed'⟩ := checkGeneration_spec hready
  have hspec := takeBytes_spec hready' (hgeneration'.trans hseed'.symm) size
  rw [hcurrent', hcurrent] at hspec
  refine hspec.imp ?_ fun herror ↦ herror
  rintro ⟨bytes, st', hok, hgives⟩
  refine ⟨bytes, st', hok, hgives.length, hgives.valid, ?_, ?_, ?_⟩
  · rw [hgives.generation, hseed', hseed]
  · rw [hgives.randomSeedGeneration, hseed', hseed]
  · simpa only [hcurrent', hcurrent, hgenerated', hgenerated] using hgives.sublist

/-! ## Other calls -/

theorem secureCleanup_spec (h : st.Valid) : ∃ st', st.step .secureCleanup = .ok ([], st') ∧
    st'.Valid ∧ st'.rest = [] ∧ st'.generated = st.generated ∧ st'.generation = st.generation ∧
    st'.randomSeedGeneration = st.randomSeedGeneration := by
  obtain ⟨hready, -, hgenerated, hgeneration, hseed⟩ := initThreadLocal_spec h
  refine ⟨_, rfl, Ready.valid ⟨rfl, List.length_replicate, le_rfl⟩, ?_, hgenerated, hgeneration,
    hseed⟩
  simp [rest]

theorem addSeed_valid (h : st.Valid) : st.addSeed.Valid := ⟨h.length, h.generation⟩

theorem current_sublist (st : SecureBytes) : st.current.Sublist st.rest := by
  unfold current
  split_ifs
  · exact List.Sublist.refl _
  · exact List.nil_sublist _

/-! ## Every byte is given once -/

/-- The bytes that have been given and those left in the buffer are generated bytes, each of them
once. -/
def Fresh (given : List (Option ℕ)) (st : SecureBytes) : Prop :=
  ∃ numbers : List ℕ, given ++ st.rest = numbers.map some ∧ numbers.Nodup ∧
    ∀ n ∈ numbers, n < st.generated

variable {given bytes : List (Option ℕ)}

theorem Gives.fresh (h : st.Gives size bytes st') (hfresh : Fresh given st) :
    Fresh (given ++ bytes) st' := by
  obtain ⟨numbers, heq, hnodup, hlt⟩ := hfresh
  obtain ⟨num, hgenerated, hsublist⟩ := h.sublist
  have hall : (given ++ (bytes ++ st'.rest)).Sublist
      ((numbers ++ List.range' st.generated num).map some) := by
    rw [List.map_append, ← heq, List.append_assoc]
    exact (hsublist.trans ((current_sublist st).append_right _)).append_left _
  obtain ⟨numbers', hsub, heq'⟩ := List.sublist_map_iff.1 hall
  refine ⟨numbers', by rw [List.append_assoc, heq'], hsub.nodup ?_, fun n hn ↦ ?_⟩
  · refine hnodup.append List.nodup_range' fun n hn hrange ↦ ?_
    have := hlt n hn
    have := (List.mem_range'_1.1 hrange).1
    omega
  · rw [hgenerated]
    rcases List.mem_append.1 (hsub.subset hn) with hn | hn
    · exact (hlt n hn).trans_le (Nat.le_add_right _ _)
    · exact (List.mem_range'_1.1 hn).2

/-- The bytes in the buffer may go. -/
theorem Fresh.of_rest (h : Fresh given st) (hrest : st'.rest.Sublist st.rest)
    (hgenerated : st'.generated = st.generated) : Fresh given st' := by
  obtain ⟨numbers, heq, hnodup, hlt⟩ := h
  have hall := hrest.append_left given
  rw [heq] at hall
  obtain ⟨numbers', hsub, heq'⟩ := List.sublist_map_iff.1 hall
  exact ⟨numbers', heq', hsub.nodup hnodup, fun n hn ↦ hgenerated ▸ hlt n (hsub.subset hn)⟩

/-! ## No byte is given after it has been given up -/

/-- The bytes up to this one are not given any more. -/
def Above (bound : ℕ) (st : SecureBytes) : Prop :=
  bound ≤ st.generated ∧ ∀ n, some n ∈ st.current → bound ≤ n

theorem Gives.above {bound : ℕ} (h : st.Gives size bytes st') (habove : Above bound st) :
    Above bound st' ∧ ∀ n, some n ∈ bytes → bound ≤ n := by
  obtain ⟨hbound, hcurrent⟩ := habove
  obtain ⟨num, hgenerated, hsublist⟩ := h.sublist
  have hall (n : ℕ) (hn : some n ∈ bytes ++ st'.rest) : bound ≤ n := by
    rcases List.mem_append.1 (hsublist.subset hn) with hn | hn
    · exact hcurrent n hn
    · obtain ⟨m, hm, heq⟩ := List.mem_map.1 hn
      have := (List.mem_range'_1.1 hm).1
      cases heq
      omega
  refine ⟨⟨by omega, fun n hn ↦ hall n ?_⟩, fun n hn ↦ hall n (List.mem_append_left _ hn)⟩
  exact List.mem_append_right _ ((current_sublist st').subset hn)

/-! ## Steps -/

/-- What a call does. -/
inductive Does (st : SecureBytes) : Op → List (List (Option ℕ)) → SecureBytes → Prop where
  | secureBytes {size : ℕ} {bytes : List (Option ℕ)} {st' : SecureBytes} :
    st.Gives size bytes st' → Does st (.secureBytes size) [bytes] st'
  | addSeed : Does st .addSeed [] st.addSeed
  | secureCleanup {st' : SecureBytes} : st'.Valid → st'.rest = [] →
    st'.generated = st.generated → st'.generation = st.generation →
    st'.randomSeedGeneration = st.randomSeedGeneration → Does st .secureCleanup [] st'

theorem step_spec (h : st.Valid) (op : Op) :
    (∃ given st', st.step op = .ok (given, st') ∧ st.Does op given st') ∨
      ∃ size, op = .secureBytes size ∧ 2 ^ 31 - 1 < size - st.current.length ∧
        ∃ error, st.step op = .error error := by
  cases op with
  | secureBytes size =>
    rcases secureBytes_spec h size with ⟨bytes, st', hok, hgives⟩ | ⟨hlt, error, herror⟩
    · exact .inl ⟨_, st', by simp [step, hok], .secureBytes hgives⟩
    · exact .inr ⟨size, rfl, hlt, error, by simp [step, herror]⟩
  | addSeed => exact .inl ⟨_, _, rfl, .addSeed⟩
  | secureCleanup =>
    obtain ⟨st', hok, hvalid, hrest, hgenerated, hgeneration, hseed⟩ := secureCleanup_spec h
    exact .inl ⟨_, st', hok, .secureCleanup hvalid hrest hgenerated hgeneration hseed⟩

/-- The sizes of the requests. -/
def requests (ops : List Op) : List ℕ := ops.filterMap fun
  | .secureBytes size => some size
  | _ => none

/-- The calls of `add_seed` without a request between them are fewer than the generations. -/
def SeedsBounded (ops : List Op) : Prop :=
  ∀ mid, mid <:+: ops → requests mid = [] → mid.count .addSeed < 2 ^ 64

/-- The calls of `add_seed` since the last request, and those up to the next one, are fewer than the
generations. -/
def Pending (ops : List Op) (st : SecureBytes) : Prop :=
  SeedsBounded ops ∧ ∃ k : ℕ, st.randomSeedGeneration = st.generation + Int64.ofNat k ∧
    ∀ mid, mid <+: ops → requests mid = [] → k + mid.count .addSeed < 2 ^ 64

variable {op : Op} {ops : List Op} {outs : List (List (Option ℕ))}

theorem Does.valid (h : st.Does op outs st') (hvalid : st.Valid) : st'.Valid := by
  cases h with
  | secureBytes hgives => exact hgives.valid
  | addSeed => exact addSeed_valid hvalid
  | secureCleanup hvalid' => exact hvalid'

theorem Does.length (h : st.Does op outs st') : outs.map List.length = requests [op] := by
  cases h with
  | secureBytes hgives => simp [requests, hgives.length]
  | _ => rfl

theorem Does.fresh (h : st.Does op outs st') (hfresh : Fresh given st) :
    Fresh (given ++ outs.flatten) st' := by
  cases h with
  | secureBytes hgives => simpa using hgives.fresh hfresh
  | addSeed =>
    have haddSeed : Fresh given st.addSeed := hfresh.of_rest (List.Sublist.refl st.rest) rfl
    simpa using haddSeed
  | secureCleanup _ hrest hgenerated =>
    simpa using hfresh.of_rest (hrest ▸ List.nil_sublist _) hgenerated

theorem Pending.addSeed (h : Pending (.addSeed :: ops) st) :
    st.addSeed.generation ≠ st.addSeed.randomSeedGeneration := by
  obtain ⟨-, k, hseed, hlt⟩ := h
  have hk : k + 1 < 2 ^ 64 := hlt [.addSeed] (by simp) rfl
  intro heq
  have hzero : Int64.ofNat (k + 1) = 0 := by
    rw [← Int64.add_eq_left (a := st.generation), Int64.ofNat_add, ← Int64.add_assoc, ← hseed]
    exact heq.symm
  have hnat := congrArg (·.toBitVec.toNat) hzero
  simp only [Int64.toBitVec_ofNat', BitVec.toNat_ofNat, Nat.mod_eq_of_lt hk] at hnat
  simp at hnat

theorem Does.pending (h : st.Does op outs st') (hpending : Pending (op :: ops) st) :
    Pending ops st' := by
  obtain ⟨hbounded, k, hseed, hlt⟩ := hpending
  have hbounded' : SeedsBounded ops := fun mid hmid ↦ hbounded mid (hmid.trans (List.infix_cons
    (List.infix_refl ops)))
  refine ⟨hbounded', ?_⟩
  cases h with
  | secureBytes hgives =>
    refine ⟨0, ?_, fun mid hmid hnone ↦ ?_⟩
    · rw [hgives.generation, hgives.randomSeedGeneration]
      exact (Int64.add_zero _).symm
    · rw [Nat.zero_add]
      exact hbounded' mid hmid.isInfix hnone
  | addSeed =>
    refine ⟨k + 1, ?_, fun mid hmid hnone ↦ ?_⟩
    · rw [Int64.ofNat_add, ← Int64.add_assoc]
      exact congrArg (· + 1) hseed
    · have hcount := hlt (.addSeed :: mid) (List.cons_prefix_cons.2 ⟨rfl, hmid⟩) hnone
      rw [List.count_cons_self] at hcount
      omega
  | secureCleanup _ _ _ hgeneration hseed' =>
    refine ⟨k, ?_, fun mid hmid hnone ↦ ?_⟩
    · rw [hgeneration, hseed', hseed]
    · have hcount := hlt (.secureCleanup :: mid) (List.cons_prefix_cons.2 ⟨rfl, hmid⟩) hnone
      rwa [List.count_cons_of_ne (by decide)] at hcount

/-- Between a call that gives up bytes and the next request nothing is left to give. -/
theorem Does.above {bound : ℕ} (h : st.Does op outs st') (hpending : Pending (op :: ops) st)
    (habove : Above bound st) : Above bound st' ∧ ∀ n, some n ∈ outs.flatten → bound ≤ n := by
  cases h with
  | secureBytes hgives => simpa using hgives.above habove
  | addSeed =>
    refine ⟨⟨habove.1, fun n hn ↦ ?_⟩, by simp⟩
    rw [current, if_neg hpending.addSeed] at hn
    cases hn
  | secureCleanup _ hrest hgenerated =>
    refine ⟨⟨habove.1.trans hgenerated.ge, fun n hn ↦ ?_⟩, by simp⟩
    have hmem := (current_sublist st').subset hn
    rw [hrest] at hmem
    cases hmem

/-! ## Runs -/

theorem does_of_step (h : st.Valid) (hok : st.step op = .ok (outs, st')) : st.Does op outs st' := by
  rcases step_spec h op with ⟨outs', st'', hok', hdoes⟩ | ⟨size, -, -, error, herror⟩
  · obtain ⟨rfl, rfl⟩ := Prod.mk.inj (Except.ok.inj (hok'.symm.trans hok))
    exact hdoes
  · cases herror.symm.trans hok

theorem run_cons_eq_ok : st.run (op :: ops) = .ok (outs, st') ↔
    ∃ outs₁ st₁ outs₂, st.step op = .ok (outs₁, st₁) ∧ st₁.run ops = .ok (outs₂, st') ∧
      outs = outs₁ ++ outs₂ := by
  simp only [run, bind_eq_ok, pure_eq_ok, Except.ok.injEq, Prod.exists, Prod.mk.injEq]
  grind

theorem run_append_eq_ok {before after : List Op} : st.run (before ++ after) = .ok (outs, st') ↔
    ∃ outs₁ st₁ outs₂, st.run before = .ok (outs₁, st₁) ∧ st₁.run after = .ok (outs₂, st') ∧
      outs = outs₁ ++ outs₂ := by
  induction before generalizing st outs with
  | nil =>
    simp only [List.nil_append, run, Except.ok.injEq, Prod.mk.injEq]
    grind
  | cons op before ih =>
    simp only [List.cons_append, run_cons_eq_ok, ih]
    grind

theorem run_fresh (h : st.Valid) (hfresh : Fresh given st) (hok : st.run ops = .ok (outs, st')) :
    st'.Valid ∧ Fresh (given ++ outs.flatten) st' ∧ outs.map List.length = requests ops := by
  induction ops generalizing st given outs with
  | nil =>
    obtain ⟨rfl, rfl⟩ := Prod.mk.inj (Except.ok.inj hok)
    exact ⟨h, by simpa using hfresh, rfl⟩
  | cons op ops ih =>
    obtain ⟨outs₁, st₁, outs₂, hstep, hrun, rfl⟩ := run_cons_eq_ok.1 hok
    have hdoes := does_of_step h hstep
    obtain ⟨hvalid, hfresh', hlength⟩ := ih (hdoes.valid h) (hdoes.fresh hfresh) hrun
    refine ⟨hvalid, by simpa using hfresh', ?_⟩
    rw [List.map_append, hdoes.length, hlength, requests, requests, requests,
      ← List.filterMap_append]
    rfl

theorem run_pending {before after : List Op} (h : st.Valid)
    (hpending : Pending (before ++ after) st) (hok : st.run before = .ok (outs, st')) :
    Pending after st' := by
  induction before generalizing st outs with
  | nil =>
    obtain ⟨rfl, rfl⟩ := Prod.mk.inj (Except.ok.inj hok)
    exact hpending
  | cons op before ih =>
    obtain ⟨outs₁, st₁, outs₂, hstep, hrun, rfl⟩ := run_cons_eq_ok.1 hok
    have hdoes := does_of_step h hstep
    exact ih (hdoes.valid h) (hdoes.pending hpending) hrun

theorem run_above {bound : ℕ} (h : st.Valid) (hpending : Pending ops st) (habove : Above bound st)
    (hok : st.run ops = .ok (outs, st')) : ∀ n, some n ∈ outs.flatten → bound ≤ n := by
  induction ops generalizing st outs with
  | nil =>
    obtain ⟨rfl, rfl⟩ := Prod.mk.inj (Except.ok.inj hok)
    simp
  | cons op ops ih =>
    obtain ⟨outs₁, st₁, outs₂, hstep, hrun, rfl⟩ := run_cons_eq_ok.1 hok
    have hdoes := does_of_step h hstep
    obtain ⟨habove', hgiven⟩ := hdoes.above hpending habove
    intro n hn
    rw [List.flatten_append, List.mem_append] at hn
    exact hn.elim (hgiven n) (ih (hdoes.valid h) (hdoes.pending hpending) habove' hrun n)

/-- A run that does not return has made a request that is too large. -/
theorem run_cases (h : st.Valid) (ops : List Op) : (∃ outs st', st.run ops = .ok (outs, st')) ∨
    ∃ before size after outs st', ops = before ++ .secureBytes size :: after ∧
      st.run before = .ok (outs, st') ∧ 2 ^ 31 - 1 < size - st'.current.length ∧
      ∃ error, st.run ops = .error error := by
  induction ops generalizing st with
  | nil => exact .inl ⟨[], st, rfl⟩
  | cons op ops ih =>
    rcases step_spec h op with ⟨outs₁, st₁, hok, hdoes⟩ | ⟨size, rfl, hlt, error, herror⟩
    · rcases ih (hdoes.valid h) with ⟨outs₂, st₂, hok₂⟩ |
        ⟨before, size, after, outs₂, st₂, rfl, hok₂, hlt, error, herror⟩
      · exact .inl ⟨_, st₂, run_cons_eq_ok.2 ⟨outs₁, st₁, outs₂, hok, hok₂, rfl⟩⟩
      · refine .inr ⟨op :: before, size, after, _, st₂, rfl,
          run_cons_eq_ok.2 ⟨outs₁, st₁, outs₂, hok, hok₂, rfl⟩, hlt, error, ?_⟩
        simp [run, hok, herror]
    · exact .inr ⟨[], size, ops, [], st, rfl, rfl, hlt, error, by simp [run, herror]⟩

/-- Every request is given so many generated bytes, each byte is given once, and after `add_seed`
and `secure_cleanup` no byte is given that has been generated before. -/
structure Correct (ops : List Op) (outs : List (List (Option ℕ))) : Prop where
  length : outs.map List.length = requests ops
  once : ∃ numbers : List ℕ, outs.flatten = numbers.map some ∧ numbers.Nodup
  after : ∀ before op after, ops = before ++ op :: after → op = .addSeed ∨ op = .secureCleanup →
    ∃ outs₁ st₁ outs₂, run {} (before ++ [op]) = .ok (outs₁, st₁) ∧ outs = outs₁ ++ outs₂ ∧
      ∀ n, some n ∈ outs₂.flatten → st₁.generated ≤ n

theorem valid_init : Valid {} := ⟨fun _ h ↦ (by cases h), fun _ ↦ rfl⟩

/-- Nothing is left to give after a call that gives up bytes. -/
theorem Does.current_eq_nil (h : st.Does op outs st') (hpending : Pending (op :: ops) st)
    (hop : op = .addSeed ∨ op = .secureCleanup) : st'.current = [] := by
  cases h with
  | secureBytes => simp at hop
  | addSeed => exact if_neg hpending.addSeed
  | secureCleanup _ hrest =>
    have hsublist := current_sublist st'
    rwa [hrest, List.sublist_nil] at hsublist

theorem correct_of_run (hbounded : SeedsBounded ops) (hok : run {} ops = .ok (outs, st)) :
    Correct ops outs := by
  have hpending : Pending ops {} := ⟨hbounded, 0, rfl, fun mid hmid hnone ↦ by
    rw [Nat.zero_add]
    exact hbounded mid hmid.isInfix hnone⟩
  have hfresh : Fresh [] {} := ⟨[], rfl, List.nodup_nil, fun _ hn ↦ (by cases hn)⟩
  obtain ⟨-, ⟨numbers, heq, hnodup, -⟩, hlength⟩ := run_fresh valid_init hfresh hok
  rw [List.nil_append] at heq
  obtain ⟨given, left, rfl, hgiven, -⟩ := List.append_eq_map_iff.1 heq
  refine ⟨hlength, ⟨given, hgiven.symm, (List.nodup_append.1 hnodup).1⟩, ?_⟩
  rintro before op after rfl hop
  obtain ⟨outs₀, st₀, _, hbefore, hrest, rfl⟩ := run_append_eq_ok.1 hok
  obtain ⟨outs₁, st₁, outs₂, hstep, hafter, rfl⟩ := run_cons_eq_ok.1 hrest
  have hvalid := (run_fresh valid_init hfresh hbefore).1
  have hpending₀ := run_pending valid_init hpending hbefore
  have hdoes := does_of_step hvalid hstep
  have habove : Above st₁.generated st₁ :=
    ⟨le_rfl, fun n hn ↦ by simp [hdoes.current_eq_nil hpending₀ hop] at hn⟩
  refine ⟨outs₀ ++ outs₁, st₁, outs₂, run_append_eq_ok.2 ⟨outs₀, st₀, outs₁, hbefore, ?_, rfl⟩,
    (List.append_assoc _ _ _).symm,
    run_above (hdoes.valid hvalid) (hdoes.pending hpending₀) habove hafter⟩
  exact run_cons_eq_ok.2 ⟨outs₁, st₁, [], hstep, rfl, (List.append_nil _).symm⟩

/-- A run without `2 ^ 64` calls of `add_seed` between two requests gives correct bytes to all its
requests, or fails at the first one of which more than `INT_MAX` bytes are left when the buffer has
been used up. -/
theorem run_correct (ops : List Op) (hbounded : SeedsBounded ops) :
    (∃ outs st, run {} ops = .ok (outs, st) ∧ Correct ops outs) ∨
      ∃ before size after outs st, ops = before ++ .secureBytes size :: after ∧
        run {} before = .ok (outs, st) ∧ Correct before outs ∧
        2 ^ 31 - 1 < size - st.current.length ∧ ∃ error, run {} ops = .error error := by
  rcases run_cases valid_init ops with ⟨outs, st, hok⟩ |
    ⟨before, size, after, outs, st, rfl, hok, hlt, herror⟩
  · exact .inl ⟨outs, st, hok, correct_of_run hbounded hok⟩
  · have hbefore : SeedsBounded before := fun mid hmid ↦
      hbounded mid (hmid.trans (List.prefix_append _ _).isInfix)
    exact .inr ⟨before, size, after, outs, st, rfl, hok, correct_of_run hbefore hok, hlt, herror⟩

theorem seedsBounded_of_length (h : ops.length < 2 ^ 64) : SeedsBounded ops := fun _ hmid _ ↦
  (List.count_le_length.trans hmid.length_le).trans_lt h

theorem run_correct_of_addSeed :
    (∃ outs st, run {} [.addSeed, .secureBytes 600] = .ok (outs, st) ∧
      Correct [.addSeed, .secureBytes 600] outs) ∨
    ∃ before size after outs st,
      [.addSeed, .secureBytes 600] = before ++ .secureBytes size :: after ∧
      run {} before = .ok (outs, st) ∧ Correct before outs ∧
      2 ^ 31 - 1 < size - st.current.length ∧
      ∃ error, run {} [.addSeed, .secureBytes 600] = .error error :=
  run_correct [.addSeed, .secureBytes 600] (seedsBounded_of_length (by decide))

theorem run_addSeed (st : SecureBytes) (n : ℕ) : st.run (List.replicate n .addSeed) =
    .ok ([], { st with
      randomSeedGeneration := st.randomSeedGeneration + Int64.ofNat n }) := by
  induction n generalizing st with
  | zero =>
    rw [show Int64.ofNat 0 = 0 from rfl, Int64.add_zero]
    rfl
  | succ n ih =>
    rw [List.replicate_succ, run_cons_eq_ok]
    refine ⟨[], st.addSeed, [], rfl, ?_, rfl⟩
    rw [ih, addSeed, Nat.add_comm, Int64.ofNat_add, ← Int64.add_assoc]
    rfl

/-- A request of `2 ^ 31` bytes fails, and after `2 ^ 64` calls of `add_seed` the buffer is used
again. -/
theorem run_not_correct : (∃ error, run {} [.secureBytes (2 ^ 31)] = .error error) ∧
    ∃ outs₁ st₁ st₂,
      run {} (.secureBytes 1 :: List.replicate (2 ^ 64) .addSeed) = .ok (outs₁, st₁) ∧
      run st₁ [.secureBytes 1] = .ok ([[some 1]], st₂) ∧ 1 < st₁.generated := by
  refine ⟨⟨_, rfl⟩, ?_⟩
  obtain ⟨st, hfirst, hgeneration, hsecond, hgenerated⟩ : ∃ st : SecureBytes,
      ({} : SecureBytes).step (.secureBytes 1) = .ok ([[some 0]], st) ∧
      st.randomSeedGeneration + Int64.ofNat (2 ^ 64) = st.randomSeedGeneration ∧
      (∃ st₂, run st [.secureBytes 1] = .ok ([[some 1]], st₂)) ∧ 1 < st.generated :=
    ⟨_, rfl, rfl, ⟨_, rfl⟩, by decide⟩
  -- The generation is the old one again.
  have hseeds := run_addSeed st (2 ^ 64)
  rw [hgeneration] at hseeds
  obtain ⟨st₂, hsecond⟩ := hsecond
  exact ⟨_, st, st₂, run_cons_eq_ok.2 ⟨_, st, [], hfirst, hseeds, rfl⟩, hsecond, hgenerated⟩

end SecureBytes

end PxcCore
