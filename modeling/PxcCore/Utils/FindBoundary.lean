import PxcCore.Lib.Occurrence
import PxcCore.Utils.Buffer.Frame

/-!
# Boundaries

`find_boundary.cpp`: the search for a boundary in the bytes that a reader has received so far.  A
search that has found nothing goes on, when more bytes have arrived, from where it stopped.
-/

namespace PxcCore.FindBoundary

open Lib Buffer

/-- `MAX_BOUNDARY_LENGTH` -/
def maxBoundaryLength : ℕ := 70

/-- `memchr`, and the size of the slice for a null pointer. -/
def shiftTo (c : UInt8) (ready : List UInt8) : ℕ := (ready.idxOf? c).getD ready.length

/-- The loop of `find_boundary`. -/
def findBoundaryLoop (m : Buffer.Memory) (boundary : List UInt8) :
    ℕ → ChainBufferReader → ℕ → Except Fault (Bool × ℕ)
  | fuel, range, alreadyRead =>
    if range.empty then return (false, alreadyRead)
    else match fuel with
      | 0 => throw .fuel
      | fuel + 1 => do
        let (ready, range) ← range.prepareRead m
        match ready, boundary with
        | a :: _, c :: _ =>
          if a = c then
            if range.size < boundary.length then return (false, alreadyRead)
            let (_, x, _) ← range.advance m boundary.length (maxBoundaryLength + 4)
            if x.take boundary.length = boundary then return (true, alreadyRead)
            -- the clone is still in front of the symbol
            let (_, _, range) ← range.advance m 1 0
            findBoundaryLoop m boundary fuel range (alreadyRead + 1)
          else
            let shift := shiftTo c ready
            let (_, _, range) ← range.advance m shift 0
            findBoundaryLoop m boundary fuel range (alreadyRead + shift)
        | _, _ => throw .noObject

/-- `find_boundary`; a slice whose first byte is read must have one. -/
def findBoundary (m : Buffer.Memory) (range : ChainBufferReader) (boundary : List UInt8)
    (alreadyRead : ℕ) : Except Fault (Bool × ℕ) := do
  let (_, _, range) ← range.advance m alreadyRead 0
  check (boundary.length ≤ maxBoundaryLength + 4)
  findBoundaryLoop m boundary range.size range alreadyRead

/-! ## One search -/

/-- What a search in these bytes finds: the boundary at a position, or that it is not there. -/
structure Found (boundary bytes : List UInt8) (found : Bool) (k : ℕ) : Prop where
  le_length : k ≤ bytes.length
  noneBefore : NoneBefore boundary bytes k
  occurs : found = true → OccursAt boundary bytes k
  absent : found = false → ¬boundary <:+: bytes.drop k

variable {boundary bytes : List UInt8} {found : Bool} {j k : ℕ}

namespace Found

/-- The search goes on behind what was skipped. -/
theorem add (hj : j ≤ bytes.length) (hnone : NoneBefore boundary bytes j)
    (h : Found boundary (bytes.drop j) found k) : Found boundary bytes found (j + k) where
  le_length := by
    have := h.le_length
    rw [List.length_drop] at this
    omega
  noneBefore := hnone.add hj h.noneBefore
  occurs := by
    intro hfound
    rw [OccursAt, ← List.drop_drop]
    exact h.occurs hfound
  absent := by
    intro hfound
    rw [← List.drop_drop]
    exact h.absent hfound

theorem short (hlen : bytes.length < boundary.length) : Found boundary bytes false 0 where
  le_length := Nat.zero_le _
  noneBefore := .zero boundary bytes
  occurs := by simp
  absent _ hinfix := by
    have := hinfix.length_le
    rw [List.drop_zero] at this
    omega

theorem here (h : boundary <+: bytes) : Found boundary bytes true 0 where
  le_length := Nat.zero_le _
  noneBefore := .zero boundary bytes
  occurs _ := by rwa [OccursAt, List.drop_zero]
  absent := by simp

/-- The boundary is found exactly if it occurs. -/
theorem iff_infix (h : Found boundary bytes found k) : found = true ↔ boundary <:+: bytes := by
  constructor
  · intro hfound
    exact infix_iff_exists_occursAt.mpr ⟨k, h.occurs hfound⟩
  · intro hinfix
    by_contra hfound
    rw [h.noneBefore.infix_drop] at hinfix
    exact h.absent (Bool.not_eq_true _ ▸ hfound) hinfix

end Found

theorem shiftTo_spec {a c : UInt8} {tail : List UInt8} (hne : a ≠ c) :
    0 < shiftTo c (a :: tail) ∧ shiftTo c (a :: tail) ≤ (a :: tail).length ∧
      ∀ b ∈ (a :: tail).take (shiftTo c (a :: tail)), b ≠ c := by
  rw [shiftTo]
  rcases hidx : (a :: tail).idxOf? c with _ | i
  · rw [Option.getD_none, List.take_length]
    refine ⟨Nat.succ_pos _, le_refl _, fun b hb heq ↦ ?_⟩
    exact List.idxOf?_eq_none_iff.mp hidx (heq ▸ hb)
  · rw [Option.getD_some]
    obtain ⟨hlt, hi, hbefore⟩ := List.idxOf?_eq_some_iff.mp hidx
    refine ⟨Nat.pos_of_ne_zero fun hzero ↦ ?_, hlt.le, fun b hb heq ↦ ?_⟩
    · subst hzero
      exact hne (by simpa using hi)
    · obtain ⟨j, hj, rfl⟩ := List.mem_take_iff_getElem.mp hb
      exact hbefore j (by omega) heq

section Search

variable {m : Buffer.Memory} {ks : List ℕ} {isOpen : Bool}

/-- A reader that has nothing left. -/
theorem findBoundaryLoop_empty (boundary : List UInt8) (fuel : ℕ) {rd : ChainBufferReader}
    (h : rd.size = 0) (pos : ℕ) : findBoundaryLoop m boundary fuel rd pos = .ok (false, pos) := by
  cases fuel <;> simp [findBoundaryLoop, ChainBufferReader.empty, h]

/-- The bytes that are left to search decide what is found, however they lie in the chain. -/
theorem findBoundaryLoop_spec (hm : m.Ok) (hc : Chain m ks isOpen) (hne : boundary ≠ [])
    (hlen : boundary.length ≤ maxBoundaryLength + 4) (fuel : ℕ) :
    ∀ (rd : ChainBufferReader) (cur : Buffer.Cursor) (pos : ℕ), ReaderAt m ks isOpen rd cur →
    cur.window.Within (stream m ks) → (cur.window.read (stream m ks)).length ≤ fuel →
    ∃ found k, findBoundaryLoop m boundary fuel rd pos = .ok (found, pos + k) ∧
      Found boundary (cur.window.read (stream m ks)) found k := by
  have hpos := List.length_pos_of_ne_nil hne
  induction fuel with
  | zero =>
    intro rd cur pos h hw hfuel
    have hsize := h.size_eq hw
    refine ⟨false, 0, findBoundaryLoop_empty boundary 0 (by omega) pos, .short (by omega)⟩
  | succ fuel ih =>
    intro rd cur pos h hw hfuel
    have hsize := h.size_eq hw
    by_cases hempty : rd.size = 0
    · exact ⟨false, 0, findBoundaryLoop_empty boundary _ hempty pos, .short (by omega)⟩
    obtain ⟨ready, rd₁, hprep, hshown, hnonempty, h₁⟩ := h.prepareRead_spec hm hc
    have hsize₁ := h₁.size_eq hw
    set bytes := cur.window.read (stream m ks) with hbytes
    -- the first byte that is shown is the first one that is left
    obtain ⟨a, front, rfl⟩ : ∃ a front, ready = a :: front := by
      cases ready with
      | nil =>
        rw [hnonempty rfl] at hsize
        exact absurd hsize hempty
      | cons a front => exact ⟨a, front, rfl⟩
    obtain ⟨c, tail, rfl⟩ : ∃ c tail, boundary = c :: tail := by
      cases boundary with
      | nil => exact absurd rfl hne
      | cons c tail => exact ⟨c, tail, rfl⟩
    have hstep := findBoundaryLoop.eq_def m (c :: tail) (fuel + 1) rd pos
    simp only [ChainBufferReader.empty, hempty, decide_false, Bool.false_eq_true, if_false, hprep,
      ok_bind] at hstep
    -- the search goes on behind `k` bytes that are skipped
    have hskip {k : ℕ} (hk : 0 < k) (hle : k ≤ bytes.length)
        (hnone : NoneBefore (c :: tail) bytes k) : ∃ rd', rd₁.advance m k 0 = .ok (k, [], rd') ∧
          ∃ found j, findBoundaryLoop m (c :: tail) fuel rd' (pos + k) = .ok (found, pos + j) ∧
            Found (c :: tail) bytes found j := by
      obtain ⟨-, rd', hadv, h'⟩ | ⟨-, hlt⟩ := h₁.advance_spec hm hc hw k 0
      swap
      · exact absurd hle (Nat.not_le.mpr hlt)
      obtain ⟨found, j, hrun, hfound⟩ := ih rd' _ (pos + k) h' (hw.skip hle) (by
        show ((cur.window.skip k).read _).length ≤ fuel
        rw [Window.read_skip, ← hbytes, List.length_drop]
        omega)
      refine ⟨rd', by simpa using hadv, found, k + j, by rw [hrun, Nat.add_assoc], ?_⟩
      have hrest : (cur.window.skip k).read (stream m ks) = bytes.drop k := Window.read_skip _ _ _
      exact .add hle hnone (hrest ▸ hfound)
    by_cases hac : a = c
    · subst hac
      rw [if_pos rfl] at hstep
      by_cases hshort : rd₁.size < (a :: tail).length
      · refine ⟨false, 0, by rw [hstep, if_pos hshort]; rfl, .short (by omega)⟩
      rw [if_neg hshort] at hstep
      obtain ⟨-, rd₂, hcopy, -⟩ | ⟨-, hlt⟩ :=
        h₁.advance_spec hm hc hw (a :: tail).length (maxBoundaryLength + 4)
      swap
      · exact absurd (hsize₁ ▸ hlt) hshort
      have hcopied : ((bytes.take (a :: tail).length).take (maxBoundaryLength + 4)).take
          (a :: tail).length = bytes.take (a :: tail).length := by
        rw [List.take_take, List.take_take, Nat.min_eq_left hlen, Nat.min_self]
      rw [hcopy, ok_bind, hcopied] at hstep
      by_cases hprefix : a :: tail <+: bytes
      · rw [if_pos (List.prefix_iff_eq_take.mp hprefix).symm] at hstep
        exact ⟨true, 0, hstep, .here hprefix⟩
      · rw [if_neg fun heq ↦ hprefix (List.prefix_iff_eq_take.mpr heq.symm)] at hstep
        obtain ⟨rd', hadv, found, j, hrun, hfound⟩ :=
          hskip Nat.one_pos (by omega) (.one (by omega) hprefix)
        rw [hadv, ok_bind, hrun] at hstep
        exact ⟨found, j, hstep, hfound⟩
    · rw [if_neg hac] at hstep
      obtain ⟨hshift, hle, hother⟩ := shiftTo_spec hac
      have htake : bytes.take (shiftTo c (a :: front)) =
          (a :: front).take (shiftTo c (a :: front)) := by
        obtain ⟨back, hback⟩ := hshown
        rw [← hback, List.take_append_of_le_length hle]
      have hle' := hle.trans hshown.length_le
      obtain ⟨rd', hadv, found, j, hrun, hfound⟩ :=
        hskip hshift hle' (.of_head hle' (htake.symm ▸ hother))
      rw [hadv, ok_bind, hrun] at hstep
      exact ⟨found, j, hstep, hfound⟩

/-- `find_boundary` goes on from a position in front of which no occurrence begins. -/
theorem findBoundary_spec (hm : m.Ok) (hc : Chain m ks isOpen) (hne : boundary ≠ [])
    (hlen : boundary.length ≤ maxBoundaryLength + 4) {rd : ChainBufferReader} {cur : Buffer.Cursor}
    (h : ReaderAt m ks isOpen rd cur) (hw : cur.window.Within (stream m ks)) {pos : ℕ}
    (hpos : pos ≤ (cur.window.read (stream m ks)).length)
    (hnone : NoneBefore boundary (cur.window.read (stream m ks)) pos) :
    ∃ found k, findBoundary m rd boundary pos = .ok (found, k) ∧
      Found boundary (cur.window.read (stream m ks)) found k := by
  obtain ⟨-, rd', hadv, h'⟩ | ⟨-, hlt⟩ := h.advance_spec hm hc hw pos 0
  swap
  · exact absurd hpos (Nat.not_le.mpr hlt)
  have hw' : (cur.window.skip pos).Within (stream m ks) := hw.skip hpos
  have hsize := h'.size_eq hw'
  obtain ⟨found, k, hrun, hfound⟩ :=
    findBoundaryLoop_spec hm hc hne hlen rd'.size rd' _ pos h' hw' hsize.ge
  have hrest : (cur.window.skip pos).read (stream m ks) =
      (cur.window.read (stream m ks)).drop pos := Window.read_skip _ _ _
  refine ⟨found, pos + k, ?_, .add hpos hnone (hrest ▸ hfound)⟩
  simp only [findBoundary, hadv, ok_bind, hlen, decide_true, check_true, hrun]

end Search

/-! ## Repeated searches -/

/-- What happens to a program that searches in the bytes of one of its readers: an operation on its
objects that does not consume bytes of this reader, or a search. -/
inductive Call (r : ℕ) where
  | buffer (op : {op : Op // op.consumed ≠ some r})
  | find
deriving DecidableEq

/-- One call, with the variable `already_read`.  A search gets a clone of the reader. -/
def step (boundary : List UInt8) {r : ℕ} (s : World × ℕ) :
    Call r → Except Fault (Option Bool × World × ℕ)
  | .buffer op => do
    let (_, w) ← s.1.step op.1
    return (none, w, s.2)
  | .find => do
    let range ← lookup s.1.readers r
    let (found, alreadyRead) ← findBoundary s.1.memory range boundary s.2
    return (some found, s.1, alreadyRead)

/-- A program that makes its objects, and then searches in the bytes of a reader. -/
def run (boundary : List UInt8) {r : ℕ} (setup : List Op) (calls : List (Call r)) :
    Except Fault (World × ℕ) := do
  let (_, w) ← runProgram World.step setup {}
  let (_, s) ← runProgram (step boundary) calls (w, 0)
  return s

/-- The bytes that a reader has received, and where the next search begins. -/
structure Resumes (boundary : List UInt8) (r : ℕ) (w : World) (pos : ℕ) (chains : ℕ → List ℕ)
    (f : Fifo) : Prop where
  models : Models w chains f
  le_length : pos ≤ (f.available r).length
  noneBefore : NoneBefore boundary (f.available r) pos

section Run

variable {r pos : ℕ} {w : World} {chains : ℕ → List ℕ} {f : Fifo}

/-- What a search of a reader does. -/
theorem Resumes.find (h : Resumes boundary r w pos chains f) (hne : boundary ≠ [])
    (hlen : boundary.length ≤ maxBoundaryLength + 4) {rd : ChainBufferReader}
    (hrd : w.readers[r]? = some rd) : ∃ found k,
      findBoundary w.memory rd boundary pos = .ok (found, k) ∧
      Found boundary (w.contents r) found k := by
  obtain ⟨rd', cur, hrd', hcur, hok, hchain, hstream, hreader⟩ | ⟨hnone, -⟩ :=
    h.models.lookup_reader r
  swap
  · cases hrd.symm.trans hnone
  cases hrd.symm.trans hrd'
  have hbytes : cur.window.read (stream w.memory (nodesOf chains cur.channel)) = w.contents r := by
    rw [h.models.contents_eq, Fifo.available_of_eq hcur, hstream, Fifo.unread]
  have hle := h.le_length
  have hnone := h.noneBefore
  rw [← h.models.contents_eq, ← hbytes] at hle hnone
  rw [← hbytes]
  exact findBoundary_spec h.models.memory hchain hne hlen hreader (hstream.symm ▸ hok.within) hle
    hnone

/-- An operation that consumes nothing of the reader. -/
theorem Resumes.buffer (h : Resumes boundary r w pos chains f) {op : Op} {out : Out} {w' : World}
    (hop : op.consumed ≠ some r) (hrun : w.step op = .ok (out, w')) :
    ∃ chains' f', Resumes boundary r w' pos chains' f' := by
  obtain ⟨chains', f', hstep, hmodels⟩ := h.models.of_step hrun
  obtain ⟨x, hx⟩ := hstep.available_mono h.models.fifo hop
  refine ⟨chains', f', hmodels, ?_, hx ▸ h.noneBefore.append x⟩
  rw [← hx, List.length_append]
  exact h.le_length.trans (Nat.le_add_right _ _)

/-- One call. -/
theorem Resumes.step (h : Resumes boundary r w pos chains f) (hne : boundary ≠ [])
    (hlen : boundary.length ≤ maxBoundaryLength + 4) {call : Call r} {out : Option Bool}
    {s : World × ℕ} (hrun : FindBoundary.step boundary (w, pos) call = .ok (out, s)) :
    ∃ chains' f', Resumes boundary r s.1 s.2 chains' f' := by
  cases call with
  | buffer op =>
    obtain ⟨⟨out', w'⟩, hop, hret⟩ := bind_eq_ok.1 hrun
    cases hret
    exact h.buffer op.2 hop
  | find =>
    obtain ⟨rd, hlookup, hrest⟩ := bind_eq_ok.1 hrun
    obtain ⟨found, k, hfind, hfound⟩ := h.find hne hlen (lookup_eq_ok.mp hlookup)
    rw [hfind, ok_bind] at hrest
    cases hrest
    rw [h.models.contents_eq] at hfound
    exact ⟨chains, f, h.models, hfound.le_length, hfound.noneBefore⟩

/-- Calls. -/
theorem Resumes.run (hne : boundary ≠ []) (hlen : boundary.length ≤ maxBoundaryLength + 4)
    {calls : List (Call r)} {outs : List (Option Bool)} {s s' : World × ℕ}
    (hrun : runProgram (FindBoundary.step boundary) calls s = .ok (outs, s'))
    (h : ∃ chains f, Resumes boundary r s.1 s.2 chains f) :
    ∃ chains f, Resumes boundary r s'.1 s'.2 chains f := by
  have hruns := runs_of_runProgram hrun fun _ _ _ ↦ trivial
  refine hruns.invariant (P := fun s ↦ ∃ chains f, Resumes boundary r s.1 s.2 chains f) ?_ h
  rintro t call out t' ⟨chains, f, hresumes⟩ ⟨-, hstep⟩
  exact hresumes.step hne hlen hstep

/-- Whenever a program searches for a boundary in the bytes of a reader, the search returns.  It
finds the boundary exactly if it occurs in the bytes received so far, and then `already_read` is
where it occurs first.  No occurrence begins before `already_read`, whatever arrives later. -/
theorem findBoundary_resumes (hne : boundary ≠ [])
    (hlen : boundary.length ≤ maxBoundaryLength + 4) {setup : List Op} {calls : List (Call r)}
    (hrun : run boundary setup calls = .ok (w, pos)) {rd : ChainBufferReader}
    (hrd : w.readers[r]? = some rd) :
    ∃ found k, findBoundary w.memory rd boundary pos = .ok (found, k) ∧
      (found = true ↔ boundary <:+: w.contents r) ∧
      (found = true → FirstAt boundary (w.contents r) k) ∧
      NoneBefore boundary (w.contents r) k := by
  obtain ⟨⟨outs, w₀⟩, hsetup, hrest⟩ := bind_eq_ok.1 hrun
  obtain ⟨⟨outs', s⟩, hcalls, hret⟩ := bind_eq_ok.1 hrest
  cases hret
  obtain ⟨chains₀, f₀, hmodels⟩ := Models.of_run hsetup
  obtain ⟨chains, f, hresumes⟩ := Resumes.run hne hlen hcalls
    ⟨chains₀, f₀, hmodels, Nat.zero_le _, .zero _ _⟩
  obtain ⟨found, k, hfind, hfound⟩ := hresumes.find hne hlen hrd
  exact ⟨found, k, hfind, hfound.iff_infix,
    fun htrue ↦ hfound.noneBefore.firstAt (hfound.occurs htrue), hfound.noneBefore⟩

/-- A line whose end arrives in two parts, between which there is a search. -/
def twoParts : List (Call 0) :=
  [.buffer ⟨.append 0 [97, 13] 0, by decide⟩, .buffer ⟨.syncWithWriter 0, by decide⟩, .find,
    .buffer ⟨.append 0 [10, 98] 0, by decide⟩, .buffer ⟨.syncWithWriter 0, by decide⟩]

theorem findBoundary_resumes_twoParts : ∃ w pos rd,
    run [13, 10] [.createWriter, .extractReader 0] twoParts = .ok (w, pos) ∧
    w.readers[0]? = some rd ∧
    ∃ found k, findBoundary w.memory rd [13, 10] pos = .ok (found, k) ∧
      (found = true ↔ [13, 10] <:+: w.contents 0) ∧
      (found = true → FirstAt [13, 10] (w.contents 0) k) ∧
      NoneBefore [13, 10] (w.contents 0) k := by
  have hok : (run [13, 10] [.createWriter, .extractReader 0] twoParts >>= fun s ↦
      lookup s.1.readers 0).isOk := by decide +kernel
  obtain ⟨rd, hbind⟩ := exists_of_isOk hok
  obtain ⟨⟨w, pos⟩, hrun, hlookup⟩ := bind_eq_ok.1 hbind
  have hrd := lookup_eq_ok.mp hlookup
  exact ⟨w, pos, rd, hrun, hrd, findBoundary_resumes (by decide) (by decide) hrun hrd⟩

end Run

end PxcCore.FindBoundary
