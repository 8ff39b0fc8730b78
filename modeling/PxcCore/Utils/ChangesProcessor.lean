import Mathlib

/-!
# ChangesProcessor

`ChangesProcessor.h`: changes are finished in any order and are passed on in the order in which they
were added.  An id is the place of a change behind `offset`, in the arithmetic of `size_t`.

What a move leaves of a change is never read again.
-/

namespace PxcCore

structure ChangesProcessor (DataT : Type) where
  offset : UInt64 := 1
  readyI : ℕ := 0
  dataArray : List (DataT × Bool) := []

namespace ChangesProcessor

/-- `ChangesProcessor::Id` -/
abbrev Id := UInt64

variable {DataT : Type}

/-! ## Definitions -/

/-- `clear` -/
def clear (p : ChangesProcessor DataT) : ChangesProcessor DataT :=
  { offset := p.offset + UInt64.ofNat p.dataArray.length }

/-- `add`; a vector of `maxSize` elements throws and stays as it is. -/
def add (maxSize : UInt64) (p : ChangesProcessor DataT) (data : DataT) :
    Option (Id × ChangesProcessor DataT) :=
  if p.dataArray.length < maxSize.toNat then
    some (p.offset + UInt64.ofNat p.dataArray.length,
      { p with dataArray := p.dataArray ++ [(data, false)] })
  else none

/-- The loop of `finish`, with the calls of the function. -/
def deliver (dataArray : List (DataT × Bool)) (readyI : ℕ) : List DataT × ℕ :=
  match _ : dataArray[readyI]? with
  | some (data, true) =>
    let (calls, readyI) := deliver dataArray (readyI + 1)
    (data :: calls, readyI)
  | some (_, false) | none => ([], readyI)
termination_by dataArray.length - readyI
decreasing_by
  have := (List.getElem?_eq_some_iff.1 ‹_›).1
  omega

/-- `try_compactify` -/
def tryCompactify (p : ChangesProcessor DataT) : ChangesProcessor DataT :=
  if p.readyI > 5 ∧ p.readyI * 2 > p.dataArray.length then
    { offset := p.offset + UInt64.ofNat p.readyI
      dataArray := p.dataArray.drop p.readyI }
  else p

/-- `finish`, with the calls of the function. -/
def finish (p : ChangesProcessor DataT) (token : Id) : List DataT × ChangesProcessor DataT :=
  let pos := (token - p.offset).toNat
  if pos ≥ p.dataArray.length then ([], p)
  else
    let dataArray := p.dataArray.modify pos fun (data, _) ↦ (data, true)
    let (calls, readyI) := deliver dataArray p.readyI
    (calls, tryCompactify { p with dataArray := dataArray, readyI := readyI })

inductive Op (DataT : Type) where
  | add (data : DataT)
  | finish (token : Id)
  | clear

/-- What a call gives: the id, the calls of the function, or nothing. -/
inductive Out (DataT : Type) where
  | id (id : Id)
  | calls (calls : List DataT)
  | nothing
  | lengthError

def step (maxSize : UInt64) (p : ChangesProcessor DataT) :
    Op DataT → Out DataT × ChangesProcessor DataT
  | .add data =>
    match p.add maxSize data with
    | some (id, p) => (.id id, p)
    | none => (.lengthError, p)
  | .finish token =>
    let (calls, p) := p.finish token
    (.calls calls, p)
  | .clear => (.nothing, p.clear)

/-- Calls in any order, with what they give. -/
def run (maxSize : UInt64) (ops : List (Op DataT)) :
    List (Op DataT × Out DataT) × ChangesProcessor DataT :=
  ops.foldl (fun (trace, p) op ↦
    let (out, p) := p.step maxSize op
    (trace ++ [(op, out)], p)) ([], {})

/-! ## What has been added and passed on -/

/-- A change with its id, and whether it has been finished. -/
structure Entry (DataT : Type) where
  id : Id
  data : DataT
  finished : Bool

/-- An id finishes the change that has it. -/
def Entry.mark (token : Id) (e : Entry DataT) : Entry DataT :=
  if e.id = token then { e with finished := true } else e

def track (entries : List (Entry DataT)) : Op DataT × Out DataT → List (Entry DataT)
  | (.add data, .id id) => entries ++ [⟨id, data, false⟩]
  | (.finish token, _) => entries.map (Entry.mark token)
  | (.clear, _) => []
  | _ => entries

/-- The changes added since the last `clear`. -/
def entries (trace : List (Op DataT × Out DataT)) : List (Entry DataT) := trace.foldl track []

/-- The ids that were returned. -/
def issued (trace : List (Op DataT × Out DataT)) : List Id :=
  trace.filterMap fun
    | (_, .id id) => some id
    | _ => none

/-- All changes that were added. -/
def added (trace : List (Op DataT × Out DataT)) : List DataT :=
  trace.filterMap fun
    | (.add data, .id _) => some data
    | _ => none

/-- All changes that were passed on. -/
def delivered (trace : List (Op DataT × Out DataT)) : List DataT :=
  trace.flatMap fun
    | (_, .calls calls) => calls
    | _ => []

/-- The changes that were passed on since the last `clear`. -/
def deliveredNow (trace : List (Op DataT × Out DataT)) : List DataT :=
  trace.foldl (fun now call ↦ match call with
    | (.clear, _) => []
    | (_, .calls calls) => now ++ calls
    | _ => now) []

/-! ## One call -/

variable {p : ChangesProcessor DataT} {gone live : List (Entry DataT)} {token : Id}

/-- The loop passes on what is finished from its start on. -/
theorem deliver_eq (dataArray : List (DataT × Bool)) (readyI : ℕ) :
    deliver dataArray readyI =
      (((dataArray.drop readyI).takeWhile Prod.snd).map Prod.fst,
        readyI + ((dataArray.drop readyI).takeWhile Prod.snd).length) := by
  fun_induction deliver dataArray readyI with
  | case1 readyI data h calls readyI' heq ih =>
    obtain ⟨hlt, hget⟩ := List.getElem?_eq_some_iff.1 h
    obtain ⟨rfl, rfl⟩ := Prod.mk.inj (heq.symm.trans ih)
    rw [List.drop_eq_getElem_cons hlt, hget, List.takeWhile_cons_of_pos rfl, List.map_cons,
      List.length_cons, Nat.add_assoc, Nat.add_comm 1]
  | case2 readyI data h =>
    obtain ⟨hlt, hget⟩ := List.getElem?_eq_some_iff.1 h
    rw [List.drop_eq_getElem_cons hlt, hget, List.takeWhile_cons_of_neg Bool.false_ne_true]
    rfl
  | case3 readyI h =>
    rw [List.drop_eq_nil_of_le (List.getElem?_eq_none_iff.1 h)]
    rfl

/-- The id of the next change. -/
def next (p : ChangesProcessor DataT) : Id := p.offset + UInt64.ofNat p.dataArray.length

theorem next_clear (p : ChangesProcessor DataT) : p.clear.next = p.next := UInt64.add_zero _

theorem next_add (p : ChangesProcessor DataT) (x : DataT × Bool) :
    next { p with dataArray := p.dataArray ++ [x] } = p.next + 1 := by
  rw [next, next, List.length_append, UInt64.ofNat_add, ← UInt64.add_assoc]
  rfl

/-- The array holds the changes `live`, after those that are `gone`. -/
structure Models (p : ChangesProcessor DataT) (gone live : List (Entry DataT)) : Prop where
  gone : ∀ e ∈ gone, e.finished = true
  data : p.dataArray = live.map fun e ↦ (e.data, e.finished)
  ids : ∀ i e, live[i]? = some e → e.id = p.offset + UInt64.ofNat i
  ready : p.readyI = (live.takeWhile Entry.finished).length
  small : live.length < 2 ^ 64

theorem Models.length (h : Models p gone live) : p.dataArray.length = live.length := by
  rw [h.data, List.length_map]

theorem Models.init : Models ({} : ChangesProcessor DataT) [] [] where
  gone := by simp
  data := rfl
  ids := by simp
  ready := rfl
  small := by simp

theorem Models.clear (p : ChangesProcessor DataT) : Models p.clear [] [] where
  gone := by simp
  data := rfl
  ids := by simp [ChangesProcessor.clear]
  ready := rfl
  small := by simp

/-- `add` -/
theorem Models.add (h : Models p gone live) (data : DataT)
    (hlt : p.dataArray.length + 1 < 2 ^ 64) :
    Models { p with dataArray := p.dataArray ++ [(data, false)] } gone
      (live ++ [⟨p.offset + UInt64.ofNat p.dataArray.length, data, false⟩]) where
  gone := h.gone
  data := by rw [h.data, List.map_append, List.map_cons, List.map_nil]
  ids i e he := by
    rcases Nat.lt_or_ge i live.length with hi | hi
    · rw [List.getElem?_append_left hi] at he
      exact h.ids i e he
    · rw [List.getElem?_append_right hi, List.getElem?_singleton] at he
      split_ifs at he with heq
      cases he
      rw [show i = p.dataArray.length by rw [h.length]; omega]
  ready := by
    rw [List.takeWhile_append]
    split_ifs with hall
    · simp [h.ready, hall]
    · exact h.ready
  small := by
    rw [List.length_append, ← h.length]
    exact hlt

/-- The id of a change says where it is. -/
theorem Models.id_eq_iff (h : Models p gone live) {i : ℕ} {e : Entry DataT}
    (he : live[i]? = some e) : e.id = token ↔ (token - p.offset).toNat = i := by
  have hi := (List.getElem?_eq_some_iff.1 he).1.trans h.small
  rw [h.ids i e he, ← UInt64.toNat_inj, UInt64.toNat_sub, UInt64.toNat_add, UInt64.toNat_ofNat',
    Nat.mod_eq_of_lt hi]
  have htoken := token.toNat_lt
  have hoffset := p.offset.toNat_lt
  omega

/-- Changes that have gone have been finished before. -/
theorem Models.map_gone (h : Models p gone live) : gone.map (Entry.mark token) = gone := by
  refine (List.map_congr_left fun e he ↦ ?_).trans (List.map_id _)
  rw [Entry.mark]
  split_ifs
  · have hfinished := h.gone e he
    cases e
    exact congrArg _ hfinished.symm
  · rfl

/-- `finish` with an id of no change that is there. -/
theorem Models.map_live_of_le (h : Models p gone live)
    (hle : live.length ≤ (token - p.offset).toNat) : live.map (Entry.mark token) = live := by
  refine (List.map_congr_left fun e he ↦ ?_).trans (List.map_id _)
  obtain ⟨i, hi⟩ := List.mem_iff_getElem?.1 he
  have hlt := (List.getElem?_eq_some_iff.1 hi).1
  rw [Entry.mark, if_neg]
  · rfl
  · rw [h.id_eq_iff hi]
    omega

/-- An id finishes the change that is in its place. -/
theorem Models.map_live (h : Models p gone live) :
    (live.map (Entry.mark token)).map (fun e ↦ (e.data, e.finished)) =
      p.dataArray.modify (token - p.offset).toNat fun x ↦ (x.1, true) := by
  refine List.ext_getElem? fun i ↦ ?_
  rw [h.data, List.getElem?_modify, List.getElem?_map, List.getElem?_map, List.getElem?_map]
  cases he : live[i]? with
  | none => simp
  | some e =>
    simp only [Option.map_some, Entry.mark, h.id_eq_iff he]
    split_ifs <;> rfl

/-- What was finished stays so. -/
theorem takeWhile_mark (live : List (Entry DataT)) (token : Id) :
    ((live.map (Entry.mark token)).takeWhile Entry.finished).map Entry.data =
      (live.takeWhile Entry.finished).map Entry.data ++
        (((live.map (Entry.mark token)).drop
          (live.takeWhile Entry.finished).length).takeWhile Entry.finished).map Entry.data ∧
    ((live.map (Entry.mark token)).takeWhile Entry.finished).length =
      (live.takeWhile Entry.finished).length +
        (((live.map (Entry.mark token)).drop
          (live.takeWhile Entry.finished).length).takeWhile Entry.finished).length := by
  induction live with
  | nil => exact ⟨rfl, rfl⟩
  | cons e live ih =>
    by_cases hfinished : e.finished
    · have hmark : (e.mark token).finished = true ∧ (e.mark token).data = e.data := by
        rw [Entry.mark]
        split_ifs
        · exact ⟨rfl, rfl⟩
        · exact ⟨hfinished, rfl⟩
      rw [List.takeWhile_cons_of_pos hfinished, List.map_cons,
        List.takeWhile_cons_of_pos hmark.1, List.map_cons, hmark.2, List.length_cons,
        List.length_cons, List.drop_succ_cons, List.map_cons, ih.1, ih.2]
      exact ⟨rfl, by omega⟩
    · rw [List.takeWhile_cons_of_neg hfinished]
      simp

/-- Behind what is finished there is nothing more that is. -/
theorem takeWhile_drop (live : List (Entry DataT)) :
    (live.drop (live.takeWhile Entry.finished).length).takeWhile Entry.finished = [] := by
  induction live with
  | nil => rfl
  | cons e live ih =>
    by_cases hfinished : e.finished
    · rw [List.takeWhile_cons_of_pos hfinished]
      exact ih
    · rw [List.takeWhile_cons_of_neg hfinished]
      exact List.takeWhile_cons_of_neg hfinished

/-- `try_compactify` -/
theorem Models.tryCompactify (h : Models p gone live) :
    ∃ gone' live', Models p.tryCompactify gone' live' ∧ gone' ++ live' = gone ++ live ∧
      p.tryCompactify.next = p.next := by
  rw [ChangesProcessor.tryCompactify]
  split_ifs
  · refine ⟨gone ++ live.take p.readyI, live.drop p.readyI, ?_, ?_, ?_⟩
    · refine ⟨?_, ?_, ?_, ?_, ?_⟩
      · intro e he
        rcases List.mem_append.1 he with he | he
        · exact h.gone e he
        · have htake : live.take p.readyI = live.takeWhile Entry.finished := by
            rw [h.ready]
            exact (List.prefix_iff_eq_take.1 (List.takeWhile_prefix _)).symm
          exact List.mem_takeWhile_imp (htake ▸ he)
      · rw [h.data, List.map_drop]
      · intro i e he
        rw [List.getElem?_drop] at he
        rw [h.ids _ e he, UInt64.ofNat_add, UInt64.add_assoc]
      · rw [h.ready, takeWhile_drop]
        rfl
      · rw [List.length_drop]
        exact (Nat.sub_le _ _).trans_lt h.small
    · rw [List.append_assoc, List.take_append_drop]
    · have hle : p.readyI ≤ p.dataArray.length := by
        rw [h.ready, h.length]
        exact (List.takeWhile_prefix _).length_le
      rw [next, next, List.length_drop, UInt64.add_assoc, ← UInt64.ofNat_add,
        Nat.add_sub_cancel' hle]
  · exact ⟨gone, live, h, rfl, rfl⟩

/-- What has been finished of all changes: those that are gone, and the first ones that are left. -/
theorem Models.takeWhile_append (h : Models p gone live) :
    (gone ++ live).takeWhile Entry.finished = gone ++ live.takeWhile Entry.finished :=
  List.takeWhile_append_of_pos h.gone

/-- `finish` passes on what is now finished in front and was not before. -/
theorem Models.finish (h : Models p gone live) (token : Id) :
    ∃ gone' live' calls p', p.finish token = (calls, p') ∧ Models p' gone' live' ∧
      gone' ++ live' = (gone ++ live).map (Entry.mark token) ∧ p'.next = p.next ∧
      ((gone' ++ live').takeWhile Entry.finished).map Entry.data =
        ((gone ++ live).takeWhile Entry.finished).map Entry.data ++ calls := by
  rw [ChangesProcessor.finish]
  dsimp only
  split_ifs with hpos
  · have hlive := h.map_live_of_le (h.length ▸ hpos)
    refine ⟨gone, live, [], p, rfl, h, ?_, rfl, (List.append_nil _).symm⟩
    rw [List.map_append, h.map_gone, hlive]
  · rw [deliver_eq, ← h.map_live]
    obtain ⟨htake, hlength⟩ := takeWhile_mark live token
    generalize hlive' : live.map (Entry.mark token) = live' at htake hlength ⊢
    have hdrop : ((live'.map fun e ↦ (e.data, e.finished)).drop p.readyI).takeWhile Prod.snd =
        ((live'.drop p.readyI).takeWhile Entry.finished).map fun e ↦ (e.data, e.finished) := by
      rw [← List.map_drop, List.takeWhile_map]
      rfl
    have hmodels : Models { p with
        dataArray := live'.map fun e ↦ (e.data, e.finished)
        readyI := p.readyI + ((live'.drop p.readyI).takeWhile Entry.finished).length }
        gone live' := by
      refine ⟨h.gone, rfl, fun i e he ↦ ?_, ?_, ?_⟩
      · rw [← hlive', List.getElem?_map, Option.map_eq_some_iff] at he
        obtain ⟨e', he', rfl⟩ := he
        refine Eq.trans ?_ (h.ids i e' he')
        rw [Entry.mark]
        split_ifs <;> rfl
      · rw [hlength, h.ready]
      · rw [← hlive', List.length_map]
        exact h.small
    rw [hdrop, List.length_map, List.map_map]
    obtain ⟨gone', live'', hmodels', happend, hnext⟩ := hmodels.tryCompactify
    refine ⟨gone', live'', _, _, rfl, hmodels', ?_, ?_, ?_⟩
    · rw [happend, List.map_append, h.map_gone, hlive']
    · rw [hnext, next, next, List.length_map, ← hlive', List.length_map, h.length]
    · rw [happend, hmodels.takeWhile_append, h.takeWhile_append, List.map_append, List.map_append,
        htake, h.ready, List.append_assoc]
      rfl

/-- An id that no change has does nothing. -/
theorem Models.finish_eq (h : Models p gone live) (hid : ∀ e ∈ gone ++ live, e.id ≠ token) :
    p.finish token = ([], p) := by
  rw [ChangesProcessor.finish]
  refine if_pos (le_of_not_gt fun hlt ↦ ?_)
  rw [h.length] at hlt
  have hget := List.getElem?_eq_getElem hlt
  exact hid _ (List.mem_append_right _ (List.mem_of_getElem? hget)) ((h.id_eq_iff hget).2 rfl)

/-! ## Runs -/

variable {trace before after : List (Op DataT × Out DataT)} {maxSize : UInt64} {op : Op DataT}
  {out : Out DataT}

/-- What holds after any calls. -/
structure Inv (trace : List (Op DataT × Out DataT)) (p : ChangesProcessor DataT) : Prop where
  models : ∃ gone live, Models p gone live ∧ entries trace = gone ++ live
  now : deliveredNow trace = ((entries trace).takeWhile Entry.finished).map Entry.data
  history : ∃ added₀ delivered₀, added trace = added₀ ++ (entries trace).map Entry.data ∧
    delivered trace = delivered₀ ++ deliveredNow trace ∧ delivered₀.Sublist added₀
  issued : issued trace =
    (List.range (issued trace).length).map fun i ↦ UInt64.ofNat (i + 1)
  next : p.next = UInt64.ofNat ((ChangesProcessor.issued trace).length + 1)

theorem Inv.init : Inv [] ({} : ChangesProcessor DataT) where
  models := ⟨[], [], .init, rfl⟩
  now := rfl
  history := ⟨[], [], rfl, rfl, .slnil⟩
  issued := rfl
  next := rfl

theorem Inv.clear (h : Inv trace p) : Inv (trace ++ [(.clear, .nothing)]) p.clear where
  models := ⟨[], [], .clear p, by rw [entries, List.foldl_append]; rfl⟩
  now := by simp [deliveredNow, entries, track]
  history := by
    obtain ⟨added₀, delivered₀, hadded, hdelivered, hsub⟩ := h.history
    refine ⟨added trace, delivered trace, ?_, ?_, ?_⟩
    · simp [added, entries, track]
    · simp [delivered, deliveredNow]
    · rw [hadded, hdelivered, h.now]
      exact hsub.append (((List.takeWhile_sublist _).map _))
  issued := by simpa [ChangesProcessor.issued] using h.issued
  next := by
    rw [next_clear, h.next]
    simp [ChangesProcessor.issued]

/-- A call that throws. -/
theorem Inv.thrown (h : Inv trace p) (data : DataT) :
    Inv (trace ++ [(.add data, .lengthError)]) p where
  models := by simpa [entries, track] using h.models
  now := by simpa [deliveredNow, entries, track] using h.now
  history := by simpa [added, delivered, deliveredNow, entries, track] using h.history
  issued := by simpa [ChangesProcessor.issued] using h.issued
  next := by simpa [ChangesProcessor.issued] using h.next

theorem Inv.add (h : Inv trace p) (data : DataT) (hlt : p.dataArray.length < maxSize.toNat) :
    Inv (trace ++ [(.add data, .id p.next)])
      { p with dataArray := p.dataArray ++ [(data, false)] } := by
  obtain ⟨gone, live, hmodels, hentries⟩ := h.models
  have htrack : entries (trace ++ [(.add data, .id p.next)]) =
      entries trace ++ [⟨p.next, data, false⟩] := by
    rw [entries, List.foldl_append]
    rfl
  have hnow : deliveredNow (trace ++ [(.add data, .id p.next)]) = deliveredNow trace := by
    rw [deliveredNow, List.foldl_append]
    rfl
  have hissued : ChangesProcessor.issued (trace ++ [(.add data, .id p.next)]) =
      ChangesProcessor.issued trace ++ [p.next] := by
    rw [ChangesProcessor.issued, List.filterMap_append]
    rfl
  refine ⟨⟨gone, _, hmodels.add data ?_, ?_⟩, ?_, ?_, ?_, ?_⟩
  · exact lt_of_le_of_lt hlt maxSize.toNat_lt
  · rw [htrack, hentries, List.append_assoc]
    rfl
  · have htake : (entries trace ++ [(⟨p.next, data, false⟩ : Entry DataT)]).takeWhile
        Entry.finished = (entries trace).takeWhile Entry.finished := by
      rw [List.takeWhile_append]
      split_ifs with hall
      · rw [List.takeWhile_cons_of_neg Bool.false_ne_true, List.append_nil]
        exact ((List.takeWhile_prefix _).eq_of_length hall).symm
      · rfl
    rw [hnow, htrack, htake, h.now]
  · obtain ⟨added₀, delivered₀, hadded, hdelivered, hsub⟩ := h.history
    refine ⟨added₀, delivered₀, ?_, ?_, hsub⟩
    · rw [htrack, List.map_append, ← List.append_assoc, ← hadded, added, List.filterMap_append]
      rfl
    · rw [hnow, ← hdelivered, delivered, List.flatMap_append]
      exact List.append_nil _
  · rw [hissued, List.length_append, List.length_singleton, List.range_succ, List.map_append,
      ← h.issued, h.next]
    rfl
  · rw [hissued, next_add, h.next, List.length_append, List.length_singleton,
      UInt64.ofNat_add (_ + 1) 1]
    rfl

theorem Inv.finish (h : Inv trace p) (token : Id) :
    Inv (trace ++ [(.finish token, .calls (p.finish token).1)]) (p.finish token).2 := by
  obtain ⟨gone, live, hmodels, hentries⟩ := h.models
  obtain ⟨gone', live', calls, p', hfinish, hmodels', happend, hnext, htake⟩ :=
    hmodels.finish token
  rw [hfinish]
  have htrack : entries (trace ++ [(.finish token, .calls calls)]) = gone' ++ live' := by
    rw [entries, List.foldl_append]
    exact (congrArg (List.map (Entry.mark token)) hentries).trans happend.symm
  have hnow : deliveredNow (trace ++ [(.finish token, .calls calls)]) =
      deliveredNow trace ++ calls := by
    rw [deliveredNow, List.foldl_append]
    rfl
  have hissued : ChangesProcessor.issued (trace ++ [(.finish token, .calls calls)]) =
      ChangesProcessor.issued trace := by
    rw [ChangesProcessor.issued, List.filterMap_append]
    exact List.append_nil _
  refine ⟨⟨gone', live', hmodels', htrack⟩, ?_, ?_, ?_, ?_⟩
  · rw [hnow, htrack, htake, h.now, hentries]
  · obtain ⟨added₀, delivered₀, hadded, hdelivered, hsub⟩ := h.history
    refine ⟨added₀, delivered₀, ?_, ?_, hsub⟩
    · rw [htrack, happend, ← hentries, List.map_map]
      have hdata : Entry.data ∘ Entry.mark token = (Entry.data : Entry DataT → DataT) := by
        funext e
        rw [Function.comp_apply, Entry.mark]
        split_ifs <;> rfl
      rw [hdata, ← hadded, added, List.filterMap_append]
      exact List.append_nil _
    · rw [hnow, ← List.append_assoc, ← hdelivered, delivered, List.flatMap_append]
      exact congrArg _ (List.append_nil _)
  · rw [hissued]
    exact h.issued
  · rw [hissued, hnext]
    exact h.next

/-- Every call keeps the invariant. -/
theorem Inv.step (h : Inv trace p) (maxSize : UInt64) (op : Op DataT) :
    Inv (trace ++ [(op, (p.step maxSize op).1)]) (p.step maxSize op).2 := by
  cases op with
  | add data =>
    rw [ChangesProcessor.step, ChangesProcessor.add]
    split_ifs with hlt
    · exact h.add data hlt
    · exact h.thrown data
  | finish token => exact h.finish token
  | clear => exact h.clear

/-- What every call keeps is kept by a run. -/
theorem run_inv (maxSize : UInt64) (ops : List (Op DataT)) :
    Inv (run maxSize ops).1 (run maxSize ops).2 := by
  induction ops using List.reverseRecOn with
  | nil => exact Inv.init
  | append_singleton ops op ih =>
    rw [run, List.foldl_append]
    exact ih.step maxSize op

/-- The ids are new for 2 ^ 64 changes. -/
theorem Inv.nodup (h : Inv trace p) (hle : (ChangesProcessor.issued trace).length ≤ 2 ^ 64) :
    (ChangesProcessor.issued trace).Nodup := by
  rw [h.issued]
  refine List.Nodup.map_on ?_ List.nodup_range
  intro i hi j hj heq
  rw [List.mem_range] at hi hj
  rw [← UInt64.toNat_inj, UInt64.toNat_ofNat', UInt64.toNat_ofNat'] at heq
  omega

/-- A change has an id that was returned after the last `clear`. -/
theorem id_mem_issued {es : List (Entry DataT)} :
    ∀ e ∈ trace.foldl track es, e.id ∈ es.map Entry.id ++ issued trace := by
  induction trace generalizing es with
  | nil =>
    intro e he
    rw [issued, List.filterMap_nil, List.append_nil]
    exact List.mem_map_of_mem he
  | cons call trace ih =>
    intro e he
    have hcons : issued (call :: trace) = issued [call] ++ issued trace :=
      List.filterMap_append (l := [call])
    rw [hcons, ← List.append_assoc]
    refine List.mem_append.2 ((List.mem_append.1 (ih e he)).imp_left fun hid ↦ ?_)
    obtain ⟨op, out⟩ := call
    cases op with
    | add data =>
      cases out with
      | id id =>
        rw [track, List.map_append] at hid
        exact hid
      | calls | nothing | lengthError => exact List.mem_append_left _ hid
    | finish token =>
      refine List.mem_append_left _ ?_
      rw [track, List.map_map] at hid
      have hmark : Entry.id ∘ Entry.mark token = (Entry.id : Entry DataT → Id) := by
        funext e
        rw [Function.comp_apply, Entry.mark]
        split_ifs <;> rfl
      rwa [hmark] at hid
    | clear => cases hid

/-- After any calls, exactly the longest prefix of the changes since the last `clear` that are
finished has been passed on, and over the whole run each change at most once and in the order in
which they were added.  An id from before a `clear` that has not been returned again does nothing,
and no id is returned again in fewer than 2 ^ 64 calls. -/
theorem run_in_order (maxSize : UInt64) (ops : List (Op DataT)) :
    let (trace, p) := run maxSize ops
    deliveredNow trace = ((entries trace).takeWhile Entry.finished).map Entry.data ∧
      (delivered trace).Sublist (added trace) ∧
      (∀ before after out, trace = before ++ (.clear, out) :: after →
        ∀ id ∈ issued before, id ∉ issued after → p.finish id = ([], p)) ∧
      ((issued trace).length ≤ 2 ^ 64 → (issued trace).Nodup) := by
  have h := run_inv maxSize ops
  generalize run maxSize ops = result at h ⊢
  obtain ⟨trace, p⟩ := result
  refine ⟨h.now, ?_, ?_, h.nodup⟩
  · obtain ⟨added₀, delivered₀, hadded, hdelivered, hsub⟩ := h.history
    rw [hadded, hdelivered, h.now]
    exact hsub.append ((List.takeWhile_sublist _).map _)
  · rintro before after out rfl id - hid
    obtain ⟨gone, live, hmodels, hentries⟩ := h.models
    refine hmodels.finish_eq fun e he heq ↦ hid ?_
    rw [← hentries, entries, List.foldl_append] at he
    have hafter : e ∈ after.foldl track [] := he
    have hmem : e.id ∈ issued after := id_mem_issued e hafter
    rwa [heq] at hmem

end ChangesProcessor

end PxcCore
