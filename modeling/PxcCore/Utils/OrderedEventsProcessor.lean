import PxcCore.Lib.Result

/-!
# OrderedEventsProcessor

`OrderedEventsProcessor.h`: items come in any order and are passed on in the order of their
numbers.  The items that have to wait are kept in a window that begins at `offset`.

An index outside of the window is `Fault.outOfRange`; the window may become as large as it has to.
What a move leaves of an item is never read again.
-/

namespace PxcCore

open Lib

namespace OrderedEventsProcessor

/-- `OrderedEventsProcessor::SeqNo`. -/
abbrev SeqNo := UInt64

/-- How `add` ends other than by returning. -/
inductive Fault where
  | check
  | outOfRange
  | fuel
deriving DecidableEq, Repr

end OrderedEventsProcessor

structure OrderedEventsProcessor (DataT : Type) where
  offset : OrderedEventsProcessor.SeqNo := 1
  begin_ : OrderedEventsProcessor.SeqNo := 1
  end_ : OrderedEventsProcessor.SeqNo := 1
  dataArray : List (DataT × Bool) := []

namespace OrderedEventsProcessor

variable {DataT : Type}

/-- The processor that expects this number first. -/
def new (offset : SeqNo) : OrderedEventsProcessor DataT :=
  { offset := offset, begin_ := offset, end_ := offset }

/-- The loop of `add` over the items that have waited for this one, with the calls that it makes. -/
def runWaiting : ℕ → OrderedEventsProcessor DataT →
    Except Fault (List (SeqNo × DataT) × OrderedEventsProcessor DataT)
  | 0, _ => .error .fuel
  | fuel + 1, p =>
    if p.begin_ < p.end_ then
      let pos := (p.begin_ - p.offset).toNat
      match p.dataArray[pos]? with
      | none => .error .outOfRange
      | some (_, false) => .ok ([], p)
      | some (data, true) => do
        let (calls, p') ← runWaiting fuel
          { p with dataArray := p.dataArray.set pos (data, false), begin_ := p.begin_ + 1 }
        return ((p.begin_, data) :: calls, p')
    else .ok ([], p)

/-- The end of `add`, `try_compactify`. -/
def tryCompactify (p : OrderedEventsProcessor DataT) :
    Except Fault (OrderedEventsProcessor DataT) :=
  let beginPos := p.begin_ - p.offset
  if beginPos > 5 ∧ (beginPos * 2).toNat > p.dataArray.length then
    if beginPos.toNat ≤ p.dataArray.length then
      .ok { p with dataArray := p.dataArray.drop beginPos.toNat, offset := p.begin_ }
    else .error .outOfRange
  else .ok p

/-- `add`, with the calls of the function. -/
def add [Inhabited DataT] (p : OrderedEventsProcessor DataT) (seqNo : SeqNo) (data : DataT) :
    Except Fault (List (SeqNo × DataT) × OrderedEventsProcessor DataT) :=
  if seqNo < p.begin_ then .error .check
  else if seqNo = p.begin_ then do
    let (calls, p) ← runWaiting (p.dataArray.length + 1) { p with begin_ := p.begin_ + 1 }
    let p := if p.begin_ > p.end_ then { p with end_ := p.begin_ } else p
    let p := if p.begin_ = p.end_ then { p with offset := p.begin_ } else p
    return ((seqNo, data) :: calls, ← p.tryCompactify)
  else
    let pos := seqNo - p.offset
    let needSize := (pos + 1).toNat
    let dataArray := p.dataArray ++
      List.replicate (needSize - p.dataArray.length) (default, false)
    if pos.toNat < dataArray.length then
      .ok ([], { p with
        dataArray := dataArray.set pos.toNat (data, true)
        end_ := if p.end_ < seqNo + 1 then seqNo + 1 else p.end_ })
    else .error .outOfRange

/-- Items added one after another, with all calls. -/
def run [Inhabited DataT] : OrderedEventsProcessor DataT → List (SeqNo × DataT) →
    Except Fault (List (SeqNo × DataT) × OrderedEventsProcessor DataT)
  | p, [] => .ok ([], p)
  | p, (seqNo, data) :: items => do
    let (calls, p) ← p.add seqNo data
    let (calls', p) ← p.run items
    return (calls ++ calls', p)

/-! ## What is passed on -/

/-- The calls are those for the numbers from the first one on, as far as they have come without a
gap: one call for each, in this order, with the item that was added. -/
structure Delivers (first : SeqNo) (items calls : List (SeqNo × DataT)) : Prop where
  mem : ∀ call ∈ calls, call ∈ items
  seq : calls.map (fun call ↦ call.1.toNat) = List.range' first.toNat calls.length
  gap : ∀ item ∈ items, item.1.toNat ≠ first.toNat + calls.length

/-- The window holds the items that wait: those with a number from `next` on. -/
structure Window (items : List (SeqNo × DataT)) (next : ℕ) (p : OrderedEventsProcessor DataT) :
    Prop where
  offset_le : p.offset.toNat ≤ p.begin_.toNat
  size : p.begin_ < p.end_ → p.end_.toNat ≤ p.offset.toNat + p.dataArray.length
  data : ∀ i d, p.dataArray[i]? = some (d, true) ↔
    ∃ n, (n, d) ∈ items ∧ n.toNat = p.offset.toNat + i ∧ next ≤ n.toNat
  lt_end : ∀ item ∈ items, next ≤ item.1.toNat → item.1 < p.end_

/-- What holds between two `add`s. -/
structure Inv (first : SeqNo) (items calls : List (SeqNo × DataT))
    (p : OrderedEventsProcessor DataT) : Prop extends Window items p.begin_.toNat p where
  delivers : Delivers first items calls
  begin_le : p.begin_ ≤ p.end_
  begin_eq : p.begin_.toNat = first.toNat + calls.length

variable {first : SeqNo} {items calls : List (SeqNo × DataT)} {p : OrderedEventsProcessor DataT}

theorem toNat_add_one {n m : SeqNo} (h : n < m) : (n + 1).toNat = n.toNat + 1 := by
  rw [UInt64.toNat_add]
  have hm := m.toNat_lt
  have hlt := UInt64.lt_iff_toNat_lt.1 h
  exact Nat.mod_eq_of_lt (by change n.toNat + 1 < 2 ^ 64; omega)

theorem Window.toNat_pos (h : Window items p.begin_.toNat p) :
    (p.begin_ - p.offset).toNat = p.begin_.toNat - p.offset.toNat :=
  UInt64.toNat_sub_of_le _ _ (UInt64.le_iff_toNat_le.2 h.offset_le)

/-- An item is passed on: the window holds those that are left. -/
theorem Window.next {data : DataT} (h : Window items p.begin_.toNat p) (hlt : p.begin_ < p.end_) :
    Window items (p.begin_.toNat + 1)
      { p with
        dataArray := p.dataArray.set (p.begin_ - p.offset).toNat (data, false)
        begin_ := p.begin_ + 1 } where
  offset_le := by
    rw [toNat_add_one hlt]
    exact h.offset_le.trans (Nat.le_succ _)
  size _ := by
    rw [List.length_set]
    exact h.size hlt
  data i d := by
    have hle := h.offset_le
    rw [List.getElem?_set, h.toNat_pos]
    split_ifs with hi hr
    · constructor
      · intro he
        simp at he
      · rintro ⟨n, -, hn, hle'⟩
        change n.toNat = p.offset.toNat + i at hn
        omega
    · constructor
      · intro he
        simp at he
      · rintro ⟨n, -, hn, hle'⟩
        change n.toNat = p.offset.toNat + i at hn
        omega
    · rw [h.data]
      refine exists_congr fun n ↦ and_congr_right fun _ ↦ and_congr_right fun hn ↦ ?_
      omega
  lt_end item hi hle := h.lt_end item hi (by omega)

/-- The loop passes on the items without a gap, and stops at the first number that has not come. -/
theorem runWaiting_spec {fuel : ℕ} (h : Window items p.begin_.toNat p)
    (hf : p.end_.toNat ≤ p.begin_.toNat + fuel) :
    ∃ calls p', runWaiting (fuel + 1) p = .ok (calls, p') ∧ Window items p'.begin_.toNat p' ∧
      (∀ call ∈ calls, call ∈ items) ∧
      calls.map (fun call ↦ call.1.toNat) = List.range' p.begin_.toNat calls.length ∧
      (∀ item ∈ items, item.1 ≠ p'.begin_) ∧
      p'.begin_.toNat = p.begin_.toNat + calls.length := by
  induction fuel generalizing p with
  | zero => 
    have hlt : ¬p.begin_ < p.end_ := by
      rw [UInt64.lt_iff_toNat_lt]
      omega
    refine ⟨[], p, by rw [runWaiting, if_neg hlt], h, by simp, rfl, ?_, rfl⟩
    rintro item hi he
    exact hlt (he ▸ h.lt_end item hi (by rw [he]))
  | succ fuel ih =>
    rw [runWaiting]
    split_ifs with hlt
    · have hlt' := UInt64.lt_iff_toNat_lt.1 hlt
      have hpos := h.toNat_pos
      have hle := h.offset_le
      have hin : (p.begin_ - p.offset).toNat < p.dataArray.length := by
        have := h.size hlt
        omega
      have hget := List.getElem?_eq_getElem hin
      simp only [hget]
      cases hx : p.dataArray[(p.begin_ - p.offset).toNat] with
      | mk data flag =>
        rw [hx] at hget
        cases flag with
        | false =>
          refine ⟨[], p, rfl, h, by simp, rfl, ?_, rfl⟩
          rintro ⟨n, d⟩ hi rfl
          have := (h.data (p.begin_ - p.offset).toNat d).2 ⟨p.begin_, hi, by omega, le_rfl⟩
          simp [hget] at this
        | true =>
          obtain ⟨n, hn, hnat, -⟩ := (h.data _ _).1 hget
          obtain rfl : n = p.begin_ := UInt64.toNat_inj.1 (by omega)
          let p₁ : OrderedEventsProcessor DataT := { p with
            dataArray := p.dataArray.set (p.begin_ - p.offset).toNat (data, false)
            begin_ := p.begin_ + 1 }
          have hb₁ : p₁.begin_.toNat = p.begin_.toNat + 1 := toNat_add_one hlt
          have hnext : Window items p₁.begin_.toNat p₁ := hb₁ ▸ h.next hlt
          have hf₁ : p₁.end_.toNat ≤ p₁.begin_.toNat + fuel := by
            rw [hb₁]
            change p.end_.toNat ≤ _
            omega
          obtain ⟨calls, p', hr, hw, hmem, hseq, hgap, hb⟩ := ih hnext hf₁
          refine ⟨(p.begin_, data) :: calls, p', ?_, hw, ?_, ?_, hgap, ?_⟩
          · exact bind_eq_ok.2 ⟨_, hr, rfl⟩
          · exact List.forall_mem_cons.2 ⟨hn, hmem⟩
          · rw [List.map_cons, hseq, List.length_cons, List.range'_succ, hb₁]
          · rw [hb, hb₁, List.length_cons]
            omega
    · refine ⟨[], p, rfl, h, by simp, rfl, ?_, rfl⟩
      rintro item hi he
      exact hlt (he ▸ h.lt_end item hi (by rw [he]))

/-! ## `add` -/

/-- The compaction keeps the window and never goes past its end. -/
theorem tryCompactify_spec (h : Window items p.begin_.toNat p)
    (hor : p.begin_ < p.end_ ∨ p.offset = p.begin_) :
    ∃ p', p.tryCompactify = .ok p' ∧ Window items p'.begin_.toNat p' ∧ p'.begin_ = p.begin_ ∧
      p'.end_ = p.end_ := by
  have hpos := h.toNat_pos
  have hle := h.offset_le
  unfold tryCompactify
  simp only
  split_ifs with hc hin
  · refine ⟨_, rfl, ?_, rfl, rfl⟩
    exact
      { offset_le := le_rfl
        size := by
          intro hlt
          have := h.size hlt
          simp only [List.length_drop]
          omega
        data := by
          intro i d
          rw [List.getElem?_drop, h.data]
          refine exists_congr fun n ↦ and_congr_right fun _ ↦ and_congr_left fun hn ↦ ?_
          change _ ↔ n.toNat = p.begin_.toNat + i
          omega
        lt_end := h.lt_end }
  · exfalso
    rcases hor with hlt | he
    · have := h.size hlt
      have := UInt64.lt_iff_toNat_lt.1 hlt
      omega
    · have h5 := UInt64.lt_iff_toNat_lt.1 hc.1
      rw [hpos, he] at h5
      simp at h5
  · exact ⟨p, rfl, h, rfl, rfl⟩

/-- All that wait are passed on when the window is left: it can begin anywhere. -/
theorem Window.restart (h : Window items p.begin_.toNat p) (he : p.begin_ = p.end_) :
    Window items p.begin_.toNat { p with offset := p.begin_ } where
  offset_le := le_rfl
  size hlt := absurd (he ▸ hlt : p.end_ < p.end_) (UInt64.lt_irrefl _)
  data i d := by
    have hnone : ∀ n, (n, d) ∈ items → ¬p.begin_.toNat ≤ n.toNat := by
      intro n hn hle
      have := UInt64.lt_iff_toNat_lt.1 (h.lt_end _ hn hle)
      rw [← he] at this
      exact absurd hle (not_le.2 this)
    rw [h.data]
    constructor
    · rintro ⟨n, hn, -, hle⟩
      exact absurd hle (hnone n hn)
    · rintro ⟨n, hn, -, hle⟩
      exact absurd hle (hnone n hn)
  lt_end := h.lt_end

/-- The end of the window is never before its begin. -/
theorem Window.settle (h : Window items p.begin_.toNat p) :
    let p₁ := if p.begin_ > p.end_ then { p with end_ := p.begin_ } else p
    let p₂ := if p₁.begin_ = p₁.end_ then { p₁ with offset := p₁.begin_ } else p₁
    Window items p₂.begin_.toNat p₂ ∧ p₂.begin_ = p.begin_ ∧ p₂.begin_ ≤ p₂.end_ ∧
      (p₂.begin_ < p₂.end_ ∨ p₂.offset = p₂.begin_) := by
  intro p₁ p₂
  have hb : p₁.begin_ = p.begin_ := by
    simp only [p₁]
    split_ifs <;> rfl
  have hle : p₁.begin_ ≤ p₁.end_ := by
    simp only [p₁]
    split_ifs with hgt
    · exact UInt64.le_refl _
    · exact UInt64.not_lt.1 hgt
  have hw : Window items p₁.begin_.toNat p₁ := by
    simp only [p₁]
    split_ifs with hgt
    · refine
        { offset_le := h.offset_le
          size := fun hlt ↦ absurd hlt (UInt64.lt_irrefl _)
          data := h.data
          lt_end := fun item hi hle ↦ UInt64.lt_trans (h.lt_end item hi hle) hgt }
    · exact h
  by_cases he : p₁.begin_ = p₁.end_
  · have hp₂ : p₂ = { p₁ with offset := p₁.begin_ } := if_pos he
    rw [hp₂]
    exact ⟨hw.restart he, hb, hle, Or.inr rfl⟩
  · have hp₂ : p₂ = p₁ := if_neg he
    rw [hp₂]
    exact ⟨hw, hb, hle, Or.inl (UInt64.lt_of_le_of_ne hle he)⟩

/-- A number that has not come is one of those that are still expected. -/
theorem Inv.begin_le_of_notMem (h : Inv first items calls p) {seqNo : SeqNo} (hf : first ≤ seqNo)
    (hn : seqNo ∉ items.map Prod.fst) : p.begin_ ≤ seqNo := by
  by_contra hlt
  rw [UInt64.le_iff_toNat_le, not_le, h.begin_eq] at hlt
  have hmem : seqNo.toNat ∈ calls.map fun call ↦ call.1.toNat := by
    rw [h.delivers.seq, List.mem_range'_1]
    exact ⟨UInt64.le_iff_toNat_le.1 hf, hlt⟩
  obtain ⟨call, hc, he⟩ := List.mem_map.1 hmem
  exact hn (List.mem_map.2 ⟨call, h.delivers.mem call hc, UInt64.toNat_inj.1 he⟩)

variable [Inhabited DataT] {seqNo : SeqNo} {data : DataT}

/-- The item that is expected next is passed on at once, with those that have waited for it. -/
theorem Inv.add_next (h : Inv first items calls p) (hmax : p.begin_.toNat + 1 < 2 ^ 64) :
    ∃ calls' p', p.add p.begin_ data = .ok (calls', p') ∧
      Inv first (items ++ [(p.begin_, data)]) (calls ++ calls') p' := by
  have hb₁ : (p.begin_ + 1).toNat = p.begin_.toNat + 1 := by
    rw [UInt64.toNat_add]
    exact Nat.mod_eq_of_lt hmax
  let p₁ : OrderedEventsProcessor DataT := { p with begin_ := p.begin_ + 1 }
  have hb₁' : p₁.begin_.toNat = p.begin_.toNat + 1 := hb₁
  have hgap : ∀ item ∈ items, item.1.toNat ≠ p.begin_.toNat := by
    rw [h.begin_eq]
    exact h.delivers.gap
  have hw₁ : Window (items ++ [(p.begin_, data)]) p₁.begin_.toNat p₁ :=
    { offset_le := by
        rw [hb₁']
        exact h.offset_le.trans (Nat.le_succ _)
      size := by
        intro hlt
        rw [UInt64.lt_iff_toNat_lt, hb₁'] at hlt
        exact h.size (UInt64.lt_iff_toNat_lt.2 (Nat.lt_of_succ_lt hlt))
      data := by
        intro i d
        rw [h.data]
        refine exists_congr fun n ↦ ?_
        rw [List.mem_append, List.mem_singleton, hb₁']
        constructor
        · rintro ⟨hn, ho, hle⟩
          have hne : n.toNat ≠ _ := hgap _ hn
          exact ⟨Or.inl hn, ho, by omega⟩
        · rintro ⟨hn | hn, ho, hle⟩
          · exact ⟨hn, ho, by omega⟩
          · obtain ⟨rfl, -⟩ := Prod.mk.inj hn
            omega
      lt_end := by
        intro item hi hle
        rw [hb₁'] at hle
        rcases List.mem_append.1 hi with hi | hi
        · exact h.lt_end item hi (by omega)
        · rw [List.mem_singleton.1 hi] at hle
          exact absurd hle (by simp) }
  have hf : p₁.end_.toNat ≤ p₁.begin_.toNat + p.dataArray.length := by
    have hle := h.offset_le
    rw [hb₁']
    change p.end_.toNat ≤ _
    rcases Nat.lt_or_ge p.begin_.toNat p.end_.toNat with hlt | hge
    · have := h.size (UInt64.lt_iff_toNat_lt.2 hlt)
      omega
    · omega
  obtain ⟨calls', p₂, hr, hw₂, hmem, hseq, hgap₂, hb₂⟩ := runWaiting_spec hw₁ hf
  obtain ⟨hw₃, hb₃, hle₃, hor⟩ := hw₂.settle
  obtain ⟨p₄, hc, hw₄, hb₄, he₄⟩ := tryCompactify_spec hw₃ hor
  have hbegin : p₄.begin_ = p₂.begin_ := hb₄.trans hb₃
  have hcount : p₂.begin_.toNat = first.toNat + (calls ++ (p.begin_, data) :: calls').length := by
    have := h.begin_eq
    rw [hb₂, hb₁', List.length_append, List.length_cons]
    omega
  refine ⟨(p.begin_, data) :: calls', p₄, ?_, ?_⟩
  · rw [add, if_neg (UInt64.lt_irrefl _), if_pos rfl]
    exact bind_eq_ok.2 ⟨_, hr, bind_eq_ok.2 ⟨p₄, hc, rfl⟩⟩
  · exact
      { toWindow := hw₄
        begin_le := by
          rw [hb₄, he₄]
          exact hle₃
        begin_eq := by rw [hbegin, hcount]
        delivers :=
          { mem := by
              intro call hcall
              rcases List.mem_append.1 hcall with hcall | hcall
              · exact List.mem_append_left _ (h.delivers.mem call hcall)
              · rcases List.mem_cons.1 hcall with rfl | hcall
                · exact List.mem_append_right _ (List.mem_singleton_self _)
                · exact hmem call hcall
            seq := by
              rw [List.map_append, List.map_cons, h.delivers.seq, hseq, hb₁', h.begin_eq,
                List.length_append, List.length_cons, ← List.range'_append_1, List.range'_succ]
            gap := by
              intro item hi
              rw [← hcount]
              exact fun he ↦ hgap₂ item hi (UInt64.toNat_inj.1 he) } }

/-- An item that has to wait goes into the window. -/
theorem Inv.add_later (h : Inv first items calls p) (hlt : p.begin_ < seqNo)
    (hn : seqNo ∉ items.map Prod.fst) (hmax : seqNo.toNat + 1 < 2 ^ 64) :
    ∃ p', p.add seqNo data = .ok ([], p') ∧ Inv first (items ++ [(seqNo, data)]) calls p' := by
  have hlt' := UInt64.lt_iff_toNat_lt.1 hlt
  have hle := h.offset_le
  have hpos : (seqNo - p.offset).toNat = seqNo.toNat - p.offset.toNat :=
    UInt64.toNat_sub_of_le _ _ (UInt64.le_iff_toNat_le.2 (by omega))
  have hneed : (seqNo - p.offset + 1).toNat = (seqNo - p.offset).toNat + 1 := by
    rw [UInt64.toNat_add]
    exact Nat.mod_eq_of_lt (by rw [hpos]; change _ + 1 < _; omega)
  have hend : (seqNo + 1).toNat = seqNo.toNat + 1 := by
    rw [UInt64.toNat_add]
    exact Nat.mod_eq_of_lt hmax
  have hin : (seqNo - p.offset).toNat < (p.dataArray ++ List.replicate
      ((seqNo - p.offset + 1).toNat - p.dataArray.length) (default, false)).length := by
    rw [List.length_append, List.length_replicate, hneed]
    omega
  have hget (i : ℕ) (d : DataT) : (p.dataArray ++ List.replicate
      ((seqNo - p.offset + 1).toNat - p.dataArray.length) (default, false))[i]? = some (d, true) ↔
      p.dataArray[i]? = some (d, true) := by
    rcases Nat.lt_or_ge i p.dataArray.length with hi | hi
    · rw [List.getElem?_append_left hi]
    · rw [List.getElem?_append_right hi, List.getElem?_replicate, List.getElem?_eq_none hi]
      split_ifs <;> simp
  have hend' (end_ : SeqNo) (he : end_ = if p.end_ < seqNo + 1 then seqNo + 1 else p.end_) :
      p.end_.toNat ≤ end_.toNat ∧ seqNo.toNat + 1 ≤ end_.toNat := by
    rw [he]
    split_ifs with hc
    · rw [UInt64.lt_iff_toNat_lt, hend] at hc
      omega
    · rw [UInt64.lt_iff_toNat_lt, hend] at hc
      omega
  have hadd : p.add seqNo data = .ok ([], { p with
      dataArray := (p.dataArray ++ List.replicate
        ((seqNo - p.offset + 1).toNat - p.dataArray.length) (default, false)).set
          (seqNo - p.offset).toNat (data, true)
      end_ := if p.end_ < seqNo + 1 then seqNo + 1 else p.end_ }) := by
    rw [add, if_neg (UInt64.not_lt.2 (UInt64.le_of_lt hlt)), if_neg (UInt64.ne_of_lt hlt).symm]
    exact if_pos hin
  refine ⟨_, hadd, ?_⟩
  · exact
      { offset_le := hle
        size := by
          intro hlte
          simp only [List.length_set, List.length_append, List.length_replicate, hneed] at hlte ⊢
          split_ifs at hlte ⊢ with he
          · omega
          · have := h.size hlte
            omega
        data := by
          intro i d
          rw [List.getElem?_set]
          by_cases hi : (seqNo - p.offset).toNat = i
          · subst hi
            rw [if_pos rfl, if_pos hin]
            constructor
            · intro he
              obtain ⟨rfl, -⟩ := Prod.mk.inj (Option.some.inj he)
              exact ⟨seqNo, by simp, by change _ = p.offset.toNat + _; omega, hlt'.le⟩
            · rintro ⟨n, hm, ho, -⟩
              change n.toNat = p.offset.toNat + _ at ho
              obtain rfl : n = seqNo := UInt64.toNat_inj.1 (by omega)
              rcases List.mem_append.1 hm with hm | hm
              · exact absurd (List.mem_map.2 ⟨_, hm, rfl⟩) hn
              · obtain ⟨-, rfl⟩ := Prod.mk.inj (List.mem_singleton.1 hm)
                rfl
          · rw [if_neg hi, hget, h.data]
            refine exists_congr fun n ↦ ⟨fun ⟨hm, hr⟩ ↦ ⟨List.mem_append_left _ hm, hr⟩, ?_⟩
            rintro ⟨hm, ho, hr⟩
            refine ⟨(List.mem_append.1 hm).resolve_right fun hm ↦ hi ?_, ho, hr⟩
            obtain ⟨rfl, -⟩ := Prod.mk.inj (List.mem_singleton.1 hm)
            change n.toNat = p.offset.toNat + i at ho
            omega
        lt_end := by
          intro item hi hge
          obtain ⟨he, he'⟩ := hend' _ rfl
          rw [UInt64.lt_iff_toNat_lt]
          rcases List.mem_append.1 hi with hi | hi
          · exact lt_of_lt_of_le (UInt64.lt_iff_toNat_lt.1 (h.lt_end item hi hge)) he
          · rw [List.mem_singleton.1 hi]
            exact he'
        begin_le := by
          rw [UInt64.le_iff_toNat_le]
          exact (UInt64.le_iff_toNat_le.1 h.begin_le).trans (hend' _ rfl).1
        begin_eq := h.begin_eq
        delivers :=
          { mem := fun call hc ↦ List.mem_append_left _ (h.delivers.mem call hc)
            seq := h.delivers.seq
            gap := by
              intro item hi
              rcases List.mem_append.1 hi with hi | hi
              · exact h.delivers.gap item hi
              · rw [List.mem_singleton.1 hi, ← h.begin_eq]
                exact hlt'.ne' } }

/-! ## Runs -/

omit [Inhabited DataT] in
theorem Inv.init (first : SeqNo) : Inv first [] [] (new first : OrderedEventsProcessor DataT) where
  offset_le := le_rfl
  size hlt := absurd hlt (UInt64.lt_irrefl _)
  data := by simp [new]
  lt_end := by simp
  begin_le := UInt64.le_refl _
  begin_eq := rfl
  delivers := ⟨by simp, rfl, by simp⟩

theorem Inv.run (h : Inv first items calls p) (more : List (SeqNo × DataT))
    (hn : ((items ++ more).map Prod.fst).Nodup) (hf : ∀ item ∈ more, first ≤ item.1)
    (hmax : ∀ item ∈ more, item.1 ≠ 0xFFFFFFFFFFFFFFFF) :
    ∃ calls' p', p.run more = .ok (calls', p') ∧
      Inv first (items ++ more) (calls ++ calls') p' := by
  induction more generalizing items calls p with
  | nil => exact ⟨[], p, rfl, by simpa using h⟩
  | cons item more ih =>
    obtain ⟨seqNo, data⟩ := item
    have hnew : seqNo ∉ items.map Prod.fst := by
      rw [List.map_append, List.map_cons] at hn
      intro hm
      exact (List.nodup_append.1 hn).2.2 _ hm _ List.mem_cons_self rfl
    have hlt : seqNo.toNat + 1 < 2 ^ 64 := by
      have hne := hmax _ List.mem_cons_self
      have := seqNo.toNat_lt
      rw [Ne, ← UInt64.toNat_inj] at hne
      change seqNo.toNat ≠ 2 ^ 64 - 1 at hne
      omega
    have hle := h.begin_le_of_notMem (hf _ List.mem_cons_self) hnew
    have hstep : ∃ calls' p', p.add seqNo data = .ok (calls', p') ∧
        Inv first (items ++ [(seqNo, data)]) (calls ++ calls') p' := by
      by_cases he : p.begin_ = seqNo
      · subst he
        exact h.add_next hlt
      · obtain ⟨p', ha, hi⟩ : ∃ p', p.add seqNo data = .ok ([], p') ∧
            Inv first (items ++ [(seqNo, data)]) calls p' :=
          h.add_later (UInt64.lt_of_le_of_ne hle he) hnew hlt
        exact ⟨[], p', ha, by simpa using hi⟩
    obtain ⟨calls₁, p₁, ha, h₁⟩ := hstep
    obtain ⟨calls₂, p₂, hr, h₂⟩ := ih h₁ (by simpa using hn)
      (fun item hi ↦ hf item (List.mem_cons_of_mem _ hi))
      (fun item hi ↦ hmax item (List.mem_cons_of_mem _ hi))
    refine ⟨calls₁ ++ calls₂, p₂, ?_, by simpa using h₂⟩
    exact bind_eq_ok.2 ⟨_, ha, bind_eq_ok.2 ⟨_, hr, rfl⟩⟩

/-- Items with different numbers, none of them the last number there is, are passed on in order:
each as soon as all before it have come. -/
theorem run_delivers (first : SeqNo) (items : List (SeqNo × DataT))
    (hn : (items.map Prod.fst).Nodup) (hf : ∀ item ∈ items, first ≤ item.1)
    (hmax : ∀ item ∈ items, item.1 ≠ 0xFFFFFFFFFFFFFFFF) :
    ∃ calls p, (new first).run items = .ok (calls, p) ∧ Delivers first items calls := by
  obtain ⟨calls, p, hr, h⟩ := (Inv.init first).run items hn hf hmax
  exact ⟨calls, p, hr, h.delivers⟩

theorem run_delivers_three :
    ∃ calls p, (new 1).run [(2, 'b'), (3, 'c'), (1, 'a')] = .ok (calls, p) ∧
      Delivers 1 [(2, 'b'), (3, 'c'), (1, 'a')] calls :=
  run_delivers 1 [(2, 'b'), (3, 'c'), (1, 'a')] (by decide) (by decide) (by decide)

/-- The end of the window is not moved past the last number there is, so that the item with this
number is not passed on when those before it have come. -/
theorem last_number_waits :
    ¬∀ (first : SeqNo) (items : List (SeqNo × Unit)), (items.map Prod.fst).Nodup →
      (∀ item ∈ items, first ≤ item.1) →
      ∃ calls p, (new first).run items = .ok (calls, p) ∧ Delivers first items calls := by
  intro h
  obtain ⟨calls, p, hr, hd⟩ := h 0xFFFFFFFFFFFFFFFE
    [(0xFFFFFFFFFFFFFFFF, ()), (0xFFFFFFFFFFFFFFFE, ())] (by simp) (by simp)
  have hcalls : ((new 0xFFFFFFFFFFFFFFFE).run
      [(0xFFFFFFFFFFFFFFFF, ()), (0xFFFFFFFFFFFFFFFE, ())]).map Prod.fst =
      .ok [(0xFFFFFFFFFFFFFFFE, ())] := by
    simp [run, add, new, runWaiting, tryCompactify, Except.map]
  rw [hr] at hcalls
  obtain rfl : calls = [(0xFFFFFFFFFFFFFFFE, ())] := Except.ok.inj hcalls
  exact hd.gap (0xFFFFFFFFFFFFFFFF, ()) (by simp) (by simp)

end OrderedEventsProcessor

end PxcCore
