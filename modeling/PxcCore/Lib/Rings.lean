import Mathlib

/-!
# Rings of links

Doubly linked lists that lead back to where they start: two maps on the nodes, the rings that they
form, and what happens to the rings when a node is put behind another one or taken out.
-/

namespace PxcCore.Lib

universe u

/-- Where the links of each node lead. -/
structure Links (α : Type u) where
  next : α → α
  prev : α → α

namespace Links

variable {α : Type u}

/-- The links of two neighbours lead to each other. -/
def Joins (k : Links α) (a b : α) : Prop := k.next a = b ∧ k.prev b = a

/-- The links lead around these nodes, in this order. -/
structure Ring (k : Links α) (c : Cycle α) : Prop where
  nodup : c.Nodup
  chain : c.Chain k.Joins

variable {k k' : Links α} {a b x : α} {l l' : List α} {c : Cycle α}

/-! ## Chains -/

/-- Every element but the last is related to one that is not the first. -/
theorem isChain_imp {r r' : α → α → Prop} (h : List.IsChain r l)
    (hr : ∀ x ∈ l.dropLast, ∀ y ∈ l.tail, r x y → r' x y) : List.IsChain r' l := by
  induction l with
  | nil => exact .nil
  | cons a l ih =>
    cases l with
    | nil => exact .singleton a
    | cons b l =>
      obtain ⟨hab, hl⟩ := List.isChain_cons_cons.1 h
      refine List.isChain_cons_cons.2 ⟨hr a (by simp) b (by simp) hab, ih hl fun x hx y hy ↦ ?_⟩
      refine hr x ?_ y (List.mem_cons_of_mem _ hy)
      rw [List.dropLast_cons_cons]
      exact List.mem_cons_of_mem _ hx

theorem ring_cons : k.Ring (a :: l : List α) ↔
    (a :: l).Nodup ∧ List.IsChain k.Joins (a :: (l ++ [a])) :=
  ⟨fun h ↦ ⟨h.nodup, Cycle.chain_coe_cons _ _ _ |>.1 h.chain⟩,
    fun h ↦ ⟨h.1, (Cycle.chain_coe_cons _ _ _).2 h.2⟩⟩

theorem ring_singleton : k.Ring ([a] : List α) ↔ k.next a = a ∧ k.prev a = a := by
  rw [ring_cons]
  simp [Joins]

/-- A ring may be entered at any of its nodes. -/
theorem coe_append_comm (l l' : List α) :
    ((l ++ l' : List α) : Cycle α) = (l' ++ l : List α) :=
  Cycle.coe_eq_coe.2 List.isRotated_append

theorem exists_cons (h : a ∈ c) : ∃ l : List α, c = (a :: l : List α) := by
  induction c using Quotient.inductionOn' with
  | h l =>
    obtain ⟨l₁, l₂, rfl⟩ := List.append_of_mem (Cycle.mem_coe_iff.1 h)
    refine ⟨l₂ ++ l₁, ?_⟩
    exact coe_append_comm l₁ (a :: l₂)

/-- Links of other nodes do not matter. -/
theorem Ring.congr (h : k.Ring c) (hnext : ∀ a ∈ c, k'.next a = k.next a)
    (hprev : ∀ a ∈ c, k'.prev a = k.prev a) : k'.Ring c := by
  induction c using Cycle.induction_on with
  | nil => exact ⟨h.nodup, trivial⟩
  | cons a l =>
    rw [ring_cons] at h ⊢
    refine ⟨h.1, List.IsChain.imp_of_mem_imp (fun x y hx hy hxy ↦ ?_) h.2⟩
    have hmem {z : α} (hz : z ∈ a :: (l ++ [a])) : z ∈ ((a :: l : List α) : Cycle α) := by
      simpa [or_comm, or_assoc] using hz
    rw [Joins, hnext x (hmem hx), hprev y (hmem hy)]
    exact hxy

/-- The last node leads to the first one. -/
theorem Ring.joins_last {m : List α} {p : α} (h : k.Ring (a :: l : List α))
    (hm : a :: l = m ++ [p]) : k.Joins p a := by
  have hchain := (ring_cons.1 h).2
  rw [← List.cons_append, hm, List.append_assoc] at hchain
  exact List.isChain_pair.1 hchain.right_of_append

/-- A node has neighbours in its ring. -/
theorem Ring.joins (h : k.Ring c) (ha : a ∈ c) :
    k.next a ∈ c ∧ k.Joins a (k.next a) ∧ k.prev a ∈ c ∧ k.Joins (k.prev a) a := by
  obtain ⟨l, rfl⟩ := exists_cons ha
  have hchain := (ring_cons.1 h).2
  cases l using List.reverseRecOn with
  | nil =>
    obtain ⟨hnext, hprev⟩ := ring_singleton.1 h
    rw [hnext, hprev]
    exact ⟨ha, ⟨hnext, hprev⟩, ha, hnext, hprev⟩
  | append_singleton l p =>
    have hlast : k.Joins p a := h.joins_last (List.cons_append ..).symm
    have hfirst : ∃ b, b ∈ ((a :: (l ++ [p]) : List α) : Cycle α) ∧ k.Joins a b := by
      cases l with
      | nil => exact ⟨p, by simp, (List.isChain_cons_cons.1 hchain).1⟩
      | cons b l => exact ⟨b, by simp, (List.isChain_cons_cons.1 hchain).1⟩
    obtain ⟨b, hb, hjoins⟩ := hfirst
    rw [hjoins.1, hlast.2]
    exact ⟨hb, hjoins, by simp, hlast⟩

theorem Ring.eq_of_isChain {e : α} (h : List.IsChain k.Joins (a :: (l ++ [e])))
    (h' : List.IsChain k.Joins (a :: (l' ++ [e]))) (he : e ∉ l) (he' : e ∉ l') : l = l' := by
  induction l generalizing a l' with
  | nil =>
    cases l' with
    | nil => rfl
    | cons b l' =>
      have hab := (List.isChain_cons_cons.1 h).1.1
      have hae := (List.isChain_cons_cons.1 h').1.1
      simp [← hab, hae] at he'
  | cons b l ih =>
    obtain ⟨hab, hl⟩ := List.isChain_cons_cons.1 h
    cases l' with
    | nil =>
      have hae := (List.isChain_cons_cons.1 h').1.1
      simp [← hae, hab.1] at he
    | cons b' l' =>
      obtain ⟨hab', hl'⟩ := List.isChain_cons_cons.1 h'
      obtain rfl : b = b' := hab.1.symm.trans hab'.1
      rw [ih hl hl' (fun h ↦ he (List.mem_cons_of_mem _ h))
        fun h ↦ he' (List.mem_cons_of_mem _ h)]

/-- The nodes behind a node are determined by the links. -/
theorem Ring.unique (h : k.Ring (a :: l : List α)) (h' : k.Ring (a :: l' : List α)) : l = l' := by
  rw [ring_cons] at h h'
  exact eq_of_isChain h.2 h'.2 (List.nodup_cons.1 h.1).1 (List.nodup_cons.1 h'.1).1

/-! ## Changing links -/

section Change

variable [DecidableEq α]

/-- `a` comes before `b`. -/
def connect (k : Links α) (a b : α) : Links α where
  next := Function.update k.next a b
  prev := Function.update k.prev b a

/-- The node is alone. -/
def clear (k : Links α) (a : α) : Links α where
  next := Function.update k.next a a
  prev := Function.update k.prev a a

/-- `x` is put behind `a`. -/
def link (k : Links α) (a x : α) : Links α := (k.connect x (k.next a)).connect a x

/-- `x` is taken out of its ring. -/
def unlink (k : Links α) (x : α) : Links α := (k.connect (k.prev x) (k.next x)).clear x

theorem connect_of_joins (h : k.Joins a b) : k.connect a b = k := by
  obtain ⟨hnext, hprev⟩ := h
  cases k
  simp only [connect, mk.injEq, Function.update_eq_self_iff]
  exact ⟨hnext.symm, hprev.symm⟩

theorem ring_clear (k : Links α) (a : α) : (k.clear a).Ring ([a] : List α) :=
  ring_singleton.2 ⟨Function.update_self .., Function.update_self ..⟩

theorem ring_link (h : k.Ring (a :: l : List α)) (hx : x ∉ a :: l) :
    (k.link a x).Ring (a :: x :: l : List α) := by
  obtain ⟨hnodup, hchain⟩ := ring_cons.1 h
  rw [List.mem_cons, not_or] at hx
  refine ring_cons.2 ⟨?_, ?_⟩
  · rw [List.nodup_cons] at hnodup
    simp [hnodup, hx, Ne.symm hx.1]
  · obtain ⟨n, rest, hl⟩ := List.exists_cons_of_ne_nil (l := l ++ [a]) (by simp)
    have hnodup' : (n :: rest).Nodup := by
      rw [← hl]
      exact (List.perm_append_singleton a l).nodup_iff.2 hnodup
    have hlast : l = (n :: rest).dropLast := by rw [← hl, List.dropLast_concat]
    rw [hl] at hchain
    obtain ⟨⟨hnext, -⟩, hrest⟩ := List.isChain_cons_cons.1 hchain
    have hne {z : α} (hz : z ∈ n :: rest) : z ≠ x := by
      rintro rfl
      simp [← hl, hx] at hz
    rw [List.cons_append, hl]
    refine List.isChain_cons_cons.2 ⟨?_, List.isChain_cons_cons.2 ⟨?_, ?_⟩⟩
    · simp [Joins, link, connect]
    · simp [Joins, link, connect, hx.1, hnext, hne List.mem_cons_self]
    · refine isChain_imp hrest fun y hy z hz hyz ↦ ?_
      have hya : y ≠ a := by
        rintro rfl
        exact (List.nodup_cons.1 hnodup).1 (hlast ▸ hy)
      have hyx : y ≠ x := hne (List.mem_of_mem_dropLast hy)
      have hzn : z ≠ n := ne_of_mem_of_not_mem hz (List.nodup_cons.1 hnodup').1
      have hzx : z ≠ x := hne (List.mem_cons_of_mem _ hz)
      simpa [Joins, link, connect, hnext, hya, hyx, hzn, hzx] using hyz

theorem ring_unlink (h : k.Ring (x :: l : List α)) (hl : l ≠ []) : (k.unlink x).Ring l := by
  obtain ⟨hnodup, hchain⟩ := ring_cons.1 h
  obtain ⟨b, m, rfl⟩ := List.exists_cons_of_ne_nil hl
  obtain ⟨q, p, hq⟩ : ∃ q p, b :: m = q ++ [p] :=
    ⟨_, _, (List.dropLast_append_getLast hl).symm⟩
  rw [List.nodup_cons] at hnodup
  obtain ⟨hx, hnodup⟩ := hnodup
  obtain ⟨⟨hnext, -⟩, hrest⟩ := List.isChain_cons_cons.1 hchain
  change List.IsChain k.Joins ((b :: m) ++ [x]) at hrest
  rw [hq, List.append_assoc] at hrest
  obtain ⟨hchain', hlast⟩ := List.isChain_split.1 hrest
  obtain ⟨-, hprev⟩ := List.isChain_pair.1 hlast
  rw [← hq] at hchain'
  have hp : p ∈ b :: m := by simp [hq]
  have hne {z : α} (hz : z ∈ b :: m) : z ≠ x := ne_of_mem_of_not_mem hz hx
  refine ring_cons.2 ⟨hnodup, ?_⟩
  rw [← List.cons_append, hq, List.append_assoc]
  refine List.isChain_split.2 ⟨hq ▸ isChain_imp hchain' fun y hy z hz hyz ↦ ?_,
    List.isChain_pair.2 ?_⟩
  · have hyp : y ≠ p := by
      rw [hq, List.dropLast_concat] at hy
      rw [hq] at hnodup
      exact (List.nodup_append.1 hnodup).2.2 y hy p (by simp)
    have hyx : y ≠ x := hne (List.mem_of_mem_dropLast hy)
    have hzb : z ≠ b := ne_of_mem_of_not_mem hz (List.nodup_cons.1 hnodup).1
    have hzx : z ≠ x := hne (List.mem_cons_of_mem _ hz)
    simpa [Joins, unlink, connect, clear, hnext, hprev, hyp, hyx, hzb, hzx] using hyz
  · simp [Joins, unlink, connect, clear, hnext, hprev, hne hp, hne List.mem_cons_self]

theorem link_next (k : Links α) (hba : b ≠ a) (hbx : b ≠ x) : (k.link a x).next b = k.next b := by
  simp [link, connect, hba, hbx]

theorem link_prev (k : Links α) (hb : b ≠ k.next a) (hbx : b ≠ x) :
    (k.link a x).prev b = k.prev b := by
  simp [link, connect, hb, hbx]

theorem unlink_next (k : Links α) (hb : b ≠ k.prev x) (hbx : b ≠ x) :
    (k.unlink x).next b = k.next b := by
  simp [unlink, connect, clear, hb, hbx]

theorem unlink_prev (k : Links α) (hb : b ≠ k.next x) (hbx : b ≠ x) :
    (k.unlink x).prev b = k.prev b := by
  simp [unlink, connect, clear, hb, hbx]

end Change

/-! ## The rings of all nodes -/

/-- The links form these rings: each node is in one ring, or is no node. -/
structure Forms (k : Links α) (rings : α → Option (Cycle α)) : Prop where
  mem : ∀ {a c}, rings a = some c → a ∈ c
  ring : ∀ {a c}, rings a = some c → k.Ring c
  eq : ∀ {a b c}, rings a = some c → b ∈ c → rings b = some c

variable {rings rings' : α → Option (Cycle α)}

/-- Links and rings change inside of a set of rings only. -/
theorem Forms.of_frame (h : k.Forms rings) {T : Set α}
    (hclosed : ∀ a ∈ T, ∀ c, rings a = some c → ∀ b ∈ c, b ∈ T)
    (hnext : ∀ a ∉ T, k'.next a = k.next a) (hprev : ∀ a ∉ T, k'.prev a = k.prev a)
    (hout : ∀ a ∉ T, rings' a = rings a)
    (hin : ∀ a ∈ T, ∀ c, rings' a = some c → a ∈ c ∧ k'.Ring c ∧ ∀ b ∈ c, rings' b = some c) :
    k'.Forms rings' := by
  have hother {a : α} (ha : a ∉ T) {c : Cycle α} (hc : rings a = some c) : ∀ b ∈ c, b ∉ T :=
    fun b hb hbT ↦ ha (hclosed b hbT c (h.eq hc hb) a (h.mem hc))
  constructor
  all_goals
    intro a
    by_cases ha : a ∈ T
  · exact fun hc ↦ (hin a ha _ hc).1
  · rw [hout a ha]
    exact h.mem
  · exact fun hc ↦ (hin a ha _ hc).2.1
  · rw [hout a ha]
    exact fun hc ↦ (h.ring hc).congr (fun b hb ↦ hnext b (hother ha hc b hb))
      fun b hb ↦ hprev b (hother ha hc b hb)
  · exact fun hc hb ↦ (hin a ha _ hc).2.2 _ hb
  · intro hc hb
    rw [hout a ha] at hc
    rw [hout _ (hother ha hc _ hb)]
    exact h.eq hc hb

/-- A node that is new or alone is in no ring of another one. -/
theorem Forms.notMem (h : k.Forms rings) (hx : ∀ c, rings x = some c → c = ([x] : List α))
    (ha : rings a = some c) (hne : x ≠ a) : x ∉ c := by
  intro hmem
  have hac := h.mem ha
  rw [hx c (h.eq ha hmem)] at hac
  simp [hne.symm] at hac

section Change

variable [DecidableEq α]

/-- These nodes form a ring. -/
def setRing (rings : α → Option (Cycle α)) (l : List α) : α → Option (Cycle α) :=
  fun a ↦ if a ∈ l then some l else rings a

theorem setRing_of_mem (h : a ∈ l) : setRing rings l a = some (l : Cycle α) := if_pos h

theorem setRing_of_notMem (h : a ∉ l) : setRing rings l a = rings a := if_neg h

theorem setRing_congr (h : (l : Cycle α) = l') : setRing rings l = setRing rings l' := by
  funext a
  have hmem : a ∈ l ↔ a ∈ l' := by rw [← Cycle.mem_coe_iff, h, Cycle.mem_coe_iff]
  simp only [setRing, hmem, h]

theorem setRing_self (h : rings a = some ↑[a]) : setRing rings [a] = rings := by
  funext b
  by_cases hb : b = a
  · rw [hb, h, setRing_of_mem (by simp)]
  · exact setRing_of_notMem (by simpa using hb)

/-- A new node is alone. -/
theorem Forms.clear (h : k.Forms rings) (ha : rings a = none) :
    (k.clear a).Forms (setRing rings [a]) := by
  refine h.of_frame (T := {a}) ?_ ?_ ?_ ?_ ?_
  · rintro b rfl c hc
    simp [ha] at hc
  · intro b hb
    exact Function.update_of_ne hb _ _
  · intro b hb
    exact Function.update_of_ne hb _ _
  · intro b hb
    exact setRing_of_notMem (by simpa using hb)
  · rintro b rfl c hc
    obtain rfl := Option.some.inj ((setRing_of_mem (by simp)).symm.trans hc)
    exact ⟨by simp, ring_clear k b, fun d hd ↦ setRing_of_mem (by simpa using hd)⟩

/-- A node that is alone goes. -/
theorem Forms.forget (h : k.Forms rings) (ha : rings a = some ↑[a]) :
    k.Forms (Function.update rings a none) := by
  refine h.of_frame (T := {a}) ?_ (fun _ _ ↦ rfl) (fun _ _ ↦ rfl)
    (fun b hb ↦ Function.update_of_ne hb _ _) ?_
  · rintro b rfl c hc b hb
    obtain rfl := Option.some.inj (ha.symm.trans hc)
    simpa using hb
  · rintro b rfl c hc
    simp at hc

/-- A node that is new or alone is put behind another one. -/
theorem Forms.link (h : k.Forms rings) (ha : rings a = some ↑(a :: l))
    (hx : ∀ c, rings x = some c → c = ([x] : List α)) (hne : x ≠ a) :
    (k.link a x).Forms (setRing rings (a :: x :: l)) := by
  have hmem : x ∉ a :: l := Cycle.mem_coe_iff.not.1 (h.notMem hx ha hne)
  have hnext := ((h.ring ha).joins (h.mem ha)).1
  rw [Cycle.mem_coe_iff] at hnext
  have hof {b : α} (hb : b ∈ a :: l) : b ∈ a :: x :: l := by
    rcases List.mem_cons.1 hb with rfl | hb
    · exact List.mem_cons_self
    · exact List.mem_cons_of_mem _ (List.mem_cons_of_mem _ hb)
  refine h.of_frame (T := {b | b ∈ a :: x :: l}) ?_ (fun b hb ↦ ?_) (fun b hb ↦ ?_)
    (fun b hb ↦ setRing_of_notMem hb) ?_
  · intro b hb c hc d hd
    by_cases hbx : b = x
    · rw [hx c (hbx ▸ hc)] at hd
      obtain rfl : d = x := by simpa using hd
      simp
    · have hbl : b ∈ a :: l := by simpa [hbx] using hb
      obtain rfl := Option.some.inj ((h.eq ha (Cycle.mem_coe_iff.2 hbl)).symm.trans hc)
      exact hof (Cycle.mem_coe_iff.1 hd)
  · exact link_next k (ne_of_mem_of_not_mem List.mem_cons_self hb).symm
      (ne_of_mem_of_not_mem (by simp) hb).symm
  · exact link_prev k (ne_of_mem_of_not_mem (hof hnext) hb).symm
      (ne_of_mem_of_not_mem (by simp) hb).symm
  · intro b hb c hc
    obtain rfl := Option.some.inj ((setRing_of_mem hb).symm.trans hc)
    exact ⟨Cycle.mem_coe_iff.2 hb, ring_link (h.ring ha) hmem,
      fun d hd ↦ setRing_of_mem (Cycle.mem_coe_iff.1 hd)⟩

/-- A node is taken out of its ring. -/
theorem Forms.unlink (h : k.Forms rings) (hx : rings x = some ↑(x :: l)) :
    (k.unlink x).Forms (setRing (setRing rings l) [x]) := by
  have hring := h.ring hx
  obtain ⟨hnext, -, hprev, -⟩ := hring.joins (h.mem hx)
  rw [Cycle.mem_coe_iff] at hnext hprev
  have hxl : x ∉ l := (List.nodup_cons.1 (ring_cons.1 hring).1).1
  refine h.of_frame (T := {b | b ∈ x :: l}) ?_ (fun b hb ↦ ?_) (fun b hb ↦ ?_) (fun b hb ↦ ?_) ?_
  · intro b hb c hc d hd
    obtain rfl := Option.some.inj ((h.eq hx (Cycle.mem_coe_iff.2 hb)).symm.trans hc)
    exact Cycle.mem_coe_iff.1 hd
  · exact unlink_next k (ne_of_mem_of_not_mem hprev hb).symm
      (ne_of_mem_of_not_mem List.mem_cons_self hb).symm
  · exact unlink_prev k (ne_of_mem_of_not_mem hnext hb).symm
      (ne_of_mem_of_not_mem List.mem_cons_self hb).symm
  · have hb' : b ∉ x :: l := hb
    rw [List.mem_cons, not_or] at hb'
    rw [setRing_of_notMem (by simp [hb'.1]), setRing_of_notMem hb'.2]
  · intro b hb c hc
    rcases List.mem_cons.1 hb with rfl | hbl
    · obtain rfl := Option.some.inj ((setRing_of_mem (by simp)).symm.trans hc)
      exact ⟨by simp, ring_clear _ b, fun d hd ↦ setRing_of_mem (by simpa using hd)⟩
    · have hother {d : α} (hd : d ∈ l) : setRing (setRing rings l) [x] d = some (l : Cycle α) := by
        rw [setRing_of_notMem (by simpa using ne_of_mem_of_not_mem hd hxl), setRing_of_mem hd]
      obtain rfl := Option.some.inj ((hother hbl).symm.trans hc)
      exact ⟨Cycle.mem_coe_iff.2 hbl, ring_unlink hring (List.ne_nil_of_mem hbl),
        fun d hd ↦ hother (Cycle.mem_coe_iff.1 hd)⟩

end Change

end Links

end PxcCore.Lib
