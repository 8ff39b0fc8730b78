import PxcCore.Lib.Rings

/-!
# ListNode

`List.h`: nodes of circular doubly linked lists.  A list is known by its head, which is a node as
the others are.

A node is known by its address.  `connect` and `clear` of a node are those of its links, and the
links at an address without a node may lead anywhere.
-/

namespace PxcCore

open Lib

namespace ListNode

variable {α : Type} [DecidableEq α]

/-! ## Definitions -/

/-- `remove` -/
def remove (k : Links α) (this : α) : Links α := (k.connect (k.prev this) (k.next this)).clear this

/-- `put_unsafe` -/
def putUnsafe (k : Links α) (this other : α) : Links α :=
  (k.connect other (k.next this)).connect this other

/-- `put` -/
def put (k : Links α) (this other : α) : Links α := putUnsafe k this other

/-- `put_back` -/
def putBack (k : Links α) (this other : α) : Links α :=
  (k.connect (k.prev this) other).connect other this

/-- `get` -/
def get (k : Links α) (this : α) : Option α × Links α :=
  let result := k.prev this
  if result = this then (none, k)
  else (some result, (k.connect (k.prev result) this).clear result)

/-- `empty` -/
def empty (k : Links α) (this : α) : Bool := k.next this = this

/-- `init_from` -/
def initFrom (k : Links α) (this other : α) : Links α :=
  let head := k.prev other
  putUnsafe (remove k other) head this

/-- The constructor that moves another node. -/
def moveConstruct (k : Links α) (this other : α) : Links α :=
  if empty k other then k.clear this else initFrom k this other

/-- `operator=` -/
def moveAssign (k : Links α) (this other : α) : Links α :=
  if this = other then k
  else
    let k := remove k this
    if !empty k other then initFrom k this other else k

/-! ## Rings of nodes -/

variable {k : Links α} {rings : α → Option (Cycle α)} {a b h x : α} {l : List α}

open Links (setRing setRing_of_mem setRing_of_notMem setRing_congr)

/-- A node without a neighbour is alone. -/
theorem empty_iff (hk : k.Forms rings) (ha : rings a = some ↑(a :: l)) :
    empty k a ↔ l = [] := by
  obtain ⟨hnodup, hchain⟩ := Links.ring_cons.1 (hk.ring ha)
  cases l with
  | nil => simpa [empty] using (List.isChain_cons_cons.1 hchain).1.1
  | cons b l =>
    have hab : a ≠ b := by
      rintro rfl
      simp at hnodup
    simpa [empty, (List.isChain_cons_cons.1 hchain).1.1] using hab.symm

theorem put_self (hk : k.Forms rings) (hh : rings h = some ↑[h]) : put k h h = k := by
  have hjoins : k.Joins h h := Links.ring_singleton.1 (hk.ring hh)
  rw [put, putUnsafe, hjoins.1, Links.connect_of_joins hjoins, Links.connect_of_joins hjoins]

theorem putBack_self (hk : k.Forms rings) (hh : rings h = some ↑[h]) : putBack k h h = k := by
  have hjoins : k.Joins h h := Links.ring_singleton.1 (hk.ring hh)
  rw [putBack, hjoins.2, Links.connect_of_joins hjoins, Links.connect_of_joins hjoins]

theorem putBack_forms (hk : k.Forms rings) (hx : rings x = some ↑[x])
    (hh : rings h = some ↑(h :: l)) (hne : x ≠ h) :
    (putBack k h x).Forms (setRing rings (h :: (l ++ [x]))) := by
  have hx' : ∀ c, rings x = some c → c = ([x] : List α) :=
    fun c hc ↦ Option.some.inj (hc.symm.trans hx)
  have hxc : x ∉ h :: l := Cycle.mem_coe_iff.not.1 (hk.notMem hx' hh hne)
  -- the last node, which is the head itself if there is no other one
  obtain ⟨m, p, hm⟩ : ∃ m p, h :: l = m ++ [p] :=
    ⟨_, _, (List.dropLast_append_getLast (List.cons_ne_nil h l)).symm⟩
  obtain ⟨hnext, hprev⟩ := (hk.ring hh).joins_last hm
  rw [← List.cons_append]
  rw [hm] at hh hxc ⊢
  have hxp : x ≠ p := (ne_of_mem_of_not_mem (by simp) hxc).symm
  have hp : rings p = some ↑(p :: m) := by
    rw [hk.eq hh (by simp)]
    exact congrArg some (Links.coe_append_comm m [p])
  have hlink : putBack k h x = k.link p x := by
    simp only [putBack, Links.link, Links.connect, hnext, hprev]
    rw [Function.update_comm hxp, Function.update_comm hne]
  have hrot : ((m ++ [p] ++ [x] : List α) : Cycle α) = (p :: x :: m : List α) := by
    rw [List.append_assoc]
    exact Links.coe_append_comm m [p, x]
  rw [hlink, setRing_congr hrot]
  exact hk.link hp hx' hxp

theorem get_eq_unlink (hk : k.Forms rings) (hh : rings h = some ↑(h :: (l ++ [x]))) :
    get k h = (some x, k.unlink x) := by
  obtain ⟨hnext, hprev⟩ := (hk.ring hh).joins_last (List.cons_append ..).symm
  have hxh : x ≠ h := by
    rintro rfl
    simpa using (hk.ring hh).nodup
  simp [get, hprev, hxh, Links.unlink, hnext]

theorem get_alone (hk : k.Forms rings) (hh : rings h = some ↑[h]) :
    get k h = (none, k) := by
  simp [get, (Links.ring_singleton.1 (hk.ring hh)).2]

/-- The place of a node goes over to another one. -/
theorem initFrom_forms (hk : k.Forms rings) (hb : rings b = some ↑(b :: l)) (hl : l ≠ [])
    (ha : ∀ c, rings a = some c → c = ([a] : List α)) (hab : a ≠ b) :
    (initFrom k a b).Forms (setRing (setRing rings (a :: l)) [b]) := by
  obtain ⟨m, p, rfl⟩ : ∃ m p, l = m ++ [p] := ⟨_, _, (List.dropLast_append_getLast hl).symm⟩
  obtain ⟨-, hprev⟩ := (hk.ring hb).joins_last (List.cons_append ..).symm
  have hbl : b ∉ m ++ [p] := (List.nodup_cons.1 (hk.ring hb).nodup).1
  have hal : a ∉ m ++ [p] := fun h ↦ hk.notMem ha hb hab (List.mem_cons_of_mem _ h)
  have hun := hk.unlink hb
  have hp : setRing (setRing rings (m ++ [p])) [b] p = some ↑(p :: m) := by
    have hpb : p ≠ b := ne_of_mem_of_not_mem (by simp) hbl
    rw [setRing_of_notMem (by simpa using hpb), setRing_of_mem (by simp)]
    exact congrArg some (Links.coe_append_comm m [p])
  have hap : a ≠ p := (ne_of_mem_of_not_mem (by simp) hal).symm
  have hlink := hun.link hp (x := a) (fun c hc ↦ ?_) hap
  · convert hlink using 1
    · simp only [initFrom, hprev]
      rfl
    · funext d
      have hrot : ((p :: a :: m : List α) : Cycle α) = (a :: (m ++ [p]) : List α) :=
        Links.coe_append_comm [p] (a :: m)
      rw [setRing_congr hrot]
      by_cases hdb : d = b
      · subst hdb
        rw [setRing_of_mem (by simp), setRing_of_notMem (by simpa [hab.symm] using hbl),
          setRing_of_mem (by simp)]
      · rw [setRing_of_notMem (by simpa using hdb)]
        by_cases hd : d ∈ a :: (m ++ [p])
        · rw [setRing_of_mem hd, setRing_of_mem hd]
        · rw [setRing_of_notMem hd, setRing_of_notMem hd, setRing_of_notMem (by simpa using hdb),
            setRing_of_notMem (fun h ↦ hd (List.mem_cons_of_mem _ h))]
  · rw [setRing_of_notMem (by simpa using hab), setRing_of_notMem hal] at hc
    exact ha c hc

theorem moveConstruct_forms (hk : k.Forms rings) (ha : rings a = none)
    (hb : rings b = some ↑(b :: l)) :
    (moveConstruct k a b).Forms (setRing (setRing rings (a :: l)) [b]) := by
  have hab : a ≠ b := by
    rintro rfl
    simp [ha] at hb
  by_cases hl : l = []
  · subst hl
    rw [Links.setRing_self (by rwa [setRing_of_notMem (by simpa using hab.symm)]), moveConstruct,
      if_pos ((empty_iff hk hb).2 rfl)]
    exact hk.clear ha
  · rw [moveConstruct, if_neg ((empty_iff hk hb).not.2 hl)]
    exact initFrom_forms hk hb hl (by simp [ha]) hab

/-- A node that is alone takes over the place of another one. -/
theorem moveAssign_forms (hk : k.Forms rings) (ha : rings a = some ↑[a])
    (hb : rings b = some ↑(b :: l)) (hab : a ≠ b) :
    (if !empty k b then initFrom k a b else k).Forms (setRing (setRing rings (a :: l)) [b]) := by
  by_cases hl : l = []
  · subst hl
    rw [Links.setRing_self ha, Links.setRing_self hb,
      if_neg (by simpa using (empty_iff hk hb).2 rfl)]
    exact hk
  · rw [if_pos (by simpa using (empty_iff hk hb).not.2 hl)]
    exact initFrom_forms hk hb hl (fun c hc ↦ Option.some.inj (hc.symm.trans ha)) hab

end ListNode

/-- The links at all addresses, and where there are nodes. -/
structure ListNodes (α : Type) where
  links : Links α
  live : α → Bool := fun _ ↦ false

namespace ListNodes

/-- What is done with nodes. -/
inductive Op (α : Type) where
  | construct (this : α)
  | moveConstruct (this other : α)
  | destroy (this : α)
  | moveAssign (this other : α)
  | put (this other : α)
  | putBack (this other : α)
  | get (this : α)
  | remove (this : α)

variable {α : Type} [DecidableEq α]

/-- One operation, with what it returns, if it is one on nodes that are there and a node that is put
into a list is in no other one. -/
def step (st : ListNodes α) : Op α → Option (Option α × ListNodes α)
  | .construct this =>
    if st.live this then none
    else some (none, ⟨st.links.clear this, Function.update st.live this true⟩)
  | .moveConstruct this other =>
    if !st.live this ∧ st.live other then
      some (none, ⟨ListNode.moveConstruct st.links this other, Function.update st.live this true⟩)
    else none
  | .destroy this =>
    if st.live this then
      some (none, ⟨ListNode.remove st.links this, Function.update st.live this false⟩)
    else none
  | .moveAssign this other =>
    if st.live this ∧ st.live other then
      some (none, { st with links := ListNode.moveAssign st.links this other })
    else none
  | .put this other =>
    if st.live this ∧ st.live other ∧ ListNode.empty st.links other then
      some (none, { st with links := ListNode.put st.links this other })
    else none
  | .putBack this other =>
    if st.live this ∧ st.live other ∧ ListNode.empty st.links other then
      some (none, { st with links := ListNode.putBack st.links this other })
    else none
  | .get this =>
    if st.live this then
      let (result, links) := ListNode.get st.links this
      some (result, { st with links := links })
    else none
  | .remove this =>
    if st.live this then some (none, { st with links := ListNode.remove st.links this }) else none

/-- Operations one after another, with what they return. -/
def run (st : ListNodes α) : List (Op α) → Option (List (Option α) × ListNodes α)
  | [] => some ([], st)
  | op :: ops => do
    let (out, st) ← st.step op
    let (outs, st) ← st.run ops
    return (out :: outs, st)

/-! ## Lists -/

/-- The ring that each node is in. -/
abbrev Rings (α : Type) := α → Option (Cycle α)

open Links (setRing)

/-- What an operation does to the lists.  A head `h` with the list `l` is in the ring `h :: l`. -/
inductive Step : Rings α → Op α → Option α → Rings α → Prop where
  | construct {rings : Rings α} {a : α} : rings a = none →
    Step rings (.construct a) none (setRing rings [a])
  | moveConstruct {rings : Rings α} {a b : α} {l : List α} : rings a = none →
    rings b = some ↑(b :: l) →
    Step rings (.moveConstruct a b) none (setRing (setRing rings (a :: l)) [b])
  | destroy {rings : Rings α} {a : α} {l : List α} : rings a = some ↑(a :: l) →
    Step rings (.destroy a) none (Function.update (setRing rings l) a none)
  | moveAssign {rings rings' : Rings α} {a b : α} {l : List α} : a ≠ b →
    Step rings (.remove a) none rings' → rings' b = some ↑(b :: l) →
    Step rings (.moveAssign a b) none (setRing (setRing rings' (a :: l)) [b])
  | moveAssignSelf {rings : Rings α} {a : α} : rings a ≠ none →
    Step rings (.moveAssign a a) none rings
  | put {rings : Rings α} {h x : α} {l : List α} : x ≠ h → rings x = some ↑[x] →
    rings h = some ↑(h :: l) → Step rings (.put h x) none (setRing rings (h :: x :: l))
  | putSelf {rings : Rings α} {h : α} : rings h = some ↑[h] →
    Step rings (.put h h) none rings
  | putBack {rings : Rings α} {h x : α} {l : List α} : x ≠ h → rings x = some ↑[x] →
    rings h = some ↑(h :: l) →
    Step rings (.putBack h x) none (setRing rings (h :: (l ++ [x])))
  | putBackSelf {rings : Rings α} {h : α} : rings h = some ↑[h] →
    Step rings (.putBack h h) none rings
  | getNone {rings : Rings α} {h : α} : rings h = some ↑[h] →
    Step rings (.get h) none rings
  | get {rings : Rings α} {h x : α} {l : List α} : rings h = some ↑(h :: (l ++ [x])) →
    Step rings (.get h) (some x) (setRing (setRing rings (h :: l)) [x])
  | remove {rings : Rings α} {x : α} {l : List α} : rings x = some ↑(x :: l) →
    Step rings (.remove x) none (setRing (setRing rings l) [x])

/-- The nodes form these lists. -/
structure Shows (st : ListNodes α) (rings : Rings α) : Prop where
  forms : st.links.Forms rings
  live : ∀ a, st.live a = (rings a).isSome

variable {st st' : ListNodes α} {rings : Rings α} {a b h x : α} {l : List α}
  {out : Option α}

omit [DecidableEq α] in
theorem Shows.exists_ring (hs : Shows st rings) (ha : st.live a) :
    ∃ l : List α, rings a = some ↑(a :: l) := by
  rw [hs.live] at ha
  obtain ⟨c, hc⟩ := Option.isSome_iff_exists.1 ha
  obtain ⟨l, rfl⟩ := Links.exists_cons (hs.forms.mem hc)
  exact ⟨l, hc⟩

theorem Shows.alone (hs : Shows st rings) (ha : st.live a) (he : ListNode.empty st.links a) :
    rings a = some ↑[a] := by
  obtain ⟨l, hl⟩ := hs.exists_ring ha
  obtain rfl := (ListNode.empty_iff hs.forms hl).1 he
  exact hl

omit [DecidableEq α] in
theorem Shows.eq_none (hs : Shows st rings) (ha : ¬ st.live a) : rings a = none := by
  rw [hs.live] at ha
  simpa using ha

omit [DecidableEq α] in
theorem Shows.live_of_mem (hs : Shows st rings) (ha : rings a = some ↑(a :: l)) (hb : b ∈ l) :
    st.live b := by
  rw [hs.live, hs.forms.eq ha (List.mem_cons_of_mem _ hb)]
  rfl

theorem live_setRing {live : Bool} (hlive : a ∉ l → live = (rings a).isSome) (hl : a ∈ l → live) :
    live = (setRing rings l a).isSome := by
  by_cases h : a ∈ l
  · simp [Links.setRing_of_mem h, hl h]
  · rw [Links.setRing_of_notMem h, hlive h]

/-! ## Steps -/

theorem shows_construct (hs : Shows st rings) (ha : rings a = none) :
    Shows ⟨st.links.clear a, Function.update st.live a true⟩ (setRing rings [a]) := by
  refine ⟨hs.forms.clear ha, fun b ↦ live_setRing (fun hb ↦ ?_) fun hb ↦ ?_⟩
  · exact (Function.update_of_ne (by simpa using hb) _ _).trans (hs.live b)
  · simp [List.mem_singleton.1 hb]

theorem shows_moveConstruct (hs : Shows st rings) (ha : rings a = none)
    (hb : rings b = some ↑(b :: l)) :
    Shows ⟨ListNode.moveConstruct st.links a b, Function.update st.live a true⟩
      (setRing (setRing rings (a :: l)) [b]) := by
  have hold {d : α} (hd : st.live d) : Function.update st.live a true d := by
    by_cases hda : d = a
    · simp [hda]
    · rwa [Function.update_of_ne hda]
  refine ⟨ListNode.moveConstruct_forms hs.forms ha hb, fun d ↦ live_setRing (fun _ ↦ live_setRing
    (fun hd ↦ ?_) fun hd ↦ ?_) fun hd ↦ ?_⟩
  · rw [List.mem_cons, not_or] at hd
    exact (Function.update_of_ne hd.1 _ _).trans (hs.live d)
  · rcases List.mem_cons.1 hd with rfl | hd
    · exact Function.update_self ..
    · exact hold (hs.live_of_mem hb hd)
  · rw [List.mem_singleton.1 hd]
    exact hold (by simp [hs.live, hb])

theorem shows_remove (hs : Shows st rings) (hx : rings x = some ↑(x :: l)) :
    Shows { st with links := ListNode.remove st.links x } (setRing (setRing rings l) [x]) := by
  refine ⟨hs.forms.unlink hx, fun d ↦ live_setRing (fun _ ↦ live_setRing (fun _ ↦ hs.live d)
    fun hd ↦ hs.live_of_mem hx hd) fun hd ↦ ?_⟩
  simp [List.mem_singleton.1 hd, hs.live, hx]

theorem shows_destroy (hs : Shows st rings) (hx : rings x = some ↑(x :: l)) :
    Shows ⟨ListNode.remove st.links x, Function.update st.live x false⟩
      (Function.update (setRing rings l) x none) := by
  have hremove := shows_remove hs hx
  have heq : Function.update (setRing (setRing rings l) [x]) x none =
      Function.update (setRing rings l) x none := by
    funext b
    by_cases hb : b = x
    · simp [hb]
    · rw [Function.update_of_ne hb, Function.update_of_ne hb,
        Links.setRing_of_notMem (by simpa using hb)]
  rw [← heq]
  refine ⟨hremove.forms.forget (Links.setRing_of_mem (by simp)), fun b ↦ ?_⟩
  by_cases hb : b = x
  · simp [hb]
  · rw [Function.update_of_ne hb]
    exact (Function.update_of_ne hb _ _).trans (hremove.live b)

theorem shows_moveAssign (hs : Shows st rings) (ha : rings a = some ↑[a])
    (hb : rings b = some ↑(b :: l)) (hab : a ≠ b) :
    Shows { st with links := if !ListNode.empty st.links b then ListNode.initFrom st.links a b
      else st.links } (setRing (setRing rings (a :: l)) [b]) := by
  refine ⟨ListNode.moveAssign_forms hs.forms ha hb hab, fun d ↦ live_setRing (fun _ ↦ live_setRing
    (fun _ ↦ hs.live d) fun hd ↦ ?_) fun hd ↦ ?_⟩
  · rcases List.mem_cons.1 hd with rfl | hd
    · simp [hs.live, ha]
    · exact hs.live_of_mem hb hd
  · simp [List.mem_singleton.1 hd, hs.live, hb]

theorem shows_put (hs : Shows st rings) (hx : rings x = some ↑[x]) (hh : rings h = some ↑(h :: l))
    (hne : x ≠ h) :
    Shows { st with links := ListNode.put st.links h x } (setRing rings (h :: x :: l)) := by
  refine ⟨hs.forms.link hh (fun c hc ↦ Option.some.inj (hc.symm.trans hx)) hne,
    fun d ↦ live_setRing (fun _ ↦ hs.live d) fun hd ↦ ?_⟩
  rw [List.mem_cons, List.mem_cons] at hd
  rcases hd with rfl | rfl | hd
  · simp [hs.live, hh]
  · simp [hs.live, hx]
  · exact hs.live_of_mem hh hd

theorem shows_putBack (hs : Shows st rings) (hx : rings x = some ↑[x])
    (hh : rings h = some ↑(h :: l)) (hne : x ≠ h) :
    Shows { st with links := ListNode.putBack st.links h x } (setRing rings (h :: (l ++ [x]))) := by
  refine ⟨ListNode.putBack_forms hs.forms hx hh hne,
    fun d ↦ live_setRing (fun _ ↦ hs.live d) fun hd ↦ ?_⟩
  rw [List.mem_cons, List.mem_append, List.mem_singleton] at hd
  rcases hd with rfl | hd | rfl
  · simp [hs.live, hh]
  · exact hs.live_of_mem hh hd
  · simp [hs.live, hx]

theorem shows_get (hs : Shows st rings) (hh : rings h = some ↑(h :: (l ++ [x]))) :
    ListNode.get st.links h = (some x, ListNode.remove st.links x) ∧
      Shows { st with links := ListNode.remove st.links x }
        (setRing (setRing rings (h :: l)) [x]) := by
  refine ⟨ListNode.get_eq_unlink hs.forms hh, shows_remove hs ?_⟩
  rw [hs.forms.eq hh (by simp)]
  exact congrArg some (Links.coe_append_comm (h :: l) [x])

/-- What an operation does to the nodes is what it does to the lists. -/
theorem step_shows (hs : Shows st rings) {op : Op α} (hstep : st.step op = some (out, st')) :
    ∃ rings', Step rings op out rings' ∧ Shows st' rings' := by
  cases op
  all_goals simp only [step, Option.ite_none_left_eq_some, Option.ite_none_right_eq_some,
    Option.some.injEq, Prod.mk.injEq] at hstep
  case construct a =>
    obtain ⟨ha, rfl, rfl⟩ := hstep
    exact ⟨_, .construct (hs.eq_none ha), shows_construct hs (hs.eq_none ha)⟩
  case moveConstruct a b =>
    obtain ⟨⟨ha, hb⟩, rfl, rfl⟩ := hstep
    have ha := hs.eq_none (by simpa using ha)
    obtain ⟨l, hb⟩ := hs.exists_ring hb
    exact ⟨_, .moveConstruct ha hb, shows_moveConstruct hs ha hb⟩
  case destroy a =>
    obtain ⟨ha, rfl, rfl⟩ := hstep
    obtain ⟨l, ha⟩ := hs.exists_ring ha
    exact ⟨_, .destroy ha, shows_destroy hs ha⟩
  case moveAssign a b =>
    obtain ⟨⟨ha, hb⟩, rfl, rfl⟩ := hstep
    obtain ⟨l, ha⟩ := hs.exists_ring ha
    by_cases hab : a = b
    · subst hab
      rw [ListNode.moveAssign, if_pos rfl]
      exact ⟨rings, .moveAssignSelf (by simp [ha]), hs⟩
    · have hremove := shows_remove hs ha
      obtain ⟨m, hb⟩ := hremove.exists_ring hb
      rw [ListNode.moveAssign, if_neg hab]
      exact ⟨_, .moveAssign hab (.remove ha) hb,
        shows_moveAssign hremove (Links.setRing_of_mem (by simp)) hb hab⟩
  case put h x =>
    obtain ⟨⟨hh, hx, hempty⟩, rfl, rfl⟩ := hstep
    have hx := hs.alone hx hempty
    obtain ⟨l, hh⟩ := hs.exists_ring hh
    by_cases hne : x = h
    · subst hne
      rw [ListNode.put_self hs.forms hx]
      exact ⟨rings, .putSelf hx, hs⟩
    · exact ⟨_, .put hne hx hh, shows_put hs hx hh hne⟩
  case putBack h x =>
    obtain ⟨⟨hh, hx, hempty⟩, rfl, rfl⟩ := hstep
    have hx := hs.alone hx hempty
    obtain ⟨l, hh⟩ := hs.exists_ring hh
    by_cases hne : x = h
    · subst hne
      rw [ListNode.putBack_self hs.forms hx]
      exact ⟨rings, .putBackSelf hx, hs⟩
    · exact ⟨_, .putBack hne hx hh, shows_putBack hs hx hh hne⟩
  case get h =>
    obtain ⟨hh, rfl, rfl⟩ := hstep
    obtain ⟨l, hh⟩ := hs.exists_ring hh
    cases l using List.reverseRecOn with
    | nil =>
      rw [ListNode.get_alone hs.forms hh]
      exact ⟨rings, .getNone hh, hs⟩
    | append_singleton l x =>
      obtain ⟨hget, hshows⟩ := shows_get hs hh
      rw [hget]
      exact ⟨_, .get hh, hshows⟩
  case remove x =>
    obtain ⟨hx, rfl, rfl⟩ := hstep
    obtain ⟨l, hx⟩ := hs.exists_ring hx
    exact ⟨_, .remove hx, shows_remove hs hx⟩

/-! ## Runs -/

/-- What operations one after another do to the lists, with what they return. -/
inductive Steps : Rings α → List (Op α) → List (Option α) → Rings α → Prop where
  | nil {rings : Rings α} : Steps rings [] [] rings
  | cons {rings rings' rings'' : Rings α} {op : Op α} {out : Option α} {ops : List (Op α)}
    {outs : List (Option α)} : Step rings op out rings' → Steps rings' ops outs rings'' →
    Steps rings (op :: ops) (out :: outs) rings''

/-- `begin()` and `get_next()` lead from the head over these nodes, and back to it. -/
def Lists (st : ListNodes α) (h : α) (l : List α) : Prop := st.links.Ring (h :: l : List α)

/-- A head is used as a queue, with the nodes that are put and the nodes that are got: what else is
done leaves its list as it is. -/
inductive QueueRun (h : α) : ListNodes α → List α → List α → ListNodes α → Prop where
  | nil {st : ListNodes α} : QueueRun h st [] [] st
  | put {st st' st'' : ListNodes α} {x : α} {out : Option α} {puts gets : List α} :
    st.step (.put h x) = some (out, st') → x ≠ h → QueueRun h st' puts gets st'' →
    QueueRun h st (x :: puts) gets st''
  | get {st st' st'' : ListNodes α} {x : α} {puts gets : List α} :
    st.step (.get h) = some (some x, st') → QueueRun h st' puts gets st'' →
    QueueRun h st puts (x :: gets) st''
  | other {st st' st'' : ListNodes α} {op : Op α} {out : Option α} {puts gets : List α} :
    st.step op = some (out, st') → (∀ l, st.Lists h l → st'.Lists h l) →
    QueueRun h st' puts gets st'' → QueueRun h st puts gets st''

variable {ops : List (Op α)} {outs : List (Option α)} {puts gets : List α}

theorem run_shows (hs : Shows st rings) (hrun : st.run ops = some (outs, st')) :
    ∃ rings', Steps rings ops outs rings' ∧ Shows st' rings' := by
  induction ops generalizing st rings outs with
  | nil =>
    simp only [run, Option.some.injEq, Prod.mk.injEq] at hrun
    obtain ⟨rfl, rfl⟩ := hrun
    exact ⟨rings, .nil, hs⟩
  | cons op ops ih =>
    simp only [run, Option.bind_eq_bind, Option.bind_eq_some_iff, Prod.exists] at hrun
    obtain ⟨out, st₁, hstep, outs, st₂, hrest, rfl, rfl⟩ := hrun
    obtain ⟨rings₁, hstep, hs₁⟩ := step_shows hs hstep
    obtain ⟨rings₂, hsteps, hs₂⟩ := ih hs₁ hrest
    exact ⟨rings₂, .cons hstep hsteps, hs₂⟩

omit [DecidableEq α] in
theorem Shows.eq_of_lists (hs : Shows st rings) {m : List α} (hh : rings h = some ↑(h :: m))
    (hl : st.Lists h l) : m = l :=
  Links.Ring.unique (hs.forms.ring hh) hl

theorem put_lists (hs : Shows st rings) (hstep : st.step (.put h x) = some (out, st'))
    (hne : x ≠ h) (hl : st.Lists h l) : st'.Lists h (x :: l) := by
  obtain ⟨rings', hstep, hs'⟩ := step_shows hs hstep
  cases hstep with
  | putSelf => exact absurd rfl hne
  | put _ _ hh =>
    obtain rfl := hs.eq_of_lists hh hl
    exact hs'.forms.ring (a := h) (Links.setRing_of_mem (by simp))

theorem get_lists (hs : Shows st rings) (hstep : st.step (.get h) = some (some x, st'))
    (hl : st.Lists h l) : ∃ m, l = m ++ [x] ∧ st'.Lists h m := by
  obtain ⟨rings', hstep, hs'⟩ := step_shows hs hstep
  cases hstep with
  | @get _ _ m hh =>
    obtain rfl := hs.eq_of_lists hh hl
    have hhx : h ≠ x := by
      rintro rfl
      simpa using (Links.ring_cons.1 hl).1
    refine ⟨m, rfl, hs'.forms.ring (a := h) ?_⟩
    rw [Links.setRing_of_notMem (by simpa using hhx), Links.setRing_of_mem (by simp)]

/-- What was put first is got first. -/
theorem queueRun_lists (hs : Shows st rings) (hl : st.Lists h l)
    (hrun : QueueRun h st puts gets st') :
    ∃ l', st'.Lists h l' ∧ gets ++ l'.reverse = l.reverse ++ puts := by
  induction hrun generalizing rings l with
  | nil => exact ⟨l, hl, by simp⟩
  | put hstep hne _ ih =>
    obtain ⟨rings', -, hs'⟩ := step_shows hs hstep
    obtain ⟨l', hl', heq⟩ := ih hs' (put_lists hs hstep hne hl)
    exact ⟨l', hl', by simpa using heq⟩
  | get hstep _ ih =>
    obtain ⟨rings', -, hs'⟩ := step_shows hs hstep
    obtain ⟨m, rfl, hm⟩ := get_lists hs hstep hl
    obtain ⟨l', hl', heq⟩ := ih hs' hm
    exact ⟨l', hl', by simpa using heq⟩
  | other hstep hother _ ih =>
    obtain ⟨rings', -, hs'⟩ := step_shows hs hstep
    exact ih hs' (hother l hl)

/-- From memory without nodes, the nodes form lists, to which each operation does what it says, and
what is put into a head comes out of it in that order. -/
theorem run_lists {links : Links α} (hrun : run ⟨links, fun _ ↦ false⟩ ops = some (outs, st)) :
    (∃ rings, Steps (fun _ ↦ none) ops outs rings ∧ Shows st rings) ∧
      (∀ a, st.live a → (st.live (st.links.next a) ∧ st.links.prev (st.links.next a) = a) ∧
        st.live (st.links.prev a) ∧ st.links.next (st.links.prev a) = a) ∧
      ∀ h l puts gets st', st.Lists h l → QueueRun h st puts gets st' →
        ∃ l', st'.Lists h l' ∧ gets ++ l'.reverse = l.reverse ++ puts := by
  have hnone : Shows ⟨links, fun _ ↦ false⟩ fun _ ↦ none := ⟨⟨nofun, nofun, nofun⟩, fun _ ↦ rfl⟩
  obtain ⟨rings, hsteps, hs⟩ := run_shows hnone hrun
  refine ⟨⟨rings, hsteps, hs⟩, fun a ha ↦ ?_, fun h l puts gets st' ↦ queueRun_lists hs⟩
  rw [hs.live] at ha
  obtain ⟨c, hc⟩ := Option.isSome_iff_exists.1 ha
  have hlive {b : α} (hb : b ∈ c) : st.live b := by
    rw [hs.live, hs.forms.eq hc hb]
    rfl
  obtain ⟨hnext, ⟨-, hprev'⟩, hprev, hnext', -⟩ := (hs.forms.ring hc).joins (hs.forms.mem hc)
  exact ⟨⟨hlive hnext, hprev'⟩, hlive hprev, hnext'⟩

/-- Two nodes are put into a list, and the first of them moves. -/
theorem run_lists_move : ∃ outs st, run ⟨⟨id, id⟩, fun _ ↦ false⟩ [.construct 0, .construct 1,
    .construct 2, .put 0 1, .put 0 2, .moveConstruct 3 1, .get 0, .get 0, .get 0] =
      some (outs, st) ∧
    outs = [none, none, none, none, none, none, some 3, some 2, none] ∧
    ∃ rings, Steps (fun _ ↦ none) [.construct 0, .construct 1, .construct 2, .put 0 1, .put 0 2,
      .moveConstruct 3 1, .get 0, .get 0, .get 0] outs rings ∧ Shows st rings := by
  obtain ⟨⟨outs, st⟩, hrun⟩ := Option.isSome_iff_exists.1
    (show (run ⟨⟨id, id⟩, fun _ ↦ false⟩ [.construct 0, .construct 1, .construct 2, .put 0 1,
      .put 0 2, .moveConstruct 3 1, .get 0, .get 0, .get 0]).isSome from rfl)
  refine ⟨outs, st, hrun, ?_, (run_lists hrun).1⟩
  exact Option.some.inj ((congrArg (Option.map Prod.fst) hrun).symm.trans rfl)

end ListNodes

end PxcCore
