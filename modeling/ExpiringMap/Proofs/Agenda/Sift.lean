import ExpiringMap.Proofs.Agenda.HeapOrder
import ExpiringMap.Proofs.Agenda.Linked
import ExpiringMap.Proofs.DeadlineOrder
import Mathlib.Order.Nat

namespace ExpiringMap.Agenda

open Std (TransOrd LawfulEqOrd)

variable {ι α : Type} [Ord ι] [TransOrd ι]

/-- The deadline of the item in a slot; past the last slot, never. -/
def endAt (a : Agenda ι α) (i : Nat) : Deadline := (a.itemAt? i).elim .never (·.deadline)

theorem endAt_eq (a : Agenda ι α) (i : Nat) :
    a.endAt i = (a.slots[i]?.bind a.content?).elim .never (·.2) := by
  unfold endAt itemAt? content?
  cases a.slots[i]? with
  | none => rfl
  | some id => cases h : a.items[id]? <;> simp [h]

theorem endAt_of_content? {a : Agenda ι α} {i : Nat} {id : ι} {x : α} {d : Deadline}
    (hi : a.slots[i]? = some id) (hx : a.content? id = some (x, d)) : a.endAt i = d := by
  simp [endAt_eq, hi, hx]

theorem Linked.exists_itemAt? {a : Agenda ι α} (h : a.Linked) {i : Nat} (hi : i < a.size) :
    ∃ x, a.itemAt? i = some x := by
  have hs : a.slots[i]? = some a.slots[i] := Array.getElem?_eq_getElem hi
  have hx := h.isSome_content? hs
  rw [Agenda.isSome_content?, Option.isSome_iff_exists] at hx
  simpa [itemAt?, hs] using hx

theorem earlier_iff {a : Agenda ι α} (h : a.Linked) {i j : Nat} (hi : i < a.size)
    (hj : j < a.size) : a.earlier i j = true ↔ a.endAt i < a.endAt j := by
  obtain ⟨x, hx⟩ := h.exists_itemAt? hi
  obtain ⟨y, hy⟩ := h.exists_itemAt? hj
  simp [earlier, endAt, hx, hy, Deadline.lt_iff]

theorem parent_earlierChild? {a : Agenda ι α} {i c : Nat} (h : a.earlierChild? i = some c) :
    parent c = i := by
  unfold earlierChild? at h
  unfold parent
  grind

theorem notAfterChildren_of_earlierChild?_eq_none {a : Agenda ι α} {i : Nat}
    (hc : a.earlierChild? i = none) : NotAfterChildren a.endAt a.size i := by
  intro j hj hjn hpj
  unfold earlierChild? at hc
  unfold parent at hpj
  split at hc
  · cases hc
  · omega

theorem le_siftDown (a : Agenda ι α) (i : Nat) : i ≤ (a.siftDown i).2 := by
  fun_induction siftDown a i with
  | case1 a i c hc hdown ih => exact (earlierChild?_bounds hc).1.le.trans ih
  | case2 => exact le_rfl
  | case3 => exact le_rfl

theorem siftDown_eq_self {a : Agenda ι α} {i : Nat} (h : (a.siftDown i).2 = i) :
    a.siftDown i = (a, i) := by
  rw [siftDown] at h ⊢
  split at h
  · next c hc =>
    split at h
    · have hlt := (earlierChild?_bounds hc).1.trans_le (le_siftDown (a.swap i c) c)
      exact absurd h hlt.ne'
    · next hstay => exact if_neg hstay
  · rfl

theorem Linked.earlierChild?_le {a : Agenda ι α} (h : a.Linked) {i c : Nat}
    (hc : a.earlierChild? i = some c) {j : Nat} (hj : 0 < j) (hjn : j < a.size)
    (hpj : parent j = i) : a.endAt c ≤ a.endAt j := by
  have hchild : j = 2 * i + 1 ∨ j = 2 * i + 2 := by unfold parent at hpj; omega
  unfold earlierChild? at hc
  rw [Option.ite_none_right_eq_some, Option.some.injEq] at hc
  obtain ⟨hleft, rfl⟩ := hc
  by_cases hright : 2 * i + 2 < a.size
  · simp only [earlier_iff h hright hleft]
    split_ifs with hlt
    · rcases hchild with rfl | rfl
      · exact hlt.2.le
      · exact le_rfl
    · rcases hchild with rfl | rfl
      · exact le_rfl
      · exact not_lt.1 fun hlt' => hlt ⟨hright, hlt'⟩
  · rw [if_neg fun hlt => hright hlt.1]
    rcases hchild with rfl | rfl
    · exact le_rfl
    · exact absurd hjn hright

theorem Linked.notAfterChildren_of_not_earlier {a : Agenda ι α} (h : a.Linked) {i c : Nat}
    (hi : i < a.size) (hc : a.earlierChild? i = some c) (hstay : ¬ a.earlier c i = true) :
    NotAfterChildren a.endAt a.size i := by
  intro j hj hjn hpj
  rw [earlier_iff h (earlierChild?_bounds hc).2 hi, not_lt] at hstay
  exact hstay.trans (h.earlierChild?_le hc hj hjn hpj)

/-- `b` holds what `a` holds, on other slots. -/
structure Rearranged (a b : Agenda ι α) : Prop where
  linked : b.Linked
  size_eq : b.size = a.size
  content?_eq : ∀ id, b.content? id = a.content? id
  isScheduled_eq : ∀ id, b.isScheduled id = a.isScheduled id

theorem Linked.rearranged_self {a : Agenda ι α} (h : a.Linked) : Rearranged a a where
  linked := h
  size_eq := rfl
  content?_eq _ := rfl
  isScheduled_eq _ := rfl

theorem Rearranged.trans {a b c : Agenda ι α} (hab : Rearranged a b) (hbc : Rearranged b c) :
    Rearranged a c where
  linked := hbc.linked
  size_eq := hbc.size_eq.trans hab.size_eq
  content?_eq id := (hbc.content?_eq id).trans (hab.content?_eq id)
  isScheduled_eq id := (hbc.isScheduled_eq id).trans (hab.isScheduled_eq id)

variable [LawfulEqOrd ι]

theorem endAt_swap (a : Agenda ι α) {i j : Nat} (hi : i < a.size) (hj : j < a.size) :
    (a.swap i j).endAt = a.endAt ∘ Equiv.swap i j := by
  funext k
  have hc : (a.swap i j).content? = a.content? := funext fun id => content?_swap a i j id
  rw [Function.comp_apply, endAt_eq, endAt_eq, getElem?_slots_swap a hi hj, hc]

theorem Linked.rearranged_swap {a : Agenda ι α} (h : a.Linked) {i j : Nat} (hi : i < a.size)
    (hj : j < a.size) : Rearranged a (a.swap i j) where
  linked := h.swap hi hj
  size_eq := by simp [size]
  content?_eq := content?_swap a i j
  isScheduled_eq id := by simp [isScheduled, positionOf?_swap h hi hj]

theorem Linked.rearranged_siftUp {a : Agenda ι α} (h : a.Linked) {i : Nat} (hi : i < a.size) :
    Rearranged a (a.siftUp i) := by
  fun_induction siftUp a i with
  | case1 a i hup ih =>
    have hp := Nat.lt_trans (parent_lt hup.1) hi
    have hs := h.rearranged_swap hi hp
    exact hs.trans (ih hs.linked (hs.size_eq ▸ hp))
  | case2 a i hup => exact h.rearranged_self

theorem Linked.inOrder_siftUp {a : Agenda ι α} (h : a.Linked) {i : Nat} (hi : i < a.size)
    (ho : InOrderBut a.endAt a.size i) (hc : NotAfterChildren a.endAt a.size i) :
    InOrder (a.siftUp i).endAt (a.siftUp i).size := by
  fun_induction siftUp a i with
  | case1 a i hup ih =>
    have hp := Nat.lt_trans (parent_lt hup.1) hi
    have hs := h.rearranged_swap hi hp
    obtain ⟨ho', hc'⟩ := ho.raise hup.1 hi ((earlier_iff h hi hp).1 hup.2)
    apply ih hs.linked (hs.size_eq ▸ hp)
    · rwa [endAt_swap a hi hp, hs.size_eq]
    · rwa [endAt_swap a hi hp, hs.size_eq]
  | case2 a i hup =>
    apply ho.inOrder hc
    intro hpos
    have hp := Nat.lt_trans (parent_lt hpos) hi
    rw [← not_lt, ← earlier_iff h hi hp]
    exact fun he => hup ⟨hpos, he⟩

theorem Linked.rearranged_siftDown {a : Agenda ι α} (h : a.Linked) {i : Nat} (hi : i < a.size) :
    Rearranged a (a.siftDown i).1 := by
  fun_induction siftDown a i with
  | case1 a i c hc hdown ih =>
    have hcn := (earlierChild?_bounds hc).2
    have hs := h.rearranged_swap hi hcn
    exact hs.trans (ih hs.linked (hs.size_eq ▸ hcn))
  | case2 a i c hc hstay => exact h.rearranged_self
  | case3 a i hc => exact h.rearranged_self

theorem Linked.inOrder_siftDown {a : Agenda ι α} (h : a.Linked) {i : Nat} (hi : i < a.size)
    (ho : InOrderBut a.endAt a.size i) (hp : NotBeforeParent a.endAt i) :
    InOrder (a.siftDown i).1.endAt (a.siftDown i).1.size := by
  fun_induction siftDown a i with
  | case1 a i c hc hdown ih =>
    have hcn := (earlierChild?_bounds hc).2
    have hs := h.rearranged_swap hi hcn
    have hpos : 0 < c := by have := (earlierChild?_bounds hc).1; omega
    obtain ⟨ho', hp'⟩ := ho.sink hpos hcn (parent_earlierChild? hc)
      (fun j hj hjn hpj => h.earlierChild?_le hc hj hjn hpj) ((earlier_iff h hcn hi).1 hdown)
    apply ih hs.linked (hs.size_eq ▸ hcn)
    · rwa [endAt_swap a hi hcn, hs.size_eq]
    · rwa [endAt_swap a hi hcn]
  | case2 a i c hc hstay => exact ho.inOrder (h.notAfterChildren_of_not_earlier hi hc hstay) hp
  | case3 a i hc => exact ho.inOrder (notAfterChildren_of_earlierChild?_eq_none hc) hp

/-- Either slot `i` stays, and is not after its children, or it sinks and everything is in order:
what comes up to slot `i` was below its parent before. -/
theorem Linked.siftDown_stays_or_mends {a : Agenda ι α} (h : a.Linked) {i : Nat} (hi : i < a.size)
    (ho : InOrderBut a.endAt a.size i) :
    (a.siftDown i = (a, i) ∧ NotAfterChildren a.endAt a.size i) ∨
      (i < (a.siftDown i).2 ∧ InOrder (a.siftDown i).1.endAt (a.siftDown i).1.size) := by
  rw [siftDown]
  split
  · next c hc =>
    have hcn := (earlierChild?_bounds hc).2
    split
    · next hdown =>
      right
      have hs := h.rearranged_swap hi hcn
      have hpos : 0 < c := by have := (earlierChild?_bounds hc).1; omega
      obtain ⟨ho', hp'⟩ := ho.sink hpos hcn (parent_earlierChild? hc)
        (fun j hj hjn hpj => h.earlierChild?_le hc hj hjn hpj) ((earlier_iff h hcn hi).1 hdown)
      refine ⟨(earlierChild?_bounds hc).1.trans_le (le_siftDown _ c), ?_⟩
      apply hs.linked.inOrder_siftDown (hs.size_eq ▸ hcn)
      · rwa [endAt_swap a hi hcn, hs.size_eq]
      · rwa [endAt_swap a hi hcn]
    · next hstay => exact .inl ⟨rfl, h.notAfterChildren_of_not_earlier hi hc hstay⟩
  · next hc => exact .inl ⟨rfl, notAfterChildren_of_earlierChild?_eq_none hc⟩

theorem Linked.rearranged_resift {a : Agenda ι α} (h : a.Linked) {i : Nat} (hi : i < a.size) :
    Rearranged a (a.resift i) := by
  have hd := h.rearranged_siftDown hi
  simp only [resift]
  split
  · exact hd.trans (hd.linked.rearranged_siftUp (hd.size_eq ▸ hi))
  · exact hd

theorem Linked.inOrder_resift {a : Agenda ι α} (h : a.Linked) {i : Nat} (hi : i < a.size)
    (ho : InOrderBut a.endAt a.size i) : InOrder (a.resift i).endAt (a.resift i).size := by
  simp only [resift]
  -- It goes up only if it has stayed, and then it is not after its children.
  rcases h.siftDown_stays_or_mends hi ho with ⟨hstay, hc⟩ | ⟨hlt, hdone⟩
  · simp only [hstay, ↓reduceIte]
    exact h.inOrder_siftUp hi ho hc
  · simp only [hlt.ne', ↓reduceIte]
    exact hdone

end ExpiringMap.Agenda
