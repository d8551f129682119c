import ExpiringMap.Proofs.Agenda.History

namespace ExpiringMap.Agenda

open Std (TransOrd LawfulEqOrd)

variable {ι α : Type} [Ord ι] [TransOrd ι]

/-- Linked, and in order as soon as slot `i` is given the right deadline. -/
structure OneAstray (a : Agenda ι α) (i : Nat) : Prop where
  linked : a.Linked
  lt_size : i < a.size
  inOrder : ∃ d, InOrder (Function.update a.endAt i d) a.size

theorem OneAstray.inOrderBut {a : Agenda ι α} {i : Nat} (h : a.OneAstray i) :
    InOrderBut a.endAt a.size i := by
  obtain ⟨d, hd⟩ := h.inOrder
  exact hd.relabel h.lt_size fun j _ hji => (Function.update_of_ne hji d a.endAt).symm

/-- It is enough that all other slots agree with an order that slot `i` had a place in. -/
theorem Linked.oneAstray {a : Agenda ι α} (h : a.Linked) {i : Nat} (hi : i < a.size)
    {e : Nat → Deadline} (he : InOrder e a.size)
    (hea : ∀ j, j < a.size → j ≠ i → a.endAt j = e j) : a.OneAstray i where
  linked := h
  lt_size := hi
  inOrder := by
    refine ⟨e i, he.mono le_rfl fun j hj => ?_⟩
    by_cases hji : j = i
    · rw [hji, Function.update_self]
    · rw [Function.update_of_ne hji, hea j hj hji]

theorem Rearranged.slots_perm {a b : Agenda ι α} (hr : Rearranged a b) (ha : a.Linked) :
    b.slots.toList.Perm a.slots.toList := by
  have hmem {c : Agenda ι α} (hc : c.Linked) (id : ι) :
      id ∈ c.slots.toList ↔ c.isScheduled id = true := by
    rw [Array.mem_toList_iff, Array.mem_iff_getElem?, isScheduled_iff]
    exact exists_congr fun i => hc i id
  rw [List.perm_ext_iff_of_nodup hr.linked.nodup_slots ha.nodup_slots]
  intro id
  rw [hmem hr.linked, hmem ha, hr.isScheduled_eq]

theorem Linked.siftUp_eq_self_of_notBefore {a : Agenda ι α} (h : a.Linked) {i : Nat}
    (hi : i < a.size) (hp : NotBeforeParent a.endAt i) : a.siftUp i = a := by
  rw [siftUp, if_neg]
  rintro ⟨hpos, hup⟩
  rw [earlier_iff h hi (Nat.lt_trans (parent_lt hpos) hi)] at hup
  exact (hp hpos).not_gt hup

theorem Linked.siftDown_eq_self_of_notAfter {a : Agenda ι α} (h : a.Linked) {i : Nat}
    (hi : i < a.size) (hc : NotAfterChildren a.endAt a.size i) : a.siftDown i = (a, i) := by
  rw [siftDown]
  split
  · next c hchild =>
    obtain ⟨hlt, hcn⟩ := earlierChild?_bounds hchild
    rw [if_neg]
    rw [earlier_iff h hcn hi, not_lt]
    exact hc c (Nat.zero_lt_of_lt hlt) hcn (parent_earlierChild? hchild)
  · rfl

/-- Where the order is right already, equal deadlines change places no more than others. -/
theorem Consistent.resift_eq_self {a : Agenda ι α} (h : a.Consistent) {i : Nat}
    (hi : i < a.size) : a.resift i = a := by
  have hdown := h.linked.siftDown_eq_self_of_notAfter hi fun j hj hjn hpj =>
    hpj ▸ h.inOrder j hj hjn
  simp only [resift, hdown, ↓reduceIte]
  exact h.linked.siftUp_eq_self_of_notBefore hi fun hpos => h.inOrder i hpos hi

theorem getElem?_slots_siftDown (a : Agenda ι α) (i : Nat) :
    (a.siftDown i).1.slots[(a.siftDown i).2]? = a.slots[i]? := by
  fun_induction siftDown a i with
  | case1 a i c hc hdown ih =>
    obtain ⟨hlt, hcn⟩ := earlierChild?_bounds hc
    rw [ih, getElem?_slots_swap a (hlt.trans hcn) hcn, Equiv.swap_apply_right]
  | case2 => rfl
  | case3 => rfl

theorem OneAstray.moved_iff {a : Agenda ι α} {i : Nat} (h : a.OneAstray i) :
    (a.siftDown i).2 ≠ i ↔ (a.siftDown i).1.slots ≠ a.slots := by
  refine not_congr ⟨fun hstay => by rw [siftDown_eq_self hstay], fun hsame => ?_⟩
  obtain ⟨id, hi⟩ : ∃ id, a.slots[i]? = some id := ⟨_, Array.getElem?_eq_getElem h.lt_size⟩
  have hland := getElem?_slots_siftDown a i
  rw [hsame, hi] at hland
  exact h.linked.slot_inj hland hi

variable [LawfulEqOrd ι]

structure Mends (a : Agenda ι α) (i : Nat) : Prop where
  inOrder : InOrder (a.resift i).endAt (a.resift i).size
  rearranged : Rearranged a (a.resift i)
  perm : (a.resift i).slots.toList.Perm a.slots.toList
  moved_iff : (a.siftDown i).2 ≠ i ↔ (a.siftDown i).1.slots ≠ a.slots
  notBefore : (a.siftDown i).2 ≠ i → NotBeforeParent (a.siftDown i).1.endAt i
  /-- The sift up would change nothing where it is left out. -/
  up_eq : (a.siftDown i).1.siftUp i = a.resift i

theorem OneAstray.notBefore {a : Agenda ι α} {i : Nat} (h : a.OneAstray i)
    (hmoved : (a.siftDown i).2 ≠ i) : NotBeforeParent (a.siftDown i).1.endAt i := by
  rcases h.linked.siftDown_stays_or_mends h.lt_size h.inOrderBut with ⟨hstay, -⟩ | ⟨-, hdone⟩
  · rw [hstay] at hmoved
    exact absurd rfl hmoved
  · intro hpos
    exact hdone i hpos ((size_siftDown a i).symm ▸ h.lt_size)

theorem OneAstray.mends {a : Agenda ι α} {i : Nat} (h : a.OneAstray i) : a.Mends i where
  inOrder := h.linked.inOrder_resift h.lt_size h.inOrderBut
  rearranged := h.linked.rearranged_resift h.lt_size
  perm := (h.linked.rearranged_resift h.lt_size).slots_perm h.linked
  moved_iff := h.moved_iff
  notBefore := h.notBefore
  up_eq := by
    by_cases hstay : (a.siftDown i).2 = i
    · simp only [resift, hstay, ↓reduceIte]
    · have hd := h.linked.rearranged_siftDown h.lt_size
      rw [hd.linked.siftUp_eq_self_of_notBefore (hd.size_eq.symm ▸ h.lt_size) (h.notBefore hstay)]
      simp only [resift, hstay, ↓reduceIte]

theorem Consistent.oneAstray_modify {a : Agenda ι α} (h : a.Consistent) {i : Nat} {id : ι}
    (hi : a.slots[i]? = some id) (d : Deadline) :
    (a.modify id ({ · with deadline := d })).OneAstray i := by
  have hm := h.modify id (f := ({ · with deadline := d })) fun _ => rfl
  apply hm.linked.oneAstray (Array.getElem?_eq_some_iff.1 hi).1 h.inOrder
  intro j _ hji
  apply endAt_modify_of_ne
  intro hj
  exact hji (h.linked.slot_inj hj hi)

theorem Consistent.oneAstray_fillGap {a : Agenda ι α} (h : a.Consistent) {i : Nat}
    (hi : i < (a.fillGap i).size) : (a.fillGap i).OneAstray i := by
  have hsize := size_fillGap a i
  have hin : i < a.size := by omega
  have hg := h.linked.fillGap (Array.getElem?_eq_getElem hin)
  exact hg.linked.oneAstray hi (h.inOrder.mono (by omega) fun _ _ => rfl) hg.endAt_eq

/-- A change of one deadline and a removal each leave at most one slot out of order, a sift down
and, if that moved nothing, a sift up repair any agenda with at most one slot out of order, and
they leave one in order as it is. -/
theorem mends_one_astray (a : Agenda ι α) (i : Nat) :
    (∀ id d, a.Consistent → a.slots[i]? = some id →
      (a.modify id ({ · with deadline := d })).OneAstray i) ∧
    (a.Consistent → i < (a.fillGap i).size →
      (a.fillGap i).OneAstray i ∧ a.eraseAt i = (a.fillGap i).resift i) ∧
    (a.OneAstray i → a.Mends i) ∧
    (a.Consistent → i < a.size → a.resift i = a) := by
  refine ⟨fun id d h hi => h.oneAstray_modify hi d, fun h hi => ?_, OneAstray.mends,
    fun h hi => h.resift_eq_self hi⟩
  refine ⟨h.oneAstray_fillGap hi, ?_⟩
  have hsize := size_fillGap a i
  rw [eraseAt_eq (by omega), if_pos hi]

/-- The last slot is earlier than the parent of slot 3, which it comes to from another branch. -/
def branched : List (Command Nat) :=
  [.push 1 (.due 10), .push 2 (.due 40), .push 3 (.due 20), .push 4 (.due 50), .push 5 (.due 60),
    .push 6 (.due 30)]

theorem mends_one_astray_branched :
    ((after branched).setDeadline 4 (.due 15)).Mends 3 ∧
    ((after branched).fillGap 3).Mends 3 ∧
    ((after branched).eraseAt 3).slots = #[1, 6, 3, 2, 5] ∧
    (after branched).resift 3 = after branched := by
  have h := consistent_after branched
  have hi : (after branched).slots[3]? = some 4 := by decide +kernel
  have hgap : 3 < ((after branched).fillGap 3).size := by decide +kernel
  have hchanged := (mends_one_astray (after branched) 3).1 4 (.due 15) h hi
  have herased := (mends_one_astray (after branched) 3).2.1 h hgap
  refine ⟨(mends_one_astray _ 3).2.2.1 hchanged, (mends_one_astray _ 3).2.2.1 herased.1, ?_,
    (mends_one_astray _ 3).2.2.2 h (by decide +kernel)⟩
  decide +kernel

end ExpiringMap.Agenda
