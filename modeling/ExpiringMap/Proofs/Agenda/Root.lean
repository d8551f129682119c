import ExpiringMap.Proofs.Agenda.Operations

namespace ExpiringMap.Agenda

open Std (TransOrd LawfulEqOrd)

variable {ι α : Type} [Ord ι] [TransOrd ι]

theorem slots_zero_swap (a : Agenda ι α) {i j : Nat} (hi : 0 < i) (hj : 0 < j) (hin : i < a.size)
    (hjn : j < a.size) : (a.swap i j).slots[0]? = a.slots[0]? := by
  rw [getElem?_slots_swap a hin hjn, Equiv.swap_apply_of_ne_of_ne hi.ne hj.ne]

namespace Linked

variable {a : Agenda ι α} {i : Nat}

theorem siftDown_zero (h : a.Linked) (hpos : 0 < a.size)
    (hfirst : ∀ j < a.size, a.endAt 0 ≤ a.endAt j) : a.siftDown 0 = (a, 0) := by
  rw [siftDown]
  split
  · next c hc =>
    have hcn := (earlierChild?_bounds hc).2
    refine if_neg ?_
    rw [earlier_iff h hcn hpos]
    exact (hfirst c hcn).not_gt
  · rfl

variable [LawfulEqOrd ι]

theorem slots_zero_siftUp (h : a.Linked) (hi : i < a.size) (hfirst : a.endAt 0 ≤ a.endAt i) :
    (a.siftUp i).slots[0]? = a.slots[0]? := by
  fun_induction siftUp a i with
  | case1 a i hup ih =>
    have hp := Nat.lt_trans (parent_lt hup.1) hi
    have hpos : 0 < parent i := by
      rw [Nat.pos_iff_ne_zero]
      intro hz
      rw [earlier_iff h hi hp, hz] at hup
      exact hup.2.not_ge hfirst
    have hs := h.rearranged_swap hi hp
    -- What goes up ends where it did, and slot 0 is not touched yet.
    have hend : (a.swap i (parent i)).endAt 0 ≤ (a.swap i (parent i)).endAt (parent i) := by
      rw [endAt_swap a hi hp, Function.comp_apply, Function.comp_apply, Equiv.swap_apply_right,
        Equiv.swap_apply_of_ne_of_ne hup.1.ne hpos.ne]
      exact hfirst
    rw [ih hs.linked (hs.size_eq ▸ hp) hend, slots_zero_swap a hup.1 hpos hi hp]
  | case2 => rfl

theorem slots_zero_siftDown (h : a.Linked) (hpos : 0 < i) (hi : i < a.size) :
    (a.siftDown i).1.slots[0]? = a.slots[0]? := by
  fun_induction siftDown a i with
  | case1 a i c hc hdown ih =>
    obtain ⟨hic, hcn⟩ := earlierChild?_bounds hc
    have hs := h.rearranged_swap hi hcn
    rw [ih hs.linked (hpos.trans hic) (hs.size_eq ▸ hcn),
      slots_zero_swap a hpos (hpos.trans hic) hi hcn]
  | case2 => rfl
  | case3 => rfl

theorem slots_zero_resift (h : a.Linked) (hi : i < a.size)
    (hfirst : ∀ j < a.size, a.endAt 0 ≤ a.endAt j) : (a.resift i).slots[0]? = a.slots[0]? := by
  simp only [resift]
  rcases Nat.eq_zero_or_pos i with rfl | hpos
  · rw [h.siftDown_zero hi hfirst, if_pos rfl]
    exact h.slots_zero_siftUp hi le_rfl
  · split
    · next hstay =>
      rw [siftDown_eq_self hstay]
      exact h.slots_zero_siftUp hi (hfirst i hi)
    · exact h.slots_zero_siftDown hpos hi

theorem slots_zero_push (h : a.Linked) {id : ι} {x : α} {d : Deadline}
    (hid : a.content? id = some (x, d)) (hoff : a.positionOf? id = none) (hpos : 0 < a.size)
    (hfirst : a.endAt 0 ≤ d) : (a.push id).slots[0]? = a.slots[0]? := by
  have hl := h.append (by rw [hid]; rfl) hoff
  have hlast : (a.append id).slots[a.size]? = some id := by
    rw [getElem?_slots_append, if_pos rfl]
  have hend : (a.append id).endAt 0 ≤ (a.append id).endAt a.size := by
    rw [endAt_append_of_lt a id hpos,
      endAt_of_content? hlast ((content?_append a id id).trans hid)]
    exact hfirst
  rw [push_eq, hl.slots_zero_siftUp (by simp) hend, getElem?_slots_append, if_neg hpos.ne]

end Linked

/-- Wherever `id` is put, an id that stands first and ends no later than any other stays first. -/
theorem ConsistentBut.slots_zero_schedule [LawfulEqOrd ι] {a : Agenda ι α} {id r : ι} {x : α}
    {d : Deadline} (h : a.ConsistentBut id) (hid : (a.content? id).isSome)
    (hr : a.slots[0]? = some r) (hx : a.content? r = some (x, d))
    (hmin : ∀ j y e, a.content? j = some (y, e) → d ≤ e) :
    (a.schedule id).slots[0]? = some r := by
  have hpos : 0 < a.size := (Array.getElem?_eq_some_iff.1 hr).1
  have hzero : a.endAt 0 = d := endAt_of_content? hr hx
  unfold Agenda.schedule
  split
  · next i hi =>
    rw [h.linked.slots_zero_resift (h.linked.lt_size hi) fun j hj => ?_, hr]
    have hs : a.slots[j]? = some a.slots[j] := Array.getElem?_eq_getElem hj
    obtain ⟨⟨y, e⟩, hy⟩ := Option.isSome_iff_exists.1 (h.linked.isSome_content? hs)
    rw [hzero, endAt_of_content? hs hy]
    exact hmin _ y e hy
  · next hoff =>
    obtain ⟨⟨y, e⟩, hy⟩ := Option.isSome_iff_exists.1 hid
    rw [h.linked.slots_zero_push hy hoff hpos (hzero ▸ hmin id y e hy), hr]

end ExpiringMap.Agenda
