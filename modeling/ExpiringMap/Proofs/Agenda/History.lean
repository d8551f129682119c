import ExpiringMap.Agenda.Command
import ExpiringMap.Proofs.Agenda.Checks

namespace ExpiringMap.Agenda

open Std (TransOrd LawfulEqOrd)

variable {ι α : Type} [Ord ι] [TransOrd ι]

def Misuse.fault : Misuse → Fault
  | alreadyScheduled => .alreadyScheduled
  | outOfBounds slot => .outOfBounds slot

/-- The id is in a slot already, or there is no such slot. Taking from an empty agenda is no
mistake. -/
def Misuses (a : Agenda ι α) : Command ι → Misuse → Prop
  | .push id _, .alreadyScheduled => ∃ i : Nat, a.slots[i]? = some id
  | .eraseAt slot, .outOfBounds i => i = slot ∧ 0 < a.size ∧ a.size ≤ slot
  | .resift slot, .outOfBounds i => i = slot ∧ a.size ≤ slot
  | _, _ => False

/-- What a command takes for granted on its way. -/
def check (a : Agenda ι Unit) : Command ι → Except Fault Unit
  | .push id deadline => do
    demand (!a.isScheduled id) .alreadyScheduled
    (a.insert id { payload := (), deadline }).checkPush id
  | .pop => if a.size = 0 then .ok () else a.checkEraseAt 0
  | .eraseAt slot => if a.size = 0 then .ok () else a.checkEraseAt slot
  | .erase id =>
    match a.positionOf? id with
    | some slot => a.checkEraseAt slot
    | none => .ok ()
  | .reschedule id deadline =>
    match a.positionOf? id with
    | some slot => (a.setDeadline id deadline).checkResift slot
    | none => .ok ()
  | .resift slot => a.checkResift slot
  | .root | .clear => .ok ()

theorem Linked.apply_of_misuses {a : Agenda ι Unit} (h : a.Linked) {c : Command ι} {m : Misuse}
    (hm : a.Misuses c m) : a.apply c = (.misuse m, a) := by
  cases c with
  | push id d =>
    cases m with
    | alreadyScheduled =>
      obtain ⟨i, hi⟩ := hm
      exact if_pos (isScheduled_iff.2 ⟨i, (h i id).1 hi⟩)
    | outOfBounds => cases hm
  | eraseAt slot =>
    cases m with
    | alreadyScheduled => cases hm
    | outOfBounds i =>
      obtain ⟨rfl, hpos, hle⟩ := hm
      have hs : a.slots[i]? = none := Array.getElem?_eq_none hle
      simp [apply, hpos.ne', hs]
  | resift slot =>
    cases m with
    | alreadyScheduled => cases hm
    | outOfBounds i =>
      obtain ⟨rfl, hle⟩ := hm
      exact if_neg hle.not_gt
  | pop | erase | reschedule | root | clear => cases hm

theorem Linked.misuses_of_apply {a : Agenda ι Unit} (h : a.Linked) {c : Command ι} {m : Misuse}
    (hm : (a.apply c).1 = .misuse m) : a.Misuses c m := by
  cases c with
  | push id d =>
    simp only [apply] at hm
    split at hm
    · next hs =>
      cases hm
      obtain ⟨i, hi⟩ := isScheduled_iff.1 hs
      exact ⟨i, (h i id).2 hi⟩
    · cases hm
  | eraseAt slot =>
    simp only [apply] at hm
    split at hm
    · cases hm
    · next hpos =>
      split at hm
      · cases hm
      · next hs =>
        cases hm
        exact ⟨rfl, Nat.pos_of_ne_zero hpos, Array.getElem?_eq_none_iff.1 hs⟩
  | resift slot =>
    simp only [apply] at hm
    split at hm
    · cases hm
    · next hle =>
      cases hm
      exact ⟨rfl, Nat.le_of_not_lt hle⟩
  | erase id | reschedule id d =>
    simp only [apply] at hm
    split at hm <;> cases hm
  | pop | root | clear => cases hm

theorem Linked.check_of_misuses {a : Agenda ι Unit} (h : a.Linked) {c : Command ι} {m : Misuse}
    (hm : a.Misuses c m) : a.check c = .error m.fault := by
  cases c with
  | push id d =>
    cases m with
    | alreadyScheduled =>
      obtain ⟨i, hi⟩ := hm
      have hs : a.isScheduled id = true := isScheduled_iff.2 ⟨i, (h i id).1 hi⟩
      simp only [check, hs]
      rfl
    | outOfBounds => cases hm
  | eraseAt slot =>
    cases m with
    | alreadyScheduled => cases hm
    | outOfBounds i =>
      obtain ⟨rfl, hpos, hle⟩ := hm
      simp only [check, if_neg hpos.ne', Agenda.checkEraseAt, decide_eq_false hle.not_gt]
      rfl
  | resift slot =>
    cases m with
    | alreadyScheduled => cases hm
    | outOfBounds i =>
      obtain ⟨rfl, hle⟩ := hm
      simp only [check, Agenda.checkResift, decide_eq_false hle.not_gt]
      rfl
  | pop | erase | reschedule | root | clear => cases hm

theorem Consistent.exists_parent_le {a : Agenda ι α} (h : a.Consistent) {i : Nat} (hpos : 0 < i)
    (hi : i < a.size) :
    ∃ x y, a.itemAt? (parent i) = some x ∧ a.itemAt? i = some y ∧ x.deadline ≤ y.deadline := by
  obtain ⟨x, hx⟩ := h.linked.exists_itemAt? ((parent_lt hpos).trans hi)
  obtain ⟨y, hy⟩ := h.linked.exists_itemAt? hi
  refine ⟨x, y, hx, hy, ?_⟩
  have hle := h.inOrder i hpos hi
  simpa [endAt, hx, hy] using hle

theorem after_concat (cs : List (Command ι)) (c : Command ι) :
    after (cs ++ [c]) = ((after cs).apply c).2 := by
  rw [after, after, List.foldl_concat]

variable [LawfulEqOrd ι]

theorem Consistent.eraseAt_of_lt {a : Agenda ι α} (h : a.Consistent) {i : Nat}
    (hi : i < a.size) : (a.eraseAt i).Consistent :=
  (h.eraseAt ((h.linked i a.slots[i]).1 (Array.getElem?_eq_getElem hi))).consistent

theorem Consistent.apply {a : Agenda ι Unit} (h : a.Consistent) (c : Command ι) :
    (a.apply c).2.Consistent := by
  have herase (i : Nat) : (a.eraseAt i).Consistent := by
    by_cases hi : i < a.size
    · exact h.eraseAt_of_lt hi
    · rwa [Agenda.eraseAt, if_neg hi]
  cases c with
  | push id d =>
    simp only [Agenda.apply]
    split
    · exact h
    · next hs =>
      have hoff := isScheduled_eq_false_iff.1 (Bool.eq_false_iff.2 hs)
      obtain ⟨hc, hp⟩ := h.insert (x := { payload := (), deadline := d }) hoff rfl
      have hid := content?_insert_self a id { payload := (), deadline := d }
      exact (hc.push (by rw [hid]; rfl) ((hp id).trans hoff)).consistent
  | pop => exact herase 0
  | eraseAt slot =>
    simp only [Agenda.apply]
    split
    · exact h
    · split
      · exact herase slot
      · exact h
  | erase id =>
    simp only [Agenda.apply]
    split
    · exact herase _
    · exact h
  | reschedule id d =>
    have hm := h.modify id (f := fun x => { x with deadline := d }) fun _ => rfl
    have hp := positionOf?_modify a id (f := fun x => { x with deadline := d }) fun _ => rfl
    simp only [Agenda.apply]
    split
    · next slot hs =>
      have hs' := (hp id).trans hs
      have hlt := hm.linked.lt_size hs'
      exact ⟨(hm.linked.rearranged_resift hlt).linked,
        hm.linked.inOrder_resift hlt (hm.inOrderBut slot hs')⟩
    · next hoff => exact ⟨hm.linked, hm.inOrder ((hp id).trans hoff)⟩
  | resift slot =>
    simp only [Agenda.apply]
    split
    · next hlt =>
      exact ⟨(h.linked.rearranged_resift hlt).linked,
        h.linked.inOrder_resift hlt (h.inOrder.relabel hlt fun _ _ _ => rfl)⟩
    · exact h
  | root => exact h
  | clear => exact consistent_empty

/-- A command that is no mistake finds whatever it looks for. -/
theorem Consistent.check {a : Agenda ι Unit} (h : a.Consistent) {c : Command ι}
    (hm : ∀ m, ¬ a.Misuses c m) : a.check c = .ok () := by
  cases c with
  | push id d =>
    have hoff : a.positionOf? id = none := by
      rw [Option.eq_none_iff_forall_ne_some]
      intro i hi
      exact hm .alreadyScheduled ⟨i, (h.linked i id).2 hi⟩
    obtain ⟨hc, hp⟩ := h.insert (x := { payload := (), deadline := d }) hoff rfl
    have hid := content?_insert_self a id { payload := (), deadline := d }
    rw [Agenda.check, isScheduled_eq_false_iff.2 hoff]
    exact hc.linked.checkPush (by rw [hid]; rfl) ((hp id).trans hoff)
  | pop =>
    simp only [Agenda.check]
    split
    · rfl
    · next hpos => exact h.linked.checkEraseAt (Nat.pos_of_ne_zero hpos)
  | eraseAt slot =>
    simp only [Agenda.check]
    split
    · rfl
    · next hpos =>
      refine h.linked.checkEraseAt (Nat.lt_of_not_le fun hle => ?_)
      exact hm (.outOfBounds slot) ⟨rfl, Nat.pos_of_ne_zero hpos, hle⟩
  | erase id =>
    simp only [Agenda.check]
    split
    · next hs => exact h.linked.checkEraseAt (h.linked.lt_size hs)
    · rfl
  | reschedule id d =>
    have hl := (h.modify id (f := fun x => { x with deadline := d }) fun _ => rfl).linked
    simp only [Agenda.check]
    split
    · next hs => exact hl.checkResift (h.linked.lt_size hs)
    · rfl
  | resift slot =>
    refine h.linked.checkResift (Nat.lt_of_not_le fun hle => ?_)
    exact hm (.outOfBounds slot) ⟨rfl, hle⟩
  | root | clear => rfl

theorem Consistent.foldl_apply {a : Agenda ι Unit} (h : a.Consistent) (cs : List (Command ι)) :
    (cs.foldl (fun a c => (a.apply c).2) a).Consistent := by
  induction cs generalizing a with
  | nil => exact h
  | cons c cs ih => exact ih (h.apply c)

theorem consistent_after (cs : List (Command ι)) : (after cs).Consistent :=
  consistent_empty.foldl_apply cs

/-- After every sequence of commands the ids in the slots are distinct, the slots hold the ids that
record them and no slot ends before its parent; and of any next command, a mistake is answered for
and changes nothing, and everything else finds what it looks for. -/
theorem sound_under_misuse (cs : List (Command ι)) :
    (after cs).slots.toList.Nodup ∧
    (∀ (i : Nat) (id : ι), (after cs).slots[i]? = some id ↔
      ∃ x, (after cs).items[id]? = some x ∧ x.position = some i) ∧
    (∀ (id : ι) (x : Item Unit), (after cs).items[id]? = some x → id ∉ (after cs).slots →
      x.position = none) ∧
    (∀ i, 0 < i → i < (after cs).size →
      ∃ x y, (after cs).itemAt? (parent i) = some x ∧ (after cs).itemAt? i = some y ∧
        x.deadline ≤ y.deadline) ∧
    ∀ c : Command ι,
      (∀ m, ((after cs).apply c).1 = .misuse m ↔ (after cs).Misuses c m) ∧
      (∀ m, (after cs).Misuses c m →
        after (cs ++ [c]) = after cs ∧ (after cs).check c = .error m.fault) ∧
      ((∀ m, ¬ (after cs).Misuses c m) → (after cs).check c = .ok ()) := by
  have h := consistent_after cs
  have hslot (i : Nat) (id : ι) : (after cs).slots[i]? = some id ↔
      ∃ x, (after cs).items[id]? = some x ∧ x.position = some i := by
    rw [h.linked, positionOf?, Option.bind_eq_some_iff]
  refine ⟨h.linked.nodup_slots, hslot, ?_, fun i => h.exists_parent_le, fun c =>
    ⟨fun m => ⟨h.linked.misuses_of_apply, fun hm => ?_⟩, fun m hm => ⟨?_, ?_⟩, h.check⟩⟩
  · intro id x hx hid
    rw [Option.eq_none_iff_forall_ne_some]
    intro i hi
    exact hid (Array.mem_of_getElem? ((hslot i id).2 ⟨x, hx, hi⟩))
  · rw [h.linked.apply_of_misuses hm]
  · rw [after_concat, h.linked.apply_of_misuses hm]
  · exact h.linked.check_of_misuses hm

/-- Two ids, and a mistake of each kind. -/
def mistaken : List (Command Nat) :=
  [.push 1 (.due 30), .push 2 (.due 10), .push 1 .never, .eraseAt 2, .resift 2, .pop,
    .reschedule 1 (.due 5)]

theorem sound_under_misuse_mistaken :
    after (mistaken ++ [.push 1 (.due 7)]) = after mistaken ∧
      (after mistaken).check (.push 1 (.due 7)) = .error .alreadyScheduled := by
  have hslot : (after mistaken).slots[0]? = some 1 := by decide +kernel
  exact ((sound_under_misuse mistaken).2.2.2.2 _).2.1 .alreadyScheduled ⟨0, hslot⟩

end ExpiringMap.Agenda
