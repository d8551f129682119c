import ExpiringMap.Proofs.Table.Checks
import ExpiringMap.Proofs.Table.Ends

namespace ExpiringMap.Table

variable {ν : Type}

theorem Consistent.apply {t : Table ν} (h : t.Consistent) (c : Command ν) :
    (t.apply c).2.Consistent := by
  cases c with
  | put k v => exact (h.put k v).consistent
  | putUntil k v d => exact (h.putUntil k v d).consistent
  | erase k => exact (h.erase k).consistent
  | clear => exact (binds_clear t).consistent
  | keep k => exact (h.keep k).consistent
  | reschedule k d now => exact (h.reschedule k d now).consistent
  | takeDue now => exact (h.takeDue now).binds.consistent
  | get | contains | keys | values | visit => exact h

theorem Consistent.foldl_apply {t : Table ν} (h : t.Consistent) (cs : List (Command ν)) :
    (cs.foldl (fun t c => (t.apply c).2) t).Consistent := by
  induction cs generalizing t with
  | nil => exact h
  | cons c cs ih => exact ih (h.apply c)

theorem Consistent.foldlM_check {t : Table ν} (h : t.Consistent) (cs : List (Command ν)) :
    cs.foldlM (fun t c => do t.check c; return (t.apply c).2) t =
      .ok (cs.foldl (fun t c => (t.apply c).2) t) := by
  induction cs generalizing t with
  | nil => rfl
  | cons c cs ih =>
    rw [List.foldlM_cons, h.check c]
    exact ih (h.apply c)

theorem consistent_after (cs : List (Command ν)) : (after cs).Consistent :=
  consistent_empty.foldl_apply cs

/-- After every history the index and the entries point at each other, an entry has a position if
and only if it ends at an instant, the slots hold the ids that record them, no slot ends before its
parent, the table answers the least end and the number of ends, and no check has failed. -/
theorem history_sound (cs : List (Command ν)) :
    (∀ (k : Key) (id : Nat), (after cs).index[k]? = some id ↔
      ∃ x, (after cs).agenda.items[id]? = some x ∧ x.payload.key = k) ∧
    (∀ (id : Nat) (x : Item (Entry ν)), (after cs).agenda.items[id]? = some x →
      (x.position.isSome ↔ x.deadline ≠ .never)) ∧
    (after cs).agenda.slots.toList.Nodup ∧
    (∀ (i id : Nat), (after cs).agenda.slots[i]? = some id ↔
      ∃ x, (after cs).agenda.items[id]? = some x ∧ x.position = some i) ∧
    (∀ i, 0 < i → i < (after cs).agenda.size →
      ∃ x y, (after cs).agenda.itemAt? (Agenda.parent i) = some x ∧
        (after cs).agenda.itemAt? i = some y ∧ x.deadline ≤ y.deadline) ∧
    (after cs).nextDue? = (after cs).ends.min? ∧
    (after cs).temporarySize = (after cs).ends.length ∧
    run cs = .ok (after cs) := by
  have h := consistent_after cs
  refine ⟨fun k id => ⟨fun hk => ?_, ?_⟩, fun id x hx => ?_, h.nodup_slots, fun i id => ?_,
    fun i hpos hi => ?_, h.nextDue?_eq_min?, h.temporarySize_eq_length_ends,
    consistent_empty.foldlM_check cs⟩
  · obtain ⟨v, d, hc⟩ := (h.index k id).1 hk
    obtain ⟨x, hx, he⟩ := Option.map_eq_some_iff.1 hc
    rw [Prod.mk.injEq] at he
    exact ⟨x, hx, by rw [he.1]⟩
  · rintro ⟨x, hx, rfl⟩
    exact h.getElem?_index_of_item hx
  · rw [← h.scheduled id x.payload x.deadline (by simp [Agenda.content?, hx])]
    simp [Agenda.isScheduled, Agenda.positionOf?, hx]
  · rw [h.agenda.linked, Agenda.positionOf?, Option.bind_eq_some_iff]
  · have hp := Agenda.parent_lt hpos
    obtain ⟨x, hx⟩ := h.agenda.linked.exists_itemAt? (hp.trans hi)
    obtain ⟨y, hy⟩ := h.agenda.linked.exists_itemAt? hi
    refine ⟨x, y, hx, hy, ?_⟩
    have hle := h.agenda.inOrder i hpos hi
    simpa [Agenda.endAt, hx, hy] using hle

end ExpiringMap.Table
