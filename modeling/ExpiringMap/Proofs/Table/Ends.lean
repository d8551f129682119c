import ExpiringMap.Proofs.Table.Due
import Mathlib.Data.List.Nodup

namespace ExpiringMap.Table

open Std (ExtTreeMap)

variable {ν : Type}

/-- The instants at which entries end, one for each entry that does. -/
def ends (t : Table ν) : List Instant :=
  t.agenda.items.toList.filterMap (·.2.deadline.instant?)

namespace Consistent

variable {t : Table ν} (h : t.Consistent)

include h

theorem getElem?_index_of_item {id : Nat} {x : Item (Entry ν)}
    (hx : t.agenda.items[id]? = some x) : t.index[x.payload.key]? = some id :=
  (h.index _ id).2 ⟨x.payload.value, x.deadline, by simp [Agenda.content?, hx]⟩

theorem get?_of_item {id : Nat} {x : Item (Entry ν)} (hx : t.agenda.items[id]? = some x) :
    t.get? x.payload.key = some (x.payload.value, x.deadline) := by
  have hc : t.agenda.content? id = some (x.payload, x.deadline) := by simp [Agenda.content?, hx]
  exact h.get?_of_content? hc

theorem item_of_get? {k : Key} {v : ν} {d : Deadline} (hk : t.get? k = some (v, d)) :
    ∃ (id : Nat) (x : Item (Entry ν)),
      t.agenda.items[id]? = some x ∧ x.payload = ⟨k, v⟩ ∧ x.deadline = d := by
  obtain ⟨id, -, hc⟩ := h.get?_eq_some_iff.1 hk
  obtain ⟨x, hx, he⟩ := Option.map_eq_some_iff.1 hc
  rw [Prod.mk.injEq] at he
  exact ⟨id, x, hx, he⟩

theorem mem_ends_iff {e : Instant} : e ∈ t.ends ↔ ∃ k v, t.get? k = some (v, .due e) := by
  simp only [ends, List.mem_filterMap, Prod.exists, ExtTreeMap.mem_toList_iff_getElem?_eq_some]
  constructor
  · rintro ⟨id, x, hx, he⟩
    refine ⟨x.payload.key, x.payload.value, ?_⟩
    rw [h.get?_of_item hx]
    cases hd : x.deadline <;> simp_all [Deadline.instant?]
  · rintro ⟨k, v, hk⟩
    obtain ⟨id, x, hx, -, hd⟩ := h.item_of_get? hk
    exact ⟨id, x, hx, by rw [hd]; rfl⟩

theorem nextDue?_eq_min? : t.nextDue? = t.ends.min? := by
  ext e
  rw [h.nextDue?_eq_some_iff, List.min?_eq_some_iff, h.mem_ends_iff]
  refine and_congr Iff.rfl ⟨fun hmin e' he' => ?_, fun hmin k v d hk => ?_⟩
  · obtain ⟨k, v, hk⟩ := h.mem_ends_iff.1 he'
    exact (Deadline.due_le_due _ _).1 (hmin k v _ hk)
  · cases d with
    | due e' => exact (Deadline.due_le_due _ _).2 (hmin e' (h.mem_ends_iff.2 ⟨k, v, hk⟩))
    | never => exact Deadline.le_never _

theorem nodup_slots : t.agenda.slots.toList.Nodup := h.agenda.linked.nodup_slots

theorem slots_perm : t.agenda.slots.toList.Perm
    ((t.agenda.items.toList.filter fun p => p.2.deadline.instant?.isSome).map (·.1)) := by
  rw [List.perm_ext_iff_of_nodup h.nodup_slots]
  · intro id
    rw [Array.mem_toList_iff, Array.mem_iff_getElem?]
    simp only [h.agenda.linked _ id, ← Agenda.isScheduled_iff, List.mem_map, List.mem_filter,
      Prod.exists, ExtTreeMap.mem_toList_iff_getElem?_eq_some, exists_and_right, exists_eq_right]
    constructor
    · intro hs
      obtain ⟨i, hi⟩ := Agenda.isScheduled_iff.1 hs
      obtain ⟨x, hx, -⟩ := Option.bind_eq_some_iff.1 hi
      have hd := (h.scheduled id x.payload x.deadline (by simp [Agenda.content?, hx])).1 hs
      obtain ⟨e, he⟩ := Deadline.ne_never_iff.1 hd
      exact ⟨x, hx, by rw [he]; rfl⟩
    · rintro ⟨x, hx, hd⟩
      refine (h.scheduled id x.payload x.deadline (by simp [Agenda.content?, hx])).2 ?_
      intro he
      rw [he] at hd
      cases hd
  · have hkeys : (t.agenda.items.toList.map (·.1)).Nodup := by
      rw [ExtTreeMap.map_fst_toList_eq_keys]
      exact ExtTreeMap.nodup_keys
    exact hkeys.sublist (List.filter_sublist.map _)

theorem temporarySize_eq_length_ends : t.temporarySize = t.ends.length := by
  have hlen := h.slots_perm.length_eq
  rw [List.length_map, Array.length_toList] at hlen
  rw [temporarySize, Agenda.size, hlen, ends, List.length_filterMap_eq_countP,
    List.countP_eq_length_filter]

end Consistent

end ExpiringMap.Table
