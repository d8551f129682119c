import ExpiringMap.Proofs.Table.Bindings

namespace ExpiringMap.Table

open Std (ExtTreeMap)

variable {ν : Type}

theorem Binds.bindings_update {t t' : Table ν} {k : Key} {e : Option (ν × Deadline)}
    (h : t'.Binds (Function.update t.get? k e)) {b : Bindings ν}
    (hb : ∀ j, b[j]? = if compare k j = .eq then e else t.bindings[j]?) : t'.bindings = b := by
  apply h.bindings_eq
  intro j
  rw [hb, Function.update_apply, getElem?_bindings]
  simp [eq_comm (a := k)]

namespace Consistent

variable {t : Table ν} (h : t.Consistent)

include h

theorem bindings_put (k : Key) (v : ν) : (t.put k v).bindings = t.bindings.insert k (v, .never) :=
  (h.put k v).bindings_update fun _ => ExtTreeMap.getElem?_insert

theorem bindings_putUntil (k : Key) (v : ν) (d : Deadline) :
    (t.putUntil k v d).1.bindings = t.bindings.insert k (v, d) :=
  (h.putUntil k v d).bindings_update fun _ => ExtTreeMap.getElem?_insert

theorem bindings_erase (k : Key) : (t.erase k).1.bindings = t.bindings.erase k :=
  (h.erase k).bindings_update fun _ => ExtTreeMap.getElem?_erase

theorem bindings_keep (k : Key) :
    (t.keep k).1.bindings = t.bindings.modify k fun e => (e.1, .never) := by
  apply (h.keep k).bindings_update
  intro j
  rw [ExtTreeMap.getElem?_modify, getElem?_bindings]

theorem bindings_reschedule (k : Key) (d : Deadline) (now : Instant) :
    (t.reschedule k d now).1.bindings =
      if d.hasPassed now then t.bindings.erase k else t.bindings.modify k fun e => (e.1, d) := by
  apply (h.reschedule k d now).bindings_update
  intro j
  split
  · simp [ExtTreeMap.getElem?_erase]
  · rw [ExtTreeMap.getElem?_modify, getElem?_bindings, Option.map_eq_bind]
    rfl

theorem bindings_takeDue (now : Instant) :
    (t.takeDue now).2.bindings = t.bindings.filter fun _ e => !e.2.hasPassed now := by
  apply (h.takeDue now).binds.bindings_eq
  intro j
  rw [ExtTreeMap.getElem?_filter', getElem?_bindings]

theorem values_eq : t.values = t.bindings.map fun _ e => e.1 := by
  have hp := h.entries_perm
  have hkeys : t.entries.Pairwise fun a b => ¬ compare a.1 b.1 = .eq := by
    rw [hp.pairwise_iff fun hne he => hne (Std.OrientedCmp.eq_symm he), List.pairwise_map]
    exact t.bindings.distinct_keys_toList
  apply ExtTreeMap.ext_getElem?
  intro k
  rw [ExtTreeMap.getElem?_map, getElem?_bindings, values]
  cases hk : t.get? k with
  | none =>
    apply ExtTreeMap.getElem?_ofList_of_contains_eq_false
    rw [← Bool.not_eq_true, List.contains_iff_mem, (hp.map Prod.fst).mem_iff]
    simp [hk]
  | some e =>
    apply ExtTreeMap.getElem?_ofList_of_mem Std.ReflCmp.compare_self hkeys
    rw [hp.mem_iff, List.mem_map]
    exact ⟨(k, e), by simp [hk], rfl⟩

theorem bindings_apply (c : Command ν) : (t.apply c).2.bindings = t.bindings.apply c := by
  cases c with
  | put k v => exact h.bindings_put k v
  | putUntil k v d => exact h.bindings_putUntil k v d
  | erase k => exact h.bindings_erase k
  | clear => exact (binds_clear t).bindings_eq fun k => by simp [Bindings.apply]
  | keep k => exact h.bindings_keep k
  | reschedule k d now => exact h.bindings_reschedule k d now
  | takeDue now => exact h.bindings_takeDue now
  | get | contains | keys | values | visit => rfl

theorem answers_apply (c : Command ν) : t.bindings.Answers c (t.apply c).1 := by
  have hb := h.bindings_apply c
  have hget : (fun k => (t.bindings.apply c)[k]?) = (t.apply c).2.get? := by
    funext k
    rw [← hb, getElem?_bindings]
  have hcontains (k : Key) : t.bindings.contains k = (t.get? k).isSome := by
    rw [h.contains_bindings, h.contains_eq]
  cases c with
  | put k v => rfl
  | putUntil k v d =>
    refine ⟨_, rfl, ?_⟩
    rw [hget]
    exact h.putUntil_stands k v d
  | erase k => exact congrArg Reply.flag ((erase_answer t k).trans (hcontains k).symm)
  | clear => rfl
  | keep k => exact congrArg Reply.flag ((keep_answer t k).trans (hcontains k).symm)
  | reschedule k d now =>
    refine ⟨(t.reschedule k d now).2.2, ?_, ?_⟩
    · rw [hcontains, ← reschedule_answer]
      rfl
    · rw [hget]
      exact h.reschedule_stands k d now
  | takeDue now => exact ⟨_, rfl, h.expired_perm now, (h.takeDue now).sorted⟩
  | get k => exact congrArg Reply.entry (getElem?_bindings t k).symm
  | contains k => exact congrArg Reply.flag (h.contains_bindings k).symm
  | keys => exact congrArg Reply.keys h.keys_bindings.symm
  | values => exact congrArg Reply.values h.values_eq
  | visit v => exact ⟨_, rfl, h.entries_perm⟩

theorem bindings_foldl (cs : List (Command ν)) :
    (cs.foldl (fun t c => (t.apply c).2) t).bindings = cs.foldl Bindings.apply t.bindings := by
  induction cs generalizing t with
  | nil => rfl
  | cons c cs ih =>
    rw [List.foldl_cons, ih (h.apply c), h.bindings_apply c]
    rfl

end Consistent

theorem bindings_after (cs : List (Command ν)) : (after cs).bindings = Bindings.after cs := by
  rw [after, consistent_empty.bindings_foldl]
  rfl

/-- After every history the table holds the bindings that the same history of a map makes, the
next command has the effect and the reply that it has there, and the counts and the first end are
those of the map. -/
theorem history_refines (cs : List (Command ν)) :
    (∀ k, (after cs).get? k = (Bindings.after cs)[k]?) ∧
    (∀ c k, ((after cs).apply c).2.get? k = ((Bindings.after cs).apply c)[k]?) ∧
    (∀ c, (Bindings.after cs).Answers c ((after cs).apply c).1) ∧
    (after cs).size = (Bindings.after cs).size ∧
    (after cs).isEmpty = (Bindings.after cs).isEmpty ∧
    (after cs).temporarySize = (Bindings.after cs).ends.length ∧
    (after cs).nextDue? = (Bindings.after cs).ends.min? := by
  have h := consistent_after cs
  rw [← bindings_after]
  refine ⟨fun k => (getElem?_bindings _ k).symm, fun c k => ?_, h.answers_apply,
    h.size_bindings.symm, ?_, ?_, ?_⟩
  · rw [← h.bindings_apply, getElem?_bindings]
  · rw [isEmpty, ExtTreeMap.isEmpty_eq_size_beq_zero, ExtTreeMap.isEmpty_eq_size_beq_zero,
      h.size_bindings, size]
  · rw [h.temporarySize_eq_length_ends, h.ends_perm.length_eq]
  · rw [h.nextDue?_eq_min?]
    ext e
    rw [List.min?_eq_some_iff, List.min?_eq_some_iff, h.ends_perm.mem_iff]
    simp only [h.ends_perm.mem_iff]

end ExpiringMap.Table
