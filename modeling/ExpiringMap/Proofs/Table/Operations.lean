import ExpiringMap.Proofs.Table.Consistent

namespace ExpiringMap.Table.Consistent

variable {ν : Type} {t : Table ν} (h : t.Consistent)

include h

theorem put (k : Key) (v : ν) :
    (t.put k v).Binds (Function.update t.get? k (some (v, .never))) := by
  unfold Table.put
  split
  · next id x hk =>
    obtain ⟨hid, hc⟩ := h.content?_of_find? hk
    have ht := h.agenda.unschedule_modify_touches id
      (f := fun y => { y with payload := ⟨k, v⟩, deadline := .never })
      (g := fun _ => (⟨k, v⟩, .never)) (fun _ => rfl) (fun _ => rfl)
    apply h.binds_of_present hid
    refine ⟨?_, ?_, ?_, ?_, ?_⟩
    · simpa [onAgenda, agenda_pin, hc] using ht
    · simpa [onAgenda] using hid
    · simp [onAgenda]
    · simp [onAgenda]
    · simpa [onAgenda] using h.lt_fresh hid
  · next hk =>
    have ht := h.agenda.insert_touches (x := { payload := ⟨k, v⟩, deadline := .never })
      h.content?_fresh rfl
    apply h.binds_of_absent (find?_eq_none_iff.1 hk)
    refine ⟨?_, ?_, ?_, ?_, ?_⟩
    · simpa [add, countPermanent] using ht
    · simp [add, countPermanent]
    · intro j hj
      simp [add, countPermanent, Std.ExtTreeMap.getElem?_insert, Ne.symm hj]
    · simp [add, countPermanent]
    · simp [add, countPermanent]

theorem putUntil (k : Key) (v : ν) (d : Deadline) :
    (t.putUntil k v d).1.Binds (Function.update t.get? k (some (v, d))) := by
  unfold Table.putUntil
  split
  · exact h.put k v
  · next e id x hk =>
    obtain ⟨hid, hc⟩ := h.content?_of_find? hk
    have ht := h.agenda.modify_schedule_touches id
      (f := fun y => { y with payload := ⟨k, v⟩, deadline := .due e })
      (g := fun _ => (⟨k, v⟩, .due e)) (fun _ => rfl) (fun _ => rfl) (by rw [hc]; rfl)
    apply h.binds_of_present hid
    refine ⟨?_, ?_, ?_, ?_, ?_⟩
    · simpa [Table.schedule, onAgenda, hc] using ht
    · exact hid
    · exact fun _ _ => rfl
    · exact le_rfl
    · exact h.lt_fresh hid
  · next e hk =>
    have ht := h.agenda.insert_schedule_touches (x := { payload := ⟨k, v⟩, deadline := .due e })
      h.content?_fresh rfl
    apply h.binds_of_absent (find?_eq_none_iff.1 hk)
    refine ⟨?_, ?_, ?_, ?_, ?_⟩
    · simpa [add, Table.schedule, onAgenda] using ht
    · simp [add, Table.schedule, onAgenda]
    · intro j hj
      simp [add, Table.schedule, onAgenda, Std.ExtTreeMap.getElem?_insert, Ne.symm hj]
    · simp [add, Table.schedule, onAgenda]
    · simp [add, Table.schedule, onAgenda]

theorem discard {k : Key} {id : Nat} (hid : t.index[k]? = some id) :
    (t.discard id k).Binds (Function.update t.get? k none) := by
  have ht := h.agenda.unschedule_forget_touches id
  apply h.binds_of_present hid
  refine ⟨?_, ?_, ?_, ?_, ?_⟩
  · simpa [Table.discard] using ht
  · simp [Table.discard]
  · intro j hj
    simp [Table.discard, Std.ExtTreeMap.getElem?_erase, Ne.symm hj]
  · exact le_rfl
  · exact h.lt_fresh hid

theorem keep (k : Key) :
    (t.keep k).1.Binds (Function.update t.get? k ((t.get? k).map fun b => (b.1, .never))) := by
  unfold Table.keep
  split
  · next id x hk =>
    obtain ⟨hid, hc⟩ := h.content?_of_find? hk
    rw [h.get?_of_content? hc]
    split
    · have ht := h.agenda.unschedule_modify_touches id
        (f := fun y => { y with deadline := .never }) (g := fun c => (c.1, .never))
        (fun _ => rfl) (fun _ => rfl)
      apply h.binds_of_present hid
      refine ⟨?_, ?_, ?_, ?_, ?_⟩
      · simpa [onAgenda, agenda_pin, hc] using ht
      · simpa [onAgenda] using hid
      · simp [onAgenda]
      · simp [onAgenda]
      · simpa [onAgenda] using h.lt_fresh hid
    · next hoff =>
      have hd : x.deadline = .never := by
        rw [h.scheduled id _ _ hc] at hoff
        exact not_not.1 hoff
      refine ⟨h, fun j => ?_⟩
      rw [Option.map_some, ← hd, ← h.get?_of_content? hc, Function.update_eq_self]
  · next hk =>
    rw [find?_eq_none_iff] at hk
    rw [hk]
    exact h.binds_update hk

theorem erase (k : Key) : (t.erase k).1.Binds (Function.update t.get? k none) := by
  unfold Table.erase
  split
  · next id x hk => exact (h.discard (h.content?_of_find? hk).1).congr rfl rfl rfl
  · next hk => exact h.binds_update (find?_eq_none_iff.1 hk)

omit h in
theorem eraseMany {t : Table ν} (h : t.Consistent) (ks : List Key) :
    (t.eraseMany ks).1.Binds fun j => if j ∈ ks then none else t.get? j := by
  induction ks generalizing t with
  | nil => exact ⟨h, fun j => by simp [Table.eraseMany]⟩
  | cons k ks ih =>
    have hb := ih (h.erase k).consistent
    refine ⟨hb.consistent, fun j => ?_⟩
    rw [Table.eraseMany, hb.get?_eq, (h.erase k).get?_eq, Function.update_apply]
    by_cases hjk : j = k
    · simp [hjk]
    · simp [hjk]

theorem reschedule (k : Key) (d : Deadline) (now : Instant) :
    (t.reschedule k d now).1.Binds (Function.update t.get? k
      ((t.get? k).bind fun b => if d.hasPassed now then none else some (b.1, d))) := by
  unfold Table.reschedule
  split
  · next hk =>
    rw [find?_eq_none_iff] at hk
    rw [hk]
    exact h.binds_update hk
  · next id x hk =>
    have hb := h.keep k
    rw [h.get?_of_content? (h.content?_of_find? hk).2] at hb ⊢
    exact hb
  · next id x e hk =>
    obtain ⟨hid, hc⟩ := h.content?_of_find? hk
    rw [h.get?_of_content? hc, Option.bind_some]
    split
    · exact (h.discard hid).congr rfl rfl rfl
    · have ht := h.agenda.modify_schedule_touches id
        (f := fun y => { y with deadline := .due e }) (g := fun c => (c.1, .due e))
        (fun _ => rfl) (fun _ => rfl) (by rw [hc]; rfl)
      apply h.binds_of_present hid
      refine ⟨?_, ?_, ?_, ?_, ?_⟩
      · simpa [Table.schedule, onAgenda, hc] using ht
      · exact hid
      · exact fun _ _ => rfl
      · exact le_rfl
      · exact h.lt_fresh hid

end ExpiringMap.Table.Consistent
