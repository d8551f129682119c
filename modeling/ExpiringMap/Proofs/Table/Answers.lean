import ExpiringMap.Proofs.Table.Due

namespace ExpiringMap.Table

variable {ν : Type} {t : Table ν}

theorem isSome_get? (t : Table ν) (k : Key) : (t.get? k).isSome = (t.find? k).isSome :=
  Option.isSome_map

theorem erase_answer (t : Table ν) (k : Key) : (t.erase k).2 = (t.get? k).isSome := by
  rw [isSome_get?, erase]
  split
  · next hk => rw [hk]; rfl
  · next hk => rw [hk]; rfl

theorem keep_answer (t : Table ν) (k : Key) : (t.keep k).2 = (t.get? k).isSome := by
  rw [isSome_get?, keep]
  split
  · next hk => rw [hk]; rfl
  · next hk => rw [hk]; rfl

theorem reschedule_answer (t : Table ν) (k : Key) (d : Deadline) (now : Instant) :
    (t.reschedule k d now).2.1 = ((t.get? k).isSome && !d.hasPassed now) := by
  rw [isSome_get?]
  unfold reschedule
  split
  · next hk => rw [hk]; rfl
  · next hk => rw [keep_answer, isSome_get?, hk]; rfl
  · next hk =>
    rw [hk]
    split
    · next hd => simp [hd]
    · next hd => simp [hd]

theorem Consistent.contains_eq (h : t.Consistent) (k : Key) :
    t.contains k = (t.get? k).isSome := by
  rw [contains, Std.ExtTreeMap.contains_eq_isSome_getElem?, Bool.eq_iff_iff,
    Option.isSome_iff_ne_none, Option.isSome_iff_ne_none, ne_eq, ne_eq, h.get?_eq_none_iff]

/-- Where the entry of `k` may stand among the bindings `g`: first if no other ends before it,
behind if it never ends or another ends no later. -/
def Stands (g : Key → Option (ν × Deadline)) (k : Key) : Standing → Prop
  | .first => ∃ v e, g k = some (v, .due e) ∧ ∀ k' v' d, g k' = some (v', d) → .due e ≤ d
  | .behind => ∀ v e, g k = some (v, .due e) →
      ∃ k' v' e', k' ≠ k ∧ g k' = some (v', .due e') ∧ e' ≤ e

theorem Consistent.stands (h : t.Consistent) {k : Key} {id : Nat} (hk : t.index[k]? = some id) :
    Stands t.get? k (t.standing id) := by
  obtain ⟨v, d, hc⟩ := (h.index k id).1 hk
  have hget := h.get?_of_content? hc
  unfold standing
  split
  · next hid =>
    obtain ⟨x, hx, he⟩ := Option.map_eq_some_iff.1 hc
    have hr : t.agenda.root? = some (id, x) := Agenda.root?_eq_some_iff.2 ⟨hid, hx⟩
    obtain ⟨k', v', e, hp, -, -, hk', hmin⟩ := h.root?_spec hr
    rw [Prod.mk.injEq, hp, Entry.mk.injEq] at he
    exact ⟨v', e, he.1.1 ▸ hk', hmin⟩
  · next hid =>
    intro v' e hk'
    -- Something stands at the root, it ends no later, and it is another key's.
    cases hr : t.agenda.root? with
    | none => exact absurd (h.never_of_root?_eq_none hr hk') (by simp)
    | some r =>
      obtain ⟨k'', v'', e'', -, -, hk'', hget'', hmin⟩ := h.root?_spec hr
      refine ⟨k'', v'', e'', ?_, hget'', (Deadline.due_le_due _ _).1 (hmin _ _ _ hk')⟩
      rintro rfl
      rw [hk] at hk''
      obtain ⟨r, x⟩ := r
      rw [Option.some.injEq] at hk''
      exact hid (hk'' ▸ (Agenda.root?_eq_some_iff.1 hr).1)

theorem stands_behind {g : Key → Option (ν × Deadline)} {k : Key}
    (h : ∀ v e, g k ≠ some (v, .due e)) : Stands g k .behind :=
  fun v e hk => absurd hk (h v e)

theorem Consistent.putUntil_stands (h : t.Consistent) (k : Key) (v : ν) (d : Deadline) :
    Stands (t.putUntil k v d).1.get? k (t.putUntil k v d).2 := by
  have hb := h.putUntil k v d
  cases d with
  | never =>
    apply stands_behind
    simp [hb.get?_eq]
  | due e =>
    cases hk : t.find? k with
    | none =>
      simp only [Table.putUntil, hk, schedule] at hb ⊢
      apply hb.consistent.stands
      simp [add, onAgenda]
    | some r =>
      simp only [Table.putUntil, hk, schedule] at hb ⊢
      apply hb.consistent.stands
      exact (find?_eq_some_iff.1 hk).1

theorem Consistent.reschedule_stands (h : t.Consistent) (k : Key) (d : Deadline) (now : Instant) :
    Stands (t.reschedule k d now).1.get? k (t.reschedule k d now).2.2 := by
  have hb := h.reschedule k d now
  unfold Table.reschedule at hb ⊢
  split at hb
  · next hk =>
    apply stands_behind
    simp [find?_eq_none_iff.1 hk]
  · next hk =>
    apply stands_behind
    simp [hb.get?_eq, Option.bind_eq_some_iff, Deadline.hasPassed_never]
  · next id x e hk =>
    simp only at hb ⊢
    split at hb
    · next hd =>
      rw [if_pos hd]
      apply stands_behind
      simp [hb.get?_eq]
    · next hd =>
      rw [if_neg hd]
      apply hb.consistent.stands
      exact (find?_eq_some_iff.1 hk).1

end ExpiringMap.Table
