import ExpiringMap.Proofs.Table.Bindings
import Mathlib.Data.List.Perm.Subperm

namespace ExpiringMap.Table

variable {ν : Type} {t t' : Table ν} {now : Instant}

def dueKeys (t : Table ν) (now : Instant) : List Key := (t.takeDue now).1.map (·.key)

namespace Consistent

variable (h : t.Consistent)

include h

theorem dueCount_eq_length (now : Instant) : t.dueCount now = (t.takeDue now).1.length := by
  rw [(h.expired_perm now).length_eq, Bindings.expired,
    (h.toList_bindings_perm.filterMap _).length_eq, List.filterMap_map,
    List.length_filterMap_eq_countP, dueCount]
  congr 1
  funext p
  cases hd : p.2.deadline with
  | never => simp [Deadline.hasPassed, Deadline.instant?, hd]
  | due e =>
    by_cases he : e ≤ now
    · simp [Deadline.hasPassed, Deadline.instant?, hd, he]
    · simp [Deadline.hasPassed, Deadline.instant?, hd, he]

theorem dueCount_eq (now : Instant) : t.dueCount now = (t.dueKeys now).length := by
  rw [h.dueCount_eq_length, dueKeys, List.length_map]

theorem mem_dueKeys_iff {k : Key} :
    k ∈ t.dueKeys now ↔ ∃ b, t.get? k = some b ∧ b.2.hasPassed now = true := by
  rw [dueKeys, List.mem_map]
  constructor
  · rintro ⟨x, hx, rfl⟩
    rw [(h.takeDue now).mem_iff] at hx
    exact ⟨_, hx.1, (Deadline.hasPassed_due now x.due).2 hx.2⟩
  · rintro ⟨⟨v, d⟩, hk, hd⟩
    cases d with
    | never => cases hd
    | due e =>
      refine ⟨⟨k, v, e⟩, ?_, rfl⟩
      rw [(h.takeDue now).mem_iff]
      exact ⟨hk, (Deadline.hasPassed_due now e).1 hd⟩

theorem dueCount_eq_zero_iff :
    t.dueCount now = 0 ↔ ∀ k v d, t.get? k = some (v, d) → d.hasPassed now = false := by
  rw [h.dueCount_eq, List.length_eq_zero_iff, List.eq_nil_iff_forall_not_mem]
  constructor
  · intro hnone k v d hk
    rw [Bool.eq_false_iff]
    intro hd
    exact hnone k (h.mem_dueKeys_iff.2 ⟨(v, d), hk, hd⟩)
  · intro hnone k hk
    obtain ⟨b, hb, hd⟩ := h.mem_dueKeys_iff.1 hk
    rw [hnone k b.1 b.2 hb] at hd
    cases hd

theorem takeDue_eq_nil_iff :
    (t.takeDue now).1 = [] ↔ ∀ k v d, t.get? k = some (v, d) → d.hasPassed now = false := by
  rw [← h.dueCount_eq_zero_iff, h.dueCount_eq_length, List.length_eq_zero_iff]

theorem dueCount_takeDue (now : Instant) : (t.takeDue now).2.dueCount now = 0 := by
  have hd := h.takeDue now
  rw [hd.binds.consistent.dueCount_eq_zero_iff]
  intro k v d hk
  rw [hd.binds.get?_eq, Option.filter_eq_some_iff] at hk
  simpa using hk.2

/-- If all that is due now, but for what is in `ks`, was due before, the count grows by no more than
their number. -/
theorem dueCount_le (h' : t'.Consistent) (ks : List Key)
    (hsub : ∀ k ∈ t'.dueKeys now, k ∈ ks ∨ k ∈ t.dueKeys now) :
    t'.dueCount now ≤ t.dueCount now + ks.length := by
  have hle := (List.subperm_of_subset (h'.takeDue now).nodup
    fun k hk => List.mem_append.2 (hsub k hk)).length_le
  rw [h'.dueCount_eq, h.dueCount_eq]
  rw [List.length_append] at hle
  exact hle.trans_eq (Nat.add_comm _ _)

theorem dueCount_update_le {k : Key} {e : Option (ν × Deadline)}
    (hb : t'.Binds (Function.update t.get? k e)) : t'.dueCount now ≤ t.dueCount now + 1 := by
  apply h.dueCount_le hb.consistent [k]
  intro j hj
  obtain ⟨b, hjb, hd⟩ := hb.consistent.mem_dueKeys_iff.1 hj
  by_cases hjk : j = k
  · exact .inl (List.mem_singleton.2 hjk)
  · rw [hb.get?_eq, Function.update_of_ne hjk] at hjb
    exact .inr (h.mem_dueKeys_iff.2 ⟨b, hjb, hd⟩)

theorem dueCount_update_le_of_not_due {k : Key} {e : Option (ν × Deadline)}
    (hb : t'.Binds (Function.update t.get? k e))
    (he : ∀ b, e = some b → b.2.hasPassed now = false) : t'.dueCount now ≤ t.dueCount now := by
  apply h.dueCount_le hb.consistent []
  intro j hj
  obtain ⟨b, hjb, hd⟩ := hb.consistent.mem_dueKeys_iff.1 hj
  by_cases hjk : j = k
  · subst hjk
    rw [hb.get?_eq, Function.update_self] at hjb
    rw [he b hjb] at hd
    cases hd
  · rw [hb.get?_eq, Function.update_of_ne hjk] at hjb
    exact .inr (h.mem_dueKeys_iff.2 ⟨b, hjb, hd⟩)

theorem dueCount_eraseMany_le (ks : List Key) :
    (t.eraseMany ks).1.dueCount now ≤ t.dueCount now := by
  induction ks generalizing t with
  | nil => exact le_rfl
  | cons k ks ih =>
    exact (ih (h.erase k).consistent).trans
      (h.dueCount_update_le_of_not_due (h.erase k) (by simp))

end Consistent

theorem dueCount_clear (t : Table ν) (now : Instant) : t.clear.dueCount now = 0 := by
  rw [(binds_clear t).consistent.dueCount_eq_zero_iff]
  intro k v d hk
  rw [(binds_clear t).get?_eq] at hk
  cases hk

end ExpiringMap.Table
