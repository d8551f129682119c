import ExpiringMap.Proofs.Table.History
import ExpiringMap.Proofs.Table.Answers

namespace ExpiringMap.Table

variable {ν : Type} {t t' : Table ν} {alarm? : Option Instant}

def Guards (alarm? : Option Instant) (t : Table ν) : Prop :=
  ∀ k v e, t.get? k = some (v, .due e) → ∃ d, alarm? = some d ∧ d ≤ e

theorem Guards.nextDue? (hg : Guards alarm? t) (h : t.Consistent) {e : Instant}
    (he : t.nextDue? = some e) : ∃ d, alarm? = some d ∧ d ≤ e := by
  obtain ⟨⟨k, v, hk⟩, -⟩ := h.nextDue?_eq_some_iff.1 he
  exact hg k v e hk

/-- The next end guards a table, whatever stands in for it when there is none. -/
theorem Consistent.guards_nextDue? (h : t.Consistent) (other? : Option Instant) :
    Guards (t.nextDue?.or other?) t := by
  intro k v e hk
  cases hn : t.nextDue? with
  | none => exact absurd (h.nextDue?_eq_none_iff.1 hn k v _ hk) (by simp)
  | some d =>
    have hle := (h.nextDue?_eq_some_iff.1 hn).2 k v _ hk
    exact ⟨d, rfl, (Deadline.due_le_due _ _).1 hle⟩

theorem Guards.mono (hg : Guards alarm? t)
    (h : ∀ k v e, t'.get? k = some (v, .due e) → t.get? k = some (v, .due e)) :
    Guards alarm? t' := fun k v e hk => hg k v e (h k v e hk)

theorem Guards.update (hg : Guards alarm? t) {k : Key} {e : Option (ν × Deadline)}
    (hb : t'.Binds (Function.update t.get? k e)) (hs : Stands t'.get? k .behind) :
    Guards alarm? t' := by
  intro j v d hj
  by_cases hjk : j = k
  · subst hjk
    -- Another entry ends no later than this one, and that entry was there before.
    obtain ⟨k', v', d', hne, hk', hle⟩ := hs v d hj
    rw [hb.get?_eq, Function.update_of_ne hne] at hk'
    obtain ⟨a, ha, had⟩ := hg k' v' d' hk'
    exact ⟨a, ha, Int.le_trans had hle⟩
  · rw [hb.get?_eq, Function.update_of_ne hjk] at hj
    exact hg j v d hj

theorem Guards.update_never (hg : Guards alarm? t) {k : Key} {e : Option (ν × Deadline)}
    (hb : t'.Binds (Function.update t.get? k e)) (he : ∀ b, e = some b → b.2 = .never) :
    Guards alarm? t' := by
  apply hg.update hb
  apply stands_behind
  intro v d hk
  rw [hb.get?_eq, Function.update_self] at hk
  exact absurd (he _ hk) (by simp)

theorem Guards.put (hg : Guards alarm? t) (h : t.Consistent) (k : Key) (v : ν) :
    Guards alarm? (t.put k v) :=
  hg.update_never (h.put k v) (by simp)

theorem Guards.erase (hg : Guards alarm? t) (h : t.Consistent) (k : Key) :
    Guards alarm? (t.erase k).1 :=
  hg.update_never (h.erase k) (by simp)

theorem Guards.eraseMany (hg : Guards alarm? t) (h : t.Consistent) (ks : List Key) :
    Guards alarm? (t.eraseMany ks).1 := by
  induction ks generalizing t with
  | nil => exact hg
  | cons k ks ih => exact ih (hg.erase h k) (h.erase k).consistent

theorem Guards.clear (t : Table ν) : Guards alarm? t.clear := by
  intro k v e hk
  rw [(binds_clear t).get?_eq] at hk
  cases hk

theorem Guards.keep (hg : Guards alarm? t) (h : t.Consistent) (k : Key) :
    Guards alarm? (t.keep k).1 := by
  apply hg.update_never (h.keep k)
  intro b hb
  obtain ⟨_, -, rfl⟩ := Option.map_eq_some_iff.1 hb
  rfl

theorem Guards.takeDue (hg : Guards alarm? t) (h : t.Consistent) (now : Instant) :
    Guards alarm? (t.takeDue now).2 := by
  apply hg.mono
  intro k v e hk
  rw [(h.takeDue now).binds.get?_eq, Option.filter_eq_some_iff] at hk
  exact hk.1

theorem Guards.putUntil (hg : Guards alarm? t) (h : t.Consistent) {k : Key} {v : ν} {d : Deadline}
    (hs : (t.putUntil k v d).2 = .behind) : Guards alarm? (t.putUntil k v d).1 :=
  hg.update (h.putUntil k v d) (hs ▸ h.putUntil_stands k v d)

theorem Guards.reschedule (hg : Guards alarm? t) (h : t.Consistent) {k : Key} {d : Deadline}
    {now : Instant} (hs : (t.reschedule k d now).2.2 = .behind) :
    Guards alarm? (t.reschedule k d now).1 :=
  hg.update (h.reschedule k d now) (hs ▸ h.reschedule_stands k d now)

/-- What a reply says of the place on the agenda. Where it says nothing, no entry came first. -/
def Reply.place : Reply ν → Standing
  | .standing s | .rescheduled _ s => s
  | .done | .flag _ | .expired _ | .entry _ | .keys _ | .values _ | .visited _ => .behind

theorem Guards.apply (hg : Guards alarm? t) (h : t.Consistent) {c : Command ν}
    (hs : (t.apply c).1.place = .behind) : Guards alarm? (t.apply c).2 := by
  cases c with
  | put k v => exact hg.put h k v
  | putUntil k v d => exact hg.putUntil h hs
  | erase k => exact hg.erase h k
  | clear => exact Guards.clear t
  | keep k => exact hg.keep h k
  | reschedule k d now => exact hg.reschedule h hs
  | takeDue now => exact hg.takeDue h now
  | get | contains | keys | values | visit => exact hg

end ExpiringMap.Table
