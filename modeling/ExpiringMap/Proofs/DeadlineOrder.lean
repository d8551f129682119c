import ExpiringMap.Deadline
import Mathlib.Order.Defs.LinearOrder

namespace ExpiringMap.Deadline

theorem lt_iff (a b : Deadline) : a < b ↔ a.before b = true := Iff.rfl

theorem le_iff (a b : Deadline) : a ≤ b ↔ b.before a = false := Iff.rfl

instance : LinearOrder Deadline where
  le_refl a := by
    rw [le_iff]
    cases a <;> simp [before]
  le_trans a b c hab hbc := by
    rw [le_iff] at *
    cases a <;> cases b <;> cases c <;> simp only [before, decide_eq_false_iff_not] at * <;> grind
  le_antisymm a b hab hba := by
    rw [le_iff] at *
    cases a <;> cases b <;> simp [before] at *
    exact Int.le_antisymm hab hba
  le_total a b := by
    rw [le_iff, le_iff]
    cases a <;> cases b <;> simp [before]
    exact Int.le_total _ _
  lt_iff_le_not_ge a b := by
    rw [lt_iff, le_iff, le_iff]
    cases a <;> cases b <;> simp [before]
    exact Int.le_of_lt
  toDecidableLE := inferInstance
  toDecidableEq := inferInstance
  toDecidableLT := inferInstance
  compare_eq_compareOfLessAndEq a b := rfl

@[simp] theorem due_le_due (s t : Instant) : due s ≤ due t ↔ s ≤ t := by
  simp [le_iff, before]

@[simp] theorem le_never (a : Deadline) : a ≤ never := rfl

@[simp] theorem not_never_le_due (t : Instant) : ¬ never ≤ due t := by
  simp [le_iff, before]

theorem ne_never_iff {d : Deadline} : d ≠ never ↔ ∃ t, d = due t := by
  cases d <;> simp

theorem hasPassed_iff (now : Instant) (d : Deadline) : d.hasPassed now = true ↔ d ≤ due now := by
  cases d <;> simp [hasPassed]

end ExpiringMap.Deadline
