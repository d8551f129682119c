import ExpiringMap.Proofs.LiveMap.Alike
import ExpiringMap.Proofs.Table.Batches

namespace ExpiringMap.LiveMap

variable {ν : Type} {m n : LiveMap ν} {t : Turn}

/-- What is due and the table without it, if there is a sweeper to take it out. -/
def sweep (m : LiveMap ν) : List (Expired ν) × Table ν :=
  if m.isRunning then m.table.takeDue m.now else ([], m.table)

theorem Alike.sweep (h : Alike m n) : m.sweep = n.sweep := by
  unfold LiveMap.sweep
  rw [h.isRunning, h.table, h.now]

theorem Orderly.isRunning_turn (ho : m.Orderly t) (hnone : m.callsOf (.turn t) = []) :
    (m.turn t).isRunning = m.isRunning := by
  cases hr : m.isRunning with
  | true => exact ho.turned.isRunning hr
  | false =>
    refine isRunning_turned_eq_false hr ho.turned fun c hc => ?_
    rw [hnone] at hc
    cases hc

/-- A turn in which nobody makes a call takes everything out that is due, or nothing. -/
theorem Sound.sweep_turn (hm : m.Sound) (ho : m.Orderly t) (hnone : m.callsOf (.turn t) = []) :
    m.sweep = (m.taken (.turn t) ++ (m.turn t).sweep.1, (m.turn t).sweep.2) ∧
      (m.taken (.turn t) = [] ∨ (m.turn t).sweep.1 = []) := by
  have hr := ho.isRunning_turn hnone
  have hnow : (m.turn t).now = m.now := congrArg Instant.ofMillis (m.clock_turn t)
  unfold sweep
  rw [hr, hnow]
  have hacted : m.Acted (.turn t) (m.turn t).table := hm.acted ho
  cases hacted with
  | @calls m₁ h₁ hsame ht htaken =>
    have htable : (m.turn t).table = m.table := by
      rw [ht, hnone]
      exact hsame
    rw [htable, htaken]
    exact ⟨rfl, .inl rfl⟩
  | takes ht htaken hrun =>
    rw [if_pos hrun, if_pos hrun, ht, htaken, Table.takeDue_takeDue _ le_rfl, List.append_nil]
    exact ⟨rfl, .inr rfl⟩

theorem Sound.sweep_of_isAtRest (hm : m.Sound) (hr : m.isAtRest = true) :
    m.sweep = ([], m.table) := by
  unfold sweep
  split
  · next hrun =>
    have hnil : (m.table.takeDue m.now).1 = [] := by
      refine hm.consistent.takeDue_eq_nil_iff.2 fun k v d hk => ?_
      cases d with
      | never => rfl
      | due e =>
        rw [Bool.eq_false_iff, ne_eq, Deadline.hasPassed_due]
        exact Int.not_le.2 (hm.lt_due hr hrun hk)
    exact Prod.ext hnil (Table.takeDue_eq_self hnil)
  · rfl

end ExpiringMap.LiveMap
