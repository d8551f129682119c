import ExpiringMap.Outbox.Basic

namespace ExpiringMap.Outbox

variable {α : Type} {fatal : α → Bool} {o o' : Outbox α} {x : α}

theorem pos_of_refusal?_eq_none {capacity : Nat} (h : refusal? capacity = none) : 0 < capacity := by
  refine Nat.pos_of_ne_zero fun hz => ?_
  rw [refusal?, if_pos hz] at h
  cases h

theorem offer_eq_closed : o.offer x = .closed ↔ o.workers = 0 := by
  unfold offer
  grind

theorem offer_eq_full :
    o.offer x = .full ↔ 0 < o.workers ∧ o.capacity ≤ o.queued.length := by
  unfold offer
  grind

theorem offer_eq_accepted :
    o.offer x = .accepted o' ↔
      0 < o.workers ∧ o.queued.length < o.capacity ∧
        o' = { o with queued := o.queued ++ [x] } := by
  unfold offer
  grind

theorem take?_eq_some :
    o.take? = some (x, o') ↔
      0 < o.workers ∧ ∃ xs, o.queued = x :: xs ∧ o' = { o with queued := xs } := by
  obtain ⟨capacity, workers, queued⟩ := o
  cases workers <;> cases queued <;> grind [take?]

theorem take?_eq_none : o.take? = none ↔ o.workers = 0 ∨ o.queued = [] := by
  obtain ⟨capacity, workers, queued⟩ := o
  cases workers <;> cases queued <;> simp [take?]

theorem work?_eq_none : o.work? fatal = none ↔ o.workers = 0 ∨ o.queued = [] := by
  rw [work?, Option.map_eq_none_iff, take?_eq_none]

theorem work?_eq_some :
    o.work? fatal = some (x, o') ↔
      ∃ p, o.take? = some (x, p) ∧ o' = if fatal x then p.loseWorker else p := by
  simp only [work?, Option.map_eq_some_iff, Prod.exists, Prod.mk.injEq]
  constructor
  · rintro ⟨y, p, hp, rfl, rfl⟩
    exact ⟨p, hp, rfl⟩
  · rintro ⟨p, hp, rfl⟩
    exact ⟨x, p, hp, rfl, rfl⟩

theorem drain_of_none (h : o.work? fatal = none) : o.drain fatal = ([], o) := by
  rw [drain]
  split
  · next hs => rw [h] at hs; cases hs
  · rfl

theorem drain_of_some (h : o.work? fatal = some (x, o')) :
    o.drain fatal = (x :: (o'.drain fatal).1, (o'.drain fatal).2) := by
  rw [drain]
  split
  · next hs => rw [h] at hs; cases hs; rfl
  · next hs => rw [h] at hs; cases hs

/-- Workers run until none is left or nothing is queued. -/
theorem work?_drain (fatal : α → Bool) (o : Outbox α) :
    (o.drain fatal).2.work? fatal = none := by
  induction o using drain.induct fatal with
  | case1 o x o' h ih => rw [drain_of_some h]; exact ih
  | case2 o h => rw [drain_of_none h]; exact h

theorem capacity_drain (fatal : α → Bool) (o : Outbox α) :
    (o.drain fatal).2.capacity = o.capacity := by
  induction o using drain.induct fatal with
  | case1 o x o' h ih =>
    obtain ⟨p, hp, rfl⟩ := work?_eq_some.1 h
    obtain ⟨-, xs, -, rfl⟩ := take?_eq_some.1 hp
    rw [drain_of_some h, ih]
    cases fatal x <;> rfl
  | case2 o h => rw [drain_of_none h]

theorem offer_drain_ne_full (hcap : 0 < o.capacity) : (o.drain fatal).2.offer x ≠ .full := by
  rw [Ne, offer_eq_full, capacity_drain]
  rintro ⟨hw, hfull⟩
  have hq := (work?_eq_none.1 (work?_drain fatal o)).resolve_left (Nat.ne_of_gt hw)
  rw [hq] at hfull
  exact absurd hfull (Nat.not_le.2 hcap)

end ExpiringMap.Outbox
