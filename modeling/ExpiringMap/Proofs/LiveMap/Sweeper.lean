import ExpiringMap.LiveMap.Sweeper
import ExpiringMap.Proofs.Outbox.Operations
import ExpiringMap.Proofs.Table.Guards

namespace ExpiringMap

variable {ν : Type}

theorem Table.takeDue_eq_self {t : Table ν} {now : Instant} (h : (t.takeDue now).1 = []) :
    (t.takeDue now).2 = t := by
  revert h
  fun_cases takeDue t now with
  | case1 =>
    intro h
    cases h
  | case2 => exact fun _ => rfl
  | case3 => exact fun _ => rfl

namespace Phase

theorem ofItems_ne_waiting (xs : List (Expired ν)) (alarm? : Option Instant) :
    ofItems xs ≠ .waiting alarm? := by
  cases xs <;> simp [ofItems]

theorem ofItems_ne_done (xs : List (Expired ν)) : ofItems xs ≠ .done := by
  cases xs <;> simp [ofItems]

end Phase

namespace Sweeper

/-- What a look may come to, by what was due. -/
inductive Looked (now : Instant) (idlePoll : Span) (w : Watched ν) (s : Sweeper ν) :
    Watched ν → Sweeper ν → Prop
  | leaves (hl : s.leaving = true) : Looked now idlePoll w s w { s with phase := .done }
  | waits (hl : s.leaving = false) (hdue : (w.table.takeDue now).1 = []) :
      Looked now idlePoll w s w { s with phase := .waiting (alarm? w.table now idlePoll) }
  | drops (hl : s.leaving = false) (hdue : (w.table.takeDue now).1 ≠ [])
      (ho : s.outbox? = none) :
      Looked now idlePoll w s { w with table := (w.table.takeDue now).2 } s
  | hands {x xs} (hl : s.leaving = false) (hdue : (w.table.takeDue now).1 = x :: xs)
      (ho : s.outbox?.isSome) :
      Looked now idlePoll w s { w with table := (w.table.takeDue now).2 }
        { s with phase := .handing x xs }

theorem look?_cases {now : Instant} {idlePoll : Span} {w w' : Watched ν} {s s' : Sweeper ν}
    (h : s.look? now idlePoll w = some (w', s')) :
    s.phase = .looking ∧ Looked now idlePoll w s w' s' := by
  unfold look? at h
  split at h
  · next hp =>
    refine ⟨hp, ?_⟩
    split at h
    · next hl =>
      cases h
      exact .leaves hl
    · next hl =>
      rw [Bool.not_eq_true] at hl
      simp only at h
      split at h
      · next hdue =>
        cases h
        rw [Table.takeDue_eq_self hdue]
        exact .waits hl hdue
      · next hdue ho =>
        cases h
        rw [← hp]
        exact .drops hl (by rw [hdue]; simp) ho
      · next hdue ho =>
        cases h
        exact .hands hl hdue (by rw [ho]; rfl)
  · cases h

/-- What handing one item over may come to. -/
inductive Handed (s : Sweeper ν) (x : Expired ν) (rest : List (Expired ν)) : Sweeper ν → Prop
  | accepted {o} (ho : s.outbox? = some o) (hw : 0 < o.workers)
      (hroom : o.queued.length < o.capacity) :
      Handed s x rest
        { s with phase := .ofItems rest, outbox? := some { o with queued := o.queued ++ [x] } }
  | lost (h : s.outbox? = none ∨ ∃ o, s.outbox? = some o ∧ o.workers = 0) :
      Handed s x rest { s with phase := .looking, outbox? := none }

theorem hand?_cases {s s' : Sweeper ν} (h : s.hand? = some s') :
    ∃ x rest, s.phase = .handing x rest ∧ Handed s x rest s' := by
  unfold hand? at h
  split at h
  · next x rest hp =>
    refine ⟨x, rest, hp, ?_⟩
    split at h
    · next ho =>
      cases h
      rw [ho]
      exact .lost (.inl ho)
    · next o ho =>
      cases hr : o.offer x with
      | closed =>
        rw [hr] at h
        cases h
        exact .lost (.inr ⟨o, ho, Outbox.offer_eq_closed.1 hr⟩)
      | full =>
        rw [hr] at h
        cases h
      | accepted o' =>
        obtain ⟨hw, hroom, rfl⟩ := Outbox.offer_eq_accepted.1 hr
        rw [hr] at h
        cases h
        exact .accepted ho hw hroom
  · cases h

theorem release?_cases {now : Instant} {w w' : Watched ν} {s s' : Sweeper ν} {r : Release}
    (h : s.release? now w r = some (w', s')) :
    ∃ alarm?, s.phase = .waiting alarm? ∧ match r with
      | .leave => s.leaving = true ∧ w' = w ∧ s' = { s with phase := .done }
      | .wake => w.permit = true ∧ w' = { w with permit := false } ∧
          s' = { s with phase := .looking }
      | .timer => ∃ t, alarm? = some t ∧ t ≤ now ∧ w' = w ∧ s' = { s with phase := .looking } := by
  cases r with
  | leave =>
    simp only [release?] at h
    split at h
    · next alarm? hp =>
      split at h
      · next hl =>
        cases h
        exact ⟨alarm?, hp, hl, rfl, rfl⟩
      · cases h
    · cases h
  | wake =>
    simp only [release?] at h
    split at h
    · next alarm? hp =>
      split at h
      · next hw =>
        cases h
        exact ⟨alarm?, hp, hw, rfl, rfl⟩
      · cases h
    · cases h
  | timer =>
    simp only [release?] at h
    split at h
    · next t hp =>
      split at h
      · next ht =>
        cases h
        exact ⟨some t, hp, t, rfl, ht, rfl, rfl⟩
      · cases h
    · cases h

theorem take?_cases {s s' : Sweeper ν} {x : Expired ν} (h : s.take? = some (x, s')) :
    ∃ o xs, s.outbox? = some o ∧ 0 < o.workers ∧ o.queued = x :: xs ∧
      s' = { s with outbox? := some { o with queued := xs } } := by
  obtain ⟨o, ho, h⟩ := Option.bind_eq_some_iff.1 h
  obtain ⟨⟨y, o'⟩, ht, he⟩ := Option.map_eq_some_iff.1 h
  cases he
  obtain ⟨hw, xs, hq, rfl⟩ := Outbox.take?_eq_some.1 ht
  exact ⟨o, xs, ho, hw, hq, rfl⟩

theorem queued_of_outbox? {s : Sweeper ν} {o : Outbox (Expired ν)} (h : s.outbox? = some o) :
    s.queued = o.queued := by
  rw [queued, h]

theorem workers_of_outbox? {s : Sweeper ν} {o : Outbox (Expired ν)} (h : s.outbox? = some o) :
    s.workers = o.workers := by
  rw [workers, h]

theorem leaving_hand? {s s' : Sweeper ν} (h : s.hand? = some s') : s'.leaving = s.leaving := by
  obtain ⟨x, rest, -, h⟩ := hand?_cases h
  cases h with
  | accepted => rfl
  | lost => rfl

theorem leaving_look? {now : Instant} {idlePoll : Span} {w w' : Watched ν} {s s' : Sweeper ν}
    (h : s.look? now idlePoll w = some (w', s')) : s'.leaving = s.leaving := by
  obtain ⟨-, h⟩ := look?_cases h
  cases h with
  | leaves => rfl
  | waits => rfl
  | drops => rfl
  | hands => rfl

theorem leaving_release? {now : Instant} {w w' : Watched ν} {s s' : Sweeper ν} {r : Release}
    (h : s.release? now w r = some (w', s')) : s'.leaving = s.leaving := by
  obtain ⟨alarm?, -, h⟩ := release?_cases h
  cases r with
  | leave => rw [h.2.2]
  | wake => rw [h.2.2]
  | timer =>
    obtain ⟨t, -, -, -, rfl⟩ := h
    rfl

theorem leaving_take? {s s' : Sweeper ν} {x : Expired ν} (h : s.take? = some (x, s')) :
    s'.leaving = s.leaving := by
  obtain ⟨o, xs, -, -, -, rfl⟩ := take?_cases h
  rfl

end Sweeper

end ExpiringMap
