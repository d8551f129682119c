import ExpiringMap.Proofs.LiveMap.Sweeper

/-!
A sweeper among others. Between any two of its turns somebody may change the table, which is one
step, and leave the permit for a change that put an entry first, which is a later step of its own.
The clock may move at any time, and a sweeper may go on without a reason.

A sweeper that waits does not miss an entry: its alarm comes no later than the first end, or a
permit is there to release it, or a change has still to leave one.
-/

namespace ExpiringMap

structure Scene (ν : Type) where
  now : Instant
  watched : Watched ν
  sweeper : Sweeper ν
  /-- How many changes put an entry first and have not left their permit yet. -/
  owed : Nat

namespace Scene

variable {ν : Type} {idlePoll : Span}

/-- How many permits a change owes that left its entry there. -/
def permits : Standing → Nat
  | .first => 1
  | .behind => 0

inductive Step (idlePoll : Span) : Scene ν → Scene ν → Prop
  | look {s w sweeper} (h : s.sweeper.look? s.now idlePoll s.watched = some (w, sweeper)) :
      Step idlePoll s { s with watched := w, sweeper }
  | hand {s sweeper} (h : s.sweeper.hand? = some sweeper) : Step idlePoll s { s with sweeper }
  | release {s w sweeper} (r : Release)
      (h : s.sweeper.release? s.now s.watched r = some (w, sweeper)) :
      Step idlePoll s { s with watched := w, sweeper }
  /-- A waiting sweeper goes on without a reason. -/
  | stir {s alarm?} (h : s.sweeper.phase = .waiting alarm?) :
      Step idlePoll s { s with sweeper := { s.sweeper with phase := .looking } }
  | take {s x sweeper} (h : s.sweeper.take? = some (x, sweeper)) :
      Step idlePoll s { s with sweeper }
  | loseWorker {s} : Step idlePoll s { s with sweeper := s.sweeper.loseWorker }
  | leave {s} : Step idlePoll s { s with sweeper := s.sweeper.leave }
  | change {s} (c : Table.Command ν) :
      Step idlePoll s
        { s with
          watched := { s.watched with table := (s.watched.table.apply c).2 }
          owed := s.owed + permits (s.watched.table.apply c).1.place }
  | eraseMany {s} (ks : List Key) :
      Step idlePoll s
        { s with watched := { s.watched with table := (s.watched.table.eraseMany ks).1 } }
  | post {s n} (h : s.owed = n + 1) :
      Step idlePoll s { s with watched := s.watched.note .first, owed := n }
  | pass {s} (now : Instant) (h : s.now ≤ now) : Step idlePoll s { s with now }

/-- What comes about from a table with any history and a sweeper that has not looked yet. -/
inductive Reachable (idlePoll : Span) : Scene ν → Prop
  | start (now : Instant) (history : List (Table.Command ν)) (permit : Bool)
      (outbox? : Option (Outbox (Expired ν))) (owed : Nat) :
      Reachable idlePoll
        { now, watched := { table := Table.after history, permit }, sweeper := { outbox? }, owed }
  | step {s s'} (h : Reachable idlePoll s) (hs : Step idlePoll s s') : Reachable idlePoll s'

/-- The table is consistent, and a sweeper that waits will go on in time. -/
structure Alert (s : Scene ν) : Prop where
  consistent : s.watched.table.Consistent
  awake : ∀ alarm?, s.sweeper.phase = .waiting alarm? →
    s.watched.table.Guards alarm? ∨ s.watched.permit = true ∨ 0 < s.owed

theorem Alert.look {s : Scene ν} (h : s.Alert) {w : Watched ν} {sweeper : Sweeper ν}
    (hl : s.sweeper.look? s.now idlePoll s.watched = some (w, sweeper)) :
    ({ s with watched := w, sweeper } : Scene ν).Alert := by
  obtain ⟨hp, hl⟩ := Sweeper.look?_cases hl
  have hd := h.consistent.takeDue s.now
  cases hl with
  | leaves => exact ⟨h.consistent, by simp⟩
  | waits =>
    refine ⟨h.consistent, fun alarm? ha => .inl ?_⟩
    cases ha
    exact h.consistent.guards_nextDue? _
  | drops => exact ⟨hd.binds.consistent, by simp [hp]⟩
  | hands => exact ⟨hd.binds.consistent, by simp⟩

theorem Alert.hand {s : Scene ν} (h : s.Alert) {sweeper : Sweeper ν}
    (hh : s.sweeper.hand? = some sweeper) : ({ s with sweeper } : Scene ν).Alert := by
  obtain ⟨x, rest, -, hh⟩ := Sweeper.hand?_cases hh
  cases hh with
  | accepted =>
    exact ⟨h.consistent, fun alarm? hp => absurd hp (Phase.ofItems_ne_waiting rest alarm?)⟩
  | lost => exact ⟨h.consistent, by simp⟩

theorem Alert.release {s : Scene ν} (h : s.Alert) {w : Watched ν} {sweeper : Sweeper ν}
    {r : Release} (hr : s.sweeper.release? s.now s.watched r = some (w, sweeper)) :
    ({ s with watched := w, sweeper } : Scene ν).Alert := by
  obtain ⟨alarm?, -, hr⟩ := Sweeper.release?_cases hr
  cases r with
  | leave =>
    obtain ⟨-, rfl, rfl⟩ := hr
    exact ⟨h.consistent, by simp⟩
  | wake =>
    obtain ⟨-, rfl, rfl⟩ := hr
    exact ⟨h.consistent, by simp⟩
  | timer =>
    obtain ⟨t, -, -, rfl, rfl⟩ := hr
    exact ⟨h.consistent, by simp⟩

/-- A change that puts no entry first leaves a guard one, and any other owes a permit. -/
theorem Alert.change {s : Scene ν} (h : s.Alert) (c : Table.Command ν) :
    ({ s with
        watched := { s.watched with table := (s.watched.table.apply c).2 }
        owed := s.owed + permits (s.watched.table.apply c).1.place } : Scene ν).Alert := by
  refine ⟨h.consistent.apply c, fun alarm? ha => ?_⟩
  cases hs : (s.watched.table.apply c).1.place with
  | first => exact .inr (.inr (Nat.succ_pos _))
  | behind => exact (h.awake alarm? ha).imp_left fun hg => hg.apply h.consistent hs

theorem Alert.step {s s' : Scene ν} (h : s.Alert) (hs : Step idlePoll s s') : s'.Alert := by
  cases hs with
  | look hl => exact h.look hl
  | hand hh => exact h.hand hh
  | release r hr => exact h.release hr
  | stir hp => exact ⟨h.consistent, by simp⟩
  | take ht =>
    obtain ⟨o, xs, -, -, -, rfl⟩ := Sweeper.take?_cases ht
    exact ⟨h.consistent, h.awake⟩
  | loseWorker => exact ⟨h.consistent, h.awake⟩
  | leave => exact ⟨h.consistent, h.awake⟩
  | change c => exact h.change c
  | eraseMany ks =>
    refine ⟨(h.consistent.eraseMany ks).consistent, fun alarm? ha => ?_⟩
    exact (h.awake alarm? ha).imp_left fun hg => hg.eraseMany h.consistent ks
  | post hn => exact ⟨h.consistent, fun _ _ => .inr (.inl rfl)⟩
  | pass now hle => exact ⟨h.consistent, h.awake⟩

theorem Reachable.alert {s : Scene ν} (h : Reachable idlePoll s) : s.Alert := by
  induction h with
  | start now history permit outbox? owed => exact ⟨Table.consistent_after history, by simp⟩
  | step _ hs ih => exact ih.step hs

/-- However the steps are interleaved, the alarm of a sweeper that waits is no later than the first
end, or there is a permit, or one is owed. So when an entry has ended by now, its timer has run out,
or the permit lets it go on, or a permit is still to come. -/
theorem no_missed_wake {s : Scene ν} (h : Reachable idlePoll s) {alarm? : Option Instant}
    (hp : s.sweeper.phase = .waiting alarm?) {e : Instant}
    (he : s.watched.table.nextDue? = some e) :
    ((∃ d, alarm? = some d ∧ d ≤ e) ∨ s.watched.permit = true ∨ 0 < s.owed) ∧
    (e ≤ s.now → (s.sweeper.release? s.now s.watched .timer).isSome ∨
      (s.sweeper.release? s.now s.watched .wake).isSome ∨ 0 < s.owed) := by
  have ha := (h.alert.awake alarm? hp).imp_left fun hg => hg.nextDue? h.alert.consistent he
  refine ⟨ha, fun hnow => ha.imp ?_ (.imp_left ?_)⟩
  · rintro ⟨d, rfl, hde⟩
    simp [Sweeper.release?, hp, Int.le_trans hde hnow]
  · intro hw
    simp [Sweeper.release?, hp, hw]

/-- A sweeper that waits for the one entry there is. -/
def vigil : Scene Unit where
  now := 0
  watched := { table := Table.after [.putUntil "k" () (.due 5)] }
  sweeper := { phase := .waiting (some 5) }
  owed := 0

theorem nextDue?_vigil : vigil.watched.table.nextDue? = some 5 := by decide +kernel

theorem reachable_vigil : Reachable Span.second vigil := by
  have hdue : (vigil.watched.table.takeDue 0).1 = [] := by decide +kernel
  have hlook : Sweeper.look? 0 Span.second vigil.watched {} =
      some (vigil.watched, vigil.sweeper) := by
    simp only [Sweeper.look?, hdue, Table.takeDue_eq_self hdue, Sweeper.alarm?, nextDue?_vigil]
    rfl
  exact .step (.start 0 [.putUntil "k" () (.due 5)] false none 0) (.look hlook)

theorem no_missed_wake_vigil :
    ((∃ d : Instant, some 5 = some d ∧ d ≤ 5) ∨ vigil.watched.permit = true ∨ 0 < vigil.owed) ∧
    (5 ≤ vigil.now → (vigil.sweeper.release? vigil.now vigil.watched .timer).isSome ∨
      (vigil.sweeper.release? vigil.now vigil.watched .wake).isSome ∨ 0 < vigil.owed) :=
  no_missed_wake reachable_vigil rfl nextDue?_vigil

end Scene

end ExpiringMap
