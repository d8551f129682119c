import ExpiringMap.Proofs.LiveMap.Measure

/-!
What the alarms of waiting sweepers have to do with their turns: nothing but whether they have gone
off. So an alarm can be set anew without anybody noticing, as long as it has gone off afterwards if
and only if it had before.
-/

namespace ExpiringMap

variable {ν : Type}

def Phase.realarm (g : Option Instant → Option Instant) : Phase ν → Phase ν
  | .waiting alarm? => .waiting (g alarm?)
  | .looking => .looking
  | .handing x rest => .handing x rest
  | .done => .done

namespace Sweeper

def realarm (g : Option Instant → Option Instant) (s : Sweeper ν) : Sweeper ν :=
  { s with phase := s.phase.realarm g }

/-- All there is to know of an alarm. -/
def goneOff (now : Instant) (alarm? : Option Instant) : Option Instant :=
  if alarm?.any (· ≤ now) then some now else none

theorem any_goneOff (now : Instant) (alarm? : Option Instant) :
    (goneOff now alarm?).any (· ≤ now) = alarm?.any (· ≤ now) := by
  unfold goneOff
  split
  · next h => rw [h, Option.any_some, decide_eq_true_iff.2 (Int.le_refl now)]
  · next h => rw [Bool.not_eq_true] at h; rw [h]; rfl

theorem goneOff_congr {now : Instant} {a b : Option Instant}
    (h : a.any (· ≤ now) = b.any (· ≤ now)) : goneOff now a = goneOff now b := by
  rw [goneOff, h, goneOff]

/-- Makes an alarm go off if it has not. -/
def goOff (now : Instant) (alarm? : Option Instant) : Option Instant :=
  if alarm?.any (· ≤ now) then alarm? else some now

theorem goneOff_goOff (now : Instant) (alarm? : Option Instant) :
    goneOff now (goOff now alarm?) = some now := by
  unfold goOff
  split
  · next h => rw [goneOff, if_pos h]
  · simp [goneOff]

/-- An alarm that is made to go off does so before any entry ends that it was to guard. -/
theorem guards_goOff {alarm? : Option Instant} {t : Table ν} (h : t.Guards alarm?)
    (now : Instant) : t.Guards (goOff now alarm?) := by
  intro k v e hk
  obtain ⟨a, rfl, hae⟩ := h k v e hk
  unfold goOff
  split
  · exact ⟨a, rfl, hae⟩
  · next hlate =>
    have hlt : now < a := by simpa using hlate
    exact ⟨now, rfl, Int.le_trans (Int.le_of_lt hlt) hae⟩

variable (g : Option Instant → Option Instant) (s : Sweeper ν)

theorem realarm_realarm (g' : Option Instant → Option Instant) :
    (s.realarm g).realarm g' = s.realarm (g' ∘ g) := by
  obtain ⟨phase, leaving, outbox?⟩ := s
  cases phase <;> rfl

@[simp] theorem outbox?_realarm : (s.realarm g).outbox? = s.outbox? := rfl

@[simp] theorem queued_realarm : (s.realarm g).queued = s.queued := rfl

@[simp] theorem workers_realarm : (s.realarm g).workers = s.workers := rfl

@[simp] theorem batch_realarm : (s.realarm g).batch = s.batch := by
  obtain ⟨phase, leaving, outbox?⟩ := s
  cases phase <;> rfl

@[simp] theorem isLooking_realarm : (s.realarm g).isLooking = s.isLooking := by
  obtain ⟨phase, leaving, outbox?⟩ := s
  cases phase <;> rfl

@[simp] theorem isFinished_realarm : (s.realarm g).isFinished = s.isFinished := by
  obtain ⟨phase, leaving, outbox?⟩ := s
  cases phase <;> rfl

theorem phase_realarm_eq_looking_iff : (s.realarm g).phase = .looking ↔ s.phase = .looking := by
  obtain ⟨phase, leaving, outbox?⟩ := s
  cases phase <;> simp [realarm, Phase.realarm]

theorem phase_realarm_eq_done_iff : (s.realarm g).phase = .done ↔ s.phase = .done := by
  obtain ⟨phase, leaving, outbox?⟩ := s
  cases phase <;> simp [realarm, Phase.realarm]

theorem phase_realarm_of_waiting {alarm? : Option Instant} (hp : s.phase = .waiting alarm?) :
    (s.realarm g).phase = .waiting (g alarm?) := by
  rw [realarm, hp, Phase.realarm]

theorem map_realarm_congr {g g' : Option Instant → Option Instant} {ss : List (Sweeper ν)}
    (h : ∀ s ∈ ss, ∀ alarm?, s.phase = .waiting alarm? → g alarm? = g' alarm?) :
    ss.map (·.realarm g) = ss.map (·.realarm g') := by
  apply List.map_congr_left
  intro s hs
  cases hp : s.phase with
  | waiting alarm? => simp only [realarm, hp, Phase.realarm, h s hs alarm? hp]
  | looking => simp only [realarm, hp, Phase.realarm]
  | handing x rest => simp only [realarm, hp, Phase.realarm]
  | done => simp only [realarm, hp, Phase.realarm]

theorem hand?_realarm : (s.realarm g).hand? = s.hand?.map (·.realarm g) := by
  obtain ⟨phase, leaving, outbox?⟩ := s
  cases phase with
  | handing x rest =>
    cases outbox? with
    | none => rfl
    | some o =>
      simp only [hand?, realarm, Phase.realarm]
      cases o.offer x with
      | accepted o => cases rest <;> rfl
      | full => rfl
      | closed => rfl
  | looking => rfl
  | waiting => rfl
  | done => rfl

theorem take?_realarm : (s.realarm g).take? = s.take?.map fun p => (p.1, p.2.realarm g) := by
  cases ho : s.outbox? with
  | none => simp [take?, ho]
  | some o => cases ht : o.take? <;> simp [take?, ho, ht, realarm]

theorem look?_realarm (now : Instant) (idlePoll : Span) (w : Watched ν) :
    (s.realarm g).look? now idlePoll w = s.look? now idlePoll w := by
  obtain ⟨phase, leaving, outbox?⟩ := s
  cases phase <;> rfl

theorem release?_timer {alarm? : Option Instant} (hp : s.phase = .waiting alarm?) (now : Instant)
    (w : Watched ν) :
    s.release? now w .timer =
      if alarm?.any (· ≤ now) then some (w, { s with phase := .looking }) else none := by
  cases alarm? with
  | none => simp [release?, hp]
  | some a => simp [release?, hp]

variable {g}

theorem release?_realarm {now : Instant} (hg : ∀ a, (g a).any (· ≤ now) = a.any (· ≤ now))
    (w : Watched ν) (r : Release) :
    (s.realarm g).release? now w r =
      (s.release? now w r).map fun p => (p.1, p.2.realarm g) := by
  obtain ⟨phase, leaving, outbox?⟩ := s
  cases phase with
  | waiting alarm? =>
    cases r with
    | leave => cases leaving <;> rfl
    | wake => cases hw : w.permit <;> simp [release?, realarm, Phase.realarm, hw]
    | timer =>
      rw [release?_timer _ rfl, release?_timer _ rfl, hg]
      split
      · rfl
      · rfl
  | looking => cases r <;> rfl
  | handing x rest => cases r <;> rfl
  | done => cases r <;> rfl

theorem phaseTurns_realarm {now : Instant} (hg : ∀ a, (g a).any (· ≤ now) = a.any (· ≤ now)) :
    (s.realarm g).phaseTurns now = s.phaseTurns now := by
  obtain ⟨phase, leaving, outbox?⟩ := s
  cases phase with
  | waiting alarm? => simp only [phaseTurns, realarm, Phase.realarm, hg]
  | looking => rfl
  | handing x rest => rfl
  | done => rfl

theorem turnsLeft_realarm {now : Instant} (hg : ∀ a, (g a).any (· ≤ now) = a.any (· ≤ now))
    (ss : List (Sweeper ν)) : turnsLeft now (ss.map (·.realarm g)) = turnsLeft now ss := by
  induction ss with
  | nil => rfl
  | cons s ss ih =>
    rw [List.map_cons, turnsLeft_cons, turnsLeft_cons, ih]
    simp only [weight, batch_realarm, queued_realarm, phaseTurns_realarm s hg]

/-- How long the idle poll is makes no difference to a look. -/
theorem look?_idlePoll {w : Watched ν} (h : w.table.Consistent) (now : Instant) {p p' : Span}
    (hp : 0 < p) (hp' : 0 < p') :
    (s.look? now p w).map (fun q => (q.1, q.2.realarm (goneOff now))) =
      (s.look? now p' w).map fun q => (q.1, q.2.realarm (goneOff now)) := by
  have halarm (hdue : (w.table.takeDue now).1 = []) :
      goneOff now (alarm? (w.table.takeDue now).2 now p) =
        goneOff now (alarm? (w.table.takeDue now).2 now p') := by
    rw [Table.takeDue_eq_self hdue]
    apply goneOff_congr
    rw [any_alarm?_eq_false h hp hdue, any_alarm?_eq_false h hp' hdue]
  obtain ⟨phase, leaving, outbox?⟩ := s
  cases phase with
  | looking =>
    cases leaving with
    | true => rfl
    | false =>
      cases hdue : (w.table.takeDue now).1 with
      | nil => simp [look?, hdue, realarm, Phase.realarm, halarm hdue]
      | cons x xs =>
        cases outbox? with
        | none => simp [look?, hdue]
        | some o => simp [look?, hdue]
  | handing x rest => rfl
  | waiting alarm? => rfl
  | done => rfl

end Sweeper

end ExpiringMap
