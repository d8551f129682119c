import ExpiringMap.Proofs.LiveMap.Alike
import ExpiringMap.Proofs.LiveMap.Checking
import ExpiringMap.Proofs.LiveMap.Rounds

/-!
A permit that nobody needs. It makes a sweeper look once more than it has to, and find nothing; the
thread goes on from there as it would have without.
-/

namespace ExpiringMap

variable {ν : Type}

theorem Watched.permit_make {w : Watched ν} (h : w.permit = true) (now : Instant) (c : Call ν) :
    (w.make now c).permit = true := by
  have hnote (t : Table ν) (p : Standing) : (({ w with table := t } : Watched ν).note p).permit =
      true := by
    cases p with
    | first => rfl
    | behind => exact h
  cases c with
  | putUntil | putFor | reschedule => exact hnote _ _
  | _ => exact h

def Watched.permitted (w : Watched ν) : Watched ν := { w with permit := true }

namespace Sweeper

theorem look?_permitted (now : Instant) (idlePoll : Span) (w : Watched ν) (s : Sweeper ν) :
    s.look? now idlePoll w.permitted =
      (s.look? now idlePoll w).map fun p => (p.1.permitted, p.2) := by
  unfold look?
  cases s.phase with
  | looking =>
    dsimp only
    split
    · rfl
    · rfl
  | _ => rfl

theorem release?_permitted (now : Instant) (w : Watched ν) (s : Sweeper ν) {q : Release}
    (hq : q ≠ .wake) :
    s.release? now w.permitted q = (s.release? now w q).map fun p => (p.1.permitted, p.2) := by
  unfold release?
  cases q with
  | wake => exact absurd rfl hq
  | leave =>
    cases s.phase with
    | waiting =>
      dsimp only
      split
      · rfl
      · rfl
    | _ => rfl
  | timer =>
    cases s.phase with
    | waiting alarm? =>
      cases alarm? with
      | none => rfl
      | some a =>
        dsimp only
        split
        · rfl
        · rfl
    | _ => rfl

end Sweeper

namespace LiveMap

variable {m n : LiveMap ν} {s : Sweeper ν} {r r' r₁ r₁' : Rota} {t : Turn} {a : Agent}

def permitted (m : LiveMap ν) : LiveMap ν :=
  { m with watched := m.watched.permitted }

theorem permitted_eq_self (h : m.watched.permit = true) : m.permitted = m := by
  obtain ⟨settings, callback?, clock, ⟨table, permit⟩, sweepers, delivered⟩ := m
  obtain rfl : permit = true := h
  rfl

theorem Sound.permitted (h : m.Sound) : m.permitted.Sound :=
  h.watch h.consistent fun _ _ => .inr rfl

theorem Kindred.eq_permitted (h : Kindred m n) (hs : n.sweepers = m.sweepers)
    (hp : n.watched.permit = true) : n = m.permitted := by
  obtain ⟨settings, callback?, clock, ⟨table, permit⟩, sweepers, delivered⟩ := n
  obtain ⟨⟨hclock, htable, -⟩, hsettings, hcallback, hdelivered⟩ := h
  change m.watched.table = table at htable
  simp only at hclock hsettings hcallback hdelivered hs hp
  simp only [LiveMap.permitted, Watched.permitted, hsettings, hcallback, hclock, htable, hs,
    hdelivered, hp]

theorem permit_callAll (h : m.watched.permit = true) (cs : List (Call ν)) :
    (m.callAll cs).1.watched.permit = true := by
  induction cs generalizing m with
  | nil => exact h
  | cons c cs ih =>
    refine ih ?_
    cases hs : c.isStart with
    | true =>
      rw [call_start hs, start]
      split
      · exact h
      · exact h
    | false =>
      rw [call_make hs]
      exact Watched.permit_make h m.now c

theorem deliver_permitted (hr : m.isRunning = true) (x : Expired ν) :
    m.permitted.deliver x = (m.deliver x).permitted := by
  have hkindred : Kindred m m.permitted := ⟨⟨rfl, rfl, rfl⟩, rfl, rfl, rfl⟩
  refine (hkindred.deliver x).eq_permitted ?_ ?_
  · rw [sweepers_deliver_of_isRunning hr, sweepers_deliver_of_isRunning (m := m.permitted) hr]
    rfl
  · rw [deliver_eq]
    exact permit_callAll (m := m.permitted.spend x.key) rfl _

theorem afterWork_permitted (hr : m.isRunning = true) (i : Nat) (x : Expired ν) :
    m.permitted.afterWork i x = (m.afterWork i x).permitted := by
  unfold afterWork
  rw [deliver_permitted hr]
  have hends : (m.deliver x).permitted.endsWorker = (m.deliver x).endsWorker := rfl
  rw [hends]
  split
  · rfl
  · rfl

theorem permit_afterWork (h : m.watched.permit = true) (i : Nat) (x : Expired ν) :
    (m.afterWork i x).watched.permit = true := by
  have hdeliver : (m.deliver x).watched.permit = true := by
    rw [deliver_eq]
    exact permit_callAll (m := m.spend x.key) h _
  unfold afterWork
  split
  · exact hdeliver
  · exact hdeliver

/-- Only to be woken takes a permit. -/
theorem turn?_permitted (hr : m.isRunning = true) (ht : ∀ i, t ≠ .release i .wake) :
    m.permitted.turn? t = (m.turn? t).map permitted := by
  cases t with
  | hand i =>
    rw [turn?_hand, turn?_hand, Option.map_map]
    rfl
  | work i =>
    rw [turn?_work, turn?_work, Option.map_map]
    change (m.sweepers[i]?.bind (·.take?)).map _ = _
    cases hi : m.sweepers[i]? with
    | none => rfl
    | some s =>
      cases hs : s.take? with
      | none => simp [hs]
      | some p =>
        have hrun := (isRunning_setSweeper (w := m.watched) hi (Sweeper.leaving_take? hs)).trans hr
        have hset : m.permitted.setSweeper i p.2 = (m.setSweeper i p.2).permitted := rfl
        simp only [hs, Option.bind_some, Option.map_some, Function.comp_apply, hset]
        rw [afterWork_permitted hrun]
  | look i =>
    rw [turn?_look, turn?_look]
    change Option.map _ (m.sweepers[i]?.bind fun s =>
      s.look? m.now m.settings.idlePoll m.watched.permitted) = _
    cases hi : m.sweepers[i]? with
    | none => rfl
    | some s =>
      rw [Option.bind_some, Sweeper.look?_permitted, Option.map_map, Option.map_map]
      rfl
  | release i q =>
    rw [turn?_release, turn?_release]
    change Option.map _ (m.sweepers[i]?.bind fun s => s.release? m.now m.watched.permitted q) = _
    have hq : q ≠ .wake := fun he => ht i (he ▸ rfl)
    cases hi : m.sweepers[i]? with
    | none => rfl
    | some s =>
      rw [Option.bind_some, Sweeper.release?_permitted _ _ _ hq, Option.map_map, Option.map_map]
      rfl

theorem canTake_permitted (hr : m.isRunning = true) (ht : ∀ i, t ≠ .release i .wake) :
    m.permitted.canTake t = m.canTake t := by
  rw [canTake, turn?_permitted hr ht, Option.isSome_map, canTake]

theorem turn_permitted (hr : m.isRunning = true) (ht : ∀ i, t ≠ .release i .wake) :
    m.permitted.turn t = (m.turn t).permitted := by
  unfold turn
  rw [turn?_permitted hr ht]
  cases m.turn? t with
  | none => rfl
  | some n => rfl

theorem turn?_wake_permitted (m : LiveMap ν) (i : Nat) :
    m.permitted.turn? (.release i .wake) = (m.sweepers[i]?.bind fun s =>
      match s.phase with
      | .waiting _ => some { s with phase := .looking }
      | _ => none).map fun s =>
        ({ m with watched := { m.watched with permit := false } } : LiveMap ν).setSweeper i s := by
  rw [turn?_release]
  change Option.map _ (m.sweepers[i]?.bind fun s => s.release? m.now m.permitted.watched .wake) = _
  cases m.sweepers[i]? with
  | none => rfl
  | some s =>
    simp only [Option.bind_some]
    unfold Sweeper.release?
    cases s.phase with
    | waiting => rfl
    | _ => rfl

theorem canTake_permitted_of_canTake (hr : m.isRunning = true) (ht : m.canTake t = true) :
    m.permitted.canTake t = true := by
  by_cases hwake : ∃ i, t = .release i .wake
  · obtain ⟨i, rfl⟩ := hwake
    obtain ⟨n, hn⟩ := Option.isSome_iff_exists.1 ht
    have hturned := turn?_cases hn
    cases hturned with
    | release hi hs =>
      obtain ⟨alarm?, -, hpermit, -⟩ := Sweeper.release?_cases hs
      rw [permitted_eq_self hpermit]
      exact ht
  · rw [canTake_permitted hr fun i hi => hwake ⟨i, hi⟩]
    exact ht

/-- A permit lets nobody go on but a sweeper that waits without one. -/
theorem canGo_permitted (hr : m.isRunning = true)
    (ha : ∀ i s alarm?, a = .sweeper i → m.sweepers[i]? = some s → s.phase = .waiting alarm? →
      m.watched.permit = true) : m.permitted.canGo a = m.canGo a := by
  by_cases hpermit : m.watched.permit = true
  · rw [permitted_eq_self hpermit]
  have hturn : ∀ t ∈ a.turns, m.permitted.canTake t = m.canTake t := by
    intro t ht
    by_cases hwake : ∃ i, t = .release i .wake
    · obtain ⟨i, rfl⟩ := hwake
      have hnot : m.permitted.canTake (.release i .wake) = false := by
        rw [canTake, turn?_wake_permitted]
        cases hi : m.sweepers[i]? with
        | none => rfl
        | some s =>
          cases hp : s.phase with
          | waiting alarm? => exact absurd (ha i s alarm? (mem_turns_iff.1 ht) hi hp) hpermit
          | _ => simp [hp]
      rw [hnot, eq_comm, Bool.eq_false_iff]
      intro htake
      rw [canTake_permitted_of_canTake hr htake] at hnot
      cases hnot
    · exact canTake_permitted hr fun i hi => hwake ⟨i, hi⟩
  rw [canGo, canGo, Bool.eq_iff_iff, List.any_eq_true, List.any_eq_true]
  constructor
  · rintro ⟨t, ht, htake⟩
    exact ⟨t, ht, hturn t ht ▸ htake⟩
  · rintro ⟨t, ht, htake⟩
    exact ⟨t, ht, (hturn t ht).symm ▸ htake⟩

theorem Sound.isAtRest_seen (h : m.Sound) (v : View ν) : (m.seen v).isAtRest = m.isAtRest := by
  have hgo : (m.seen v).canGo = m.canGo := funext (h.canGo_seen v)
  rw [isAtRest, hgo, agents_seen, isAtRest]

theorem isAtRest_of_seen {v : View ν} (hm : m.Sound) (hn : n.Sound) (h : m.seen v = n.seen v) :
    m.isAtRest = n.isAtRest := by
  rw [← hm.isAtRest_seen v, h, hn.isAtRest_seen v]

theorem Sound.steps (h : m.Sound) (k : Nat) (r : Rota) : (m.steps k r).Sound :=
  steps_induct (fun _ _ hm ho => hm.turn ho) k h r

namespace Lone

variable (h : m.Lone s)

include h

theorem permitted : m.permitted.Lone s := ⟨h.sound.permitted, h.staffed, h.alone, h.stays⟩

theorem not_isAtRest_permitted : m.permitted.isAtRest = false := by
  rw [Bool.eq_false_iff]
  intro hr
  obtain ⟨alarm?, hp, -⟩ := h.permitted.sound.waiting hr h.permitted.getElem?_zero h.stays
  have hpermit := (waiting_of_isAtRest hr h.permitted.getElem?_zero hp).2.1
  cases hpermit

theorem turn?_wake_permitted {alarm? : Option Instant} (hp : s.phase = .waiting alarm?) :
    m.permitted.turn? (.release 0 .wake) =
      some (({ m with watched := { m.watched with permit := false } } : LiveMap ν).setSweeper 0
        { s with phase := .looking }) := by
  rw [LiveMap.turn?_wake_permitted, h.getElem?_zero, Option.bind_some, hp, Option.map_some]

theorem canTake_wake_permitted {alarm? : Option Instant} (hp : s.phase = .waiting alarm?) :
    m.permitted.canTake (.release 0 .wake) = true := by
  rw [canTake, h.turn?_wake_permitted hp]
  rfl

theorem find?_wake_permitted {alarm? : Option Instant} (hp : s.phase = .waiting alarm?)
    (hh : r.holder? = some (.sweeper 0)) :
    r.holderTurns.find? m.permitted.canTake = some (.release 0 .wake) := by
  have hi := h.permitted.getElem?_zero
  have hhand : m.permitted.canTake (.hand 0) = false := by
    simp [canTake, turn?_hand, hi, Sweeper.hand?, hp]
  have hlook : m.permitted.canTake (.look 0) = false := by
    simp [canTake, turn?_look, hi, Sweeper.look?, hp]
  have hleave : m.permitted.canTake (.release 0 .leave) = false := by
    simp [canTake, turn?_release, hi, Sweeper.release?, hp, h.stays]
  simp [Rota.holderTurns, hh, Agent.turns, hhand, hlook, hleave, h.canTake_wake_permitted hp]

theorem takeDue_of_waiting (hm : m.Hushed) {alarm? : Option Instant}
    (hp : s.phase = .waiting alarm?) (hpermit : m.watched.permit = false) :
    (m.table.takeDue m.now).1 = [] := by
  have hmem := List.mem_of_getElem? h.getElem?_zero
  have hg := ((h.sound.fit s hmem).awake h.stays alarm? hp).resolve_right (by simp [hpermit])
  refine h.sound.consistent.takeDue_eq_nil_iff.2 fun k v d hk => ?_
  cases d with
  | never => rfl
  | due e =>
    obtain ⟨a, rfl, hae⟩ := hg k v e hk
    have hlt := Int.lt_of_lt_of_le (hm s hmem a hp) hae
    rw [Bool.eq_false_iff, ne_eq, Deadline.hasPassed_due]
    exact Int.not_le.2 hlt

end Lone

theorem phase_take? {s' : Sweeper ν} {x : Expired ν} (hs : s.take? = some (x, s')) :
    s'.phase = s.phase := by
  obtain ⟨o, xs, -, -, -, rfl⟩ := Sweeper.take?_cases hs
  rfl

theorem Lone.phase_work (h : m.Lone s) {i : Nat} {s' : Sweeper ν} (ht : m.Turned (.work i) n)
    (hs' : n.sweepers = [s']) :
    s'.phase = s.phase ∧ (m.watched.permit = true → n.watched.permit = true) := by
  cases ht with
  | @work _ s₁ x s₂ hi hs =>
    obtain ⟨rfl, rfl⟩ := h.eq_of_getElem? hi
    refine ⟨?_, fun hpermit => permit_afterWork (m := m.setSweeper 0 s₂) hpermit 0 x⟩
    obtain ⟨s₃, ss, hss, hs₃, -⟩ := sweepers_work hi s₂ x
    rw [hs', h.alone, List.set_cons_zero, List.cons_append, List.cons.injEq] at hss
    rw [hss.1, ← phase_take? hs]
    rcases hs₃ with rfl | rfl
    · rfl
    · rfl

theorem rotaAfter_free (hne : ∀ i, t ≠ .work i) (hfree : Rota.cost t = 0) (hc : n.Complete r) :
    m.rotaAfter r t n = r := by
  rw [rotaAfter_of_ne_work m r n hne, hfree]
  exact enrol_eq_self hc

theorem Complete.of_permitted (hr : m.isRunning = true) (h : m.permitted.Complete r) :
    m.Complete r := by
  intro a ha hgo
  obtain ⟨t, ht, htake⟩ := List.any_eq_true.1 hgo
  exact h a ha (List.any_eq_true.2 ⟨t, ht, canTake_permitted_of_canTake hr htake⟩)

theorem isSome_take?_phase (s : Sweeper ν) (p : Phase ν) :
    ({ s with phase := p } : Sweeper ν).take?.isSome = s.take?.isSome := by
  cases ho : s.outbox? with
  | none => simp [Sweeper.take?, ho]
  | some o => simp [Sweeper.take?, ho]

theorem Complete.setPhase (h : m.Lone s) (hc : m.Complete r)
    (hh : r.holder? = some (.sweeper 0)) (p : Phase ν) :
    (m.setSweeper 0 { s with phase := p }).Complete r := by
  intro a ha hgo
  have hagents : (m.setSweeper 0 { s with phase := p }).agents = m.agents := by
    simp [agents, setSweeper]
  rw [hagents] at ha
  cases a with
  | sweeper i =>
    obtain rfl : i = 0 := by simpa [h.agents] using ha
    exact Rota.has_iff.2 (.inl hh)
  | worker i =>
    apply hc _ ha
    obtain rfl : i = 0 := by simpa [h.agents] using ha
    have hset : (m.setSweeper 0 { s with phase := p }).sweepers = [{ s with phase := p }] := by
      rw [setSweeper, h.alone, List.set_cons_zero]
    rwa [canGo_worker hset, isSome_take?_phase, ← canGo_worker h.alone] at hgo

namespace Lone

variable (h : m.Lone s) (hm : m.Hushed) {alarm? : Option Instant}
  (hp : s.phase = .waiting alarm?) (hpermit : m.watched.permit = false)

include h hp hpermit

theorem turn_wake_permitted :
    m.permitted.turn (.release 0 .wake) = m.setSweeper 0 { s with phase := .looking } := by
  rw [LiveMap.turn, h.turn?_wake_permitted hp, ← hpermit]
  rfl

include hm

/-- A sweeper that sets its alarm anew looks as before, since both are still to go off. -/
theorem seen_realarm (v : View ν) : (m.setSweeper 0 { s with
    phase := .waiting (Sweeper.alarm? m.table m.now m.settings.idlePoll) }).seen v = m.seen v := by
  have hdue := h.takeDue_of_waiting hm hp hpermit
  have hnew := Sweeper.any_alarm?_eq_false h.sound.consistent h.sound.idlePoll_pos hdue
  have hold : alarm?.any (· ≤ m.now) = false := by
    cases alarm? with
    | none => rfl
    | some a => simpa using hm s (List.mem_of_getElem? h.getElem?_zero) a hp
  have hrealarm : ({ s with
      phase := .waiting (Sweeper.alarm? m.table m.now m.settings.idlePoll) } : Sweeper ν).realarm
        (Sweeper.goneOff m.now) = s.realarm (Sweeper.goneOff m.now) := by
    simp only [Sweeper.realarm, hp, Phase.realarm, Sweeper.goneOff_congr (hnew.trans hold.symm)]
  have hself : m.setSweeper 0 s = m := by
    rw [setSweeper, h.alone, List.set_cons_zero, ← h.alone]
  have hset (s : Sweeper ν) : (m.setSweeper 0 s).seen v =
      (m.seen v).setSweeper 0 (s.realarm (Sweeper.goneOff m.now)) :=
    (setSweeper_seen v m m.watched 0 s).symm
  rw [hset, hrealarm, ← hset, hself]

theorem turn?_look_waiting : (m.setSweeper 0 { s with phase := .looking }).turn? (.look 0) =
    some (m.setSweeper 0 { s with
      phase := .waiting (Sweeper.alarm? m.table m.now m.settings.idlePoll) }) := by
  have hdue : (m.watched.table.takeDue m.now).1 = [] := h.takeDue_of_waiting hm hp hpermit
  have hlook : ({ s with phase := .looking } : Sweeper ν).look? m.now m.settings.idlePoll
      m.watched = some (m.watched, { s with
        phase := .waiting (Sweeper.alarm? m.watched.table m.now m.settings.idlePoll) }) := by
    simp [Sweeper.look?, h.stays, hdue, Table.takeDue_eq_self hdue]
  rw [turn?_look, setSweeper, h.alone, List.set_cons_zero, List.getElem?_cons_zero,
    Option.bind_some]
  change Option.map _ (Sweeper.look? m.now m.settings.idlePoll m.watched _) = _
  rw [hlook, setSweeper, h.alone]
  rfl

/-- When it has been woken for nothing, looks, and finds nothing, all is as it was. -/
theorem seen_steps_wake (hc : m.permitted.Complete r) (hh : r.holder? = some (.sweeper 0))
    (ho : m.permitted.Orderly (.release 0 .wake)) (v : View ν) (k : Nat) :
    ((m.permitted.turn (.release 0 .wake)).steps (k + 1) (m.permitted.rotaAfter r
      (.release 0 .wake) (m.permitted.turn (.release 0 .wake)))).seen v = (m.steps k r).seen v := by
  have hcm := hc.of_permitted h.isRunning
  have hlook := h.turn?_look_waiting hm hp hpermit
  have hseen := h.seen_realarm hm hp hpermit v
  have hc₁ := hcm.setPhase h hh .looking
  have hc₂ := hcm.setPhase h hh (.waiting (Sweeper.alarm? m.table m.now m.settings.idlePoll))
  obtain ⟨s₁, h₁⟩ := h.permitted.turn ho (by simp [made])
  rw [h.turn_wake_permitted hp hpermit] at h₁ ⊢
  rw [rotaAfter_free (by simp) rfl hc₁]
  have hs₁ : (m.setSweeper 0 { s with phase := .looking }).sweepers =
      [{ s with phase := .looking }] := by rw [setSweeper, h.alone, List.set_cons_zero]
  generalize m.setSweeper 0 { s with phase := .looking } = m₁ at h₁ hc₁ hs₁ hlook ⊢
  generalize m.setSweeper 0 { s with
    phase := .waiting (Sweeper.alarm? m.table m.now m.settings.idlePoll) } = m₂ at *
  have hspent : m₁.isSpent r = false := by simp [isSpent, hh, hs₁, Sweeper.isLooking]
  have hfirst : r.holderTurns.find? m₁.canTake = some (.look 0) := by
    have hhand : m₁.canTake (.hand 0) = false := by simp [canTake, turn?_hand, hs₁, Sweeper.hand?]
    have htake : m₁.canTake (.look 0) = true := by rw [canTake, hlook]; rfl
    simp [Rota.holderTurns, hh, Agent.turns, hhand, htake]
  have hnext := hc₁.nextTurn?_of_holder hspent hfirst
  have hturn : m₁.turn (.look 0) = m₂ := by rw [LiveMap.turn, hlook]; rfl
  have hsound := h₁.sound.turn (orderly_of_nextTurn? hnext)
  rw [steps_one_add hnext]
  rw [hturn] at hsound ⊢
  rw [rotaAfter_free (by simp) rfl hc₂]
  exact seen_steps k hsound h.sound hseen r

end Lone

/-- Unless it has a permit, a sweeper that waits is on the rota. -/
def Listed (m : LiveMap ν) (s : Sweeper ν) (r : Rota) : Prop :=
  m.watched.permit = false → ∀ alarm?, s.phase = .waiting alarm? → r.has (.sweeper 0) = true

namespace Listed

theorem of_has (h : m.Listed s r) (hr : r.has (.sweeper 0) = true → r'.has (.sweeper 0) = true) :
    m.Listed s r' :=
  fun hpermit alarm? hphase => hr (h hpermit alarm? hphase)

theorem turn {s' : Sweeper ν} (h : m.Listed s r) (hm : m.Lone s) (hn : n.Lone s')
    (ht : m.Turned t n) (hh : r.holder? = some t.agent) : n.Listed s' r := by
  intro hpermit alarm? hphase
  by_cases hwork : ∃ i, t = .work i
  · obtain ⟨i, rfl⟩ := hwork
    obtain ⟨hsame, hkept⟩ := hm.phase_work ht hn.alone
    refine h ?_ alarm? (hsame.symm.trans hphase)
    rw [Bool.eq_false_iff]
    intro hhad
    rw [hkept hhad] at hpermit
    cases hpermit
  · rw [hm.agent_eq ht fun i hi => hwork ⟨i, hi⟩] at hh
    exact Rota.has_iff.2 (.inl hh)

/-- To those who are not on the rota a permit makes no difference. -/
theorem canGo_permitted (h : m.Listed s r) (hr : m.isRunning = true) (hs : m.sweepers = [s])
    (ha : r.has a = false) : m.permitted.canGo a = m.canGo a := by
  refine LiveMap.canGo_permitted hr fun i s₁ alarm? hai hi hphase => ?_
  rw [hs] at hi
  obtain ⟨rfl, rfl⟩ : i = 0 ∧ s = s₁ := by
    cases i with
    | zero => exact ⟨rfl, Option.some.inj hi⟩
    | succ i => cases hi
  by_contra hpermit
  rw [Bool.not_eq_true] at hpermit
  rw [hai, h hpermit alarm? hphase] at ha
  cases ha

end Listed

theorem find?_of_le {α : Type} {p q : α → Bool} {xs : List α} {x : α}
    (hle : ∀ y, p y = true → q y = true) (h : xs.find? q = some x) (hx : p x = true) :
    xs.find? p = some x := by
  obtain ⟨-, as, bs, rfl, has⟩ := List.find?_eq_some_iff_append.1 h
  refine List.find?_eq_some_iff_append.2 ⟨hx, as, bs, rfl, fun y hy => ?_⟩
  have hnot := has y hy
  rw [Bool.not_eq_true'] at hnot ⊢
  rw [Bool.eq_false_iff] at hnot ⊢
  exact fun hp => hnot (hle y hp)

namespace UnderWay

theorem skips (h : m.UnderWay s r) (hskips : m.Skips (m.relieve r) r₁)
    (hpace : m.Pace r₁) (hh : r₁.holder? = some (.sweeper 0)) : m.UnderWay s r₁ := by
  have hsteps := h.paced.complete.steps_of_skips hskips (by rw [hh]; rfl)
  refine ⟨h.toLone, h.hushed, ⟨hpace, h.paced.complete.skips hskips, fun _ i => by simp [hh]⟩,
    fun k => ?_, fun hmany k => ?_⟩
  · rw [hsteps]
    exact h.spare k
  · rw [hsteps]
    exact h.room hmany k

/-- The same agent has the thread next with a permit and without, if both give it on as far. -/
theorem exists_skips (h : m.UnderWay s r) (hp : m.permitted.Paced r') (hs : Rota.Same r r')
    (hn : m.permitted.nextTurn? r' = some (t, r₁')) :
    ∃ r₁, m.Skips (m.relieve r) r₁ ∧ Rota.Same r₁ r₁' ∧ m.Pace r₁ ∧ m.Pace r₁' := by
  obtain ⟨hskips', ht'⟩ := hp.complete.skips_of_nextTurn? hn
  obtain ⟨r₁, hskips, hsame⟩ := hskips'.same (relieve_same (m := m) hs rfl)
    fun t => canTake_permitted_of_canTake h.isRunning
  have hh : r₁'.holder?.isSome := by rw [holder?_of_find? ht']; rfl
  have hroom (hmany : 1 < m.newSweeper.workers) : m.Uncrowded := h.room hmany 0
  have hpace' : m.permitted.Pace r₁' := hp.pace hroom hskips' hh
  exact ⟨r₁, hskips, hsame, h.paced.pace hroom hskips (by rw [hsame.holder?]; exact hh),
    hpace'.pair, hpace'.crew⟩

theorem exists_steps_wake (h : m.UnderWay s r) (hp : m.permitted.Paced r') (hs : Rota.Same r r')
    (hpermit : m.watched.permit = false) {i : Nat}
    (hn : m.permitted.nextTurn? r' = some (.release i .wake, r₁')) (v : View ν) (k : Nat)
    (hrest : ((m.permitted.turn (.release i .wake)).steps k (m.permitted.rotaAfter r₁'
      (.release i .wake) (m.permitted.turn (.release i .wake)))).isAtRest = true) :
    ∃ j, (m.steps j r).isAtRest = true ∧ (m.steps j r).seen v =
      ((m.permitted.turn (.release i .wake)).steps k (m.permitted.rotaAfter r₁'
        (.release i .wake) (m.permitted.turn (.release i .wake)))).seen v := by
  have ho := orderly_of_nextTurn? hn
  obtain ⟨r₁, hskips, hsame, hpace, hpace'⟩ := h.exists_skips hp hs hn
  obtain ⟨hskips', ht'⟩ := hp.complete.skips_of_nextTurn? hn
  obtain ⟨hi, alarm?, hphase⟩ : i = 0 ∧ ∃ alarm?, s.phase = .waiting alarm? := by
    have hturned := ho.turned
    generalize m.permitted.turn (.release i .wake) = n at hturned
    cases hturned with
    | release hi hs =>
      obtain ⟨hi, rfl⟩ := h.permitted.eq_of_getElem? hi
      obtain ⟨alarm?, hphase, -⟩ := Sweeper.release?_cases hs
      exact ⟨hi, alarm?, hphase⟩
  subst hi
  have hh : r₁'.holder? = some (.sweeper 0) := holder?_of_find? ht'
  cases k with
  | zero =>
    rw [steps, h.turn_wake_permitted hphase hpermit] at hrest
    have hlooking : (m.setSweeper 0 { s with phase := .looking }).sweepers[0]? =
        some { s with phase := .looking } := by rw [setSweeper, h.alone]; rfl
    exact absurd rfl (not_looking_of_isAtRest hrest hlooking)
  | succ k =>
    have hc' := hp.complete.skips hskips'
    have hseen := h.seen_steps_wake h.hushed hphase hpermit hc' hh ho v k
    have hpaced' : m.Paced r₁' :=
      ⟨hpace', hc'.of_permitted h.isRunning, fun _ i => by simp [hh]⟩
    have hh₁ : r₁.holder? = some (.sweeper 0) := hsame.holder?.trans hh
    have hsteps : m.steps k r₁' = m.steps k r := by
      rw [← (h.skips hskips hpace hh₁).steps_same hpaced' hsame,
        h.paced.complete.steps_of_skips hskips (by rw [hh₁]; rfl)]
    rw [hsteps] at hseen
    refine ⟨k, ?_, hseen.symm⟩
    rw [← hrest]
    exact isAtRest_of_seen (h.sound.steps k r) ((h.permitted.sound.turn ho).steps _ _) hseen.symm

theorem listed_chosen (h : m.UnderWay s r) (hp : m.permitted.Paced r') (hs : Rota.Same r r')
    (hon : m.Listed s r) (hn : m.permitted.nextTurn? r' = some (t, r₁')) : m.Listed s r₁' := by
  intro hpermit alarm? hphase
  obtain ⟨hskips', -⟩ := hp.complete.skips_of_nextTurn? hn
  have hgo : m.permitted.canGo (.sweeper 0) = true :=
    List.any_eq_true.2 ⟨_, mem_turns_iff.2 rfl, h.canTake_wake_permitted hphase⟩
  apply hskips'.has_of_canGo hgo
  rw [has_relieve, ← hs.has]
  exact hon hpermit alarm? hphase

/-- A turn that takes no permit is taken with one as it is without. -/
theorem turn_permitted (h : m.UnderWay s r) (hp : m.permitted.Paced r') (hs : Rota.Same r r')
    (hon : m.Listed s r) (hn : m.permitted.nextTurn? r' = some (t, r₁'))
    (hne : ∀ i, t ≠ .release i .wake) :
    ∃ r₁ s', m.nextTurn? r = some (t, r₁) ∧
      (m.turn t).UnderWay s' (m.rotaAfter r₁ t (m.turn t)) ∧
      (m.turn t).permitted.Paced (m.permitted.rotaAfter r₁' t (m.turn t).permitted) ∧
      Rota.Same (m.rotaAfter r₁ t (m.turn t))
        (m.permitted.rotaAfter r₁' t (m.turn t).permitted) ∧
      (m.turn t).Listed s' (m.rotaAfter r₁ t (m.turn t)) := by
  have ho' := orderly_of_nextTurn? hn
  obtain ⟨r₁, hskips, hsame, hpace, hpace'⟩ := h.exists_skips hp hs hn
  obtain ⟨hskips', ht'⟩ := hp.complete.skips_of_nextTurn? hn
  have htake : m.canTake t = true := by
    rw [← canTake_permitted h.isRunning hne]
    exact ho'.canTake
  have ht : r₁.holderTurns.find? m.canTake = some t := by
    rw [hsame.holderTurns]
    exact find?_of_le (fun _ => canTake_permitted_of_canTake h.isRunning) ht' htake
  have hnext := h.paced.complete.nextTurn?_of_skips hskips ht
  have ho := orderly_of_nextTurn? hnext
  obtain ⟨s', h'⟩ := h.turn hnext
  have hturn := LiveMap.turn_permitted h.isRunning hne
  have hpaced' := h.permitted.paced_turn h.hushed ho' ⟨hpace'.pair, hpace'.crew⟩ ht'
  rw [hturn] at hpaced'
  have hh := holder?_of_find? ht
  have hlisted := (h.listed_chosen hp hs hon hn).of_has fun hhas => (hsame.has _).trans hhas
  have hlisted' := hlisted.turn h.toLone h'.toLone ho.turned hh
  refine ⟨r₁, s', hnext, h', hpaced', ?_, hlisted'.of_has (has_rotaAfter ho.canTake hh)⟩
  have hagents := h.agents_turn ho
  refine rotaAfter_same hsame (h.level hpace hpace' hsame) (h.crew hpace hpace') ho.canTake hh
    rfl rfl hagents hagents (fun i s₁ x s₂ hi hs₁ b _ hnot => ?_)
    fun b _ hnot => hlisted'.canGo_permitted h'.isRunning h'.alone hnot
  obtain ⟨rfl, rfl⟩ := h.eq_of_getElem? hi
  have hrun := (isRunning_setSweeper (w := m.watched) hi (Sweeper.leaving_take? hs₁)).trans
    h.isRunning
  have hleft : (m.setSweeper 0 s₂).Listed s₂ r₁ := fun hpermit alarm? hphase =>
    hlisted hpermit alarm? ((phase_take? hs₁).symm.trans hphase)
  exact hleft.canGo_permitted hrun (by rw [setSweeper, h.alone, List.set_cons_zero]) hnot

/-- A permit that a sweeper on the rota does not need is used up without anything coming of it. -/
theorem steps_permitted (h : m.UnderWay s r) (hp : m.permitted.Paced r') (hs : Rota.Same r r')
    (hon : m.Listed s r) (v : View ν) (k : Nat)
    (hrest : (m.permitted.steps k r').isAtRest = true) :
    ∃ j, (m.steps j r).isAtRest = true ∧
      (m.steps j r).seen v = (m.permitted.steps k r').seen v := by
  induction k generalizing m s r r' with
  | zero =>
    rw [steps, h.not_isAtRest_permitted] at hrest
    cases hrest
  | succ k ih =>
    cases hpermit : m.watched.permit with
    | true =>
      rw [permitted_eq_self hpermit] at hp hrest ⊢
      exact ⟨k + 1, by rwa [h.steps_same hp hs], by rw [h.steps_same hp hs]⟩
    | false =>
      cases hn : m.permitted.nextTurn? r' with
      | none =>
        have hnot := h.not_isAtRest_permitted
        rw [nextTurn?_eq_none_iff.1 hn] at hnot
        cases hnot
      | some p =>
        obtain ⟨t, r₁'⟩ := p
        rw [steps_one_add hn] at hrest ⊢
        by_cases hwake : ∃ i, t = .release i .wake
        · obtain ⟨i, rfl⟩ := hwake
          exact h.exists_steps_wake hp hs hpermit hn v k hrest
        · have hne : ∀ i, t ≠ .release i .wake := fun i hi => hwake ⟨i, hi⟩
          obtain ⟨r₁, s', hn', h', hp', hs', hon'⟩ := h.turn_permitted hp hs hon hn hne
          rw [LiveMap.turn_permitted h.isRunning hne] at hrest ⊢
          obtain ⟨j, hj, hseen⟩ := ih h' hp' hs' hon' hrest
          refine ⟨j + 1, ?_, ?_⟩
          · rw [steps_one_add hn']
            exact hj
          · rw [steps_one_add hn']
            exact hseen

end UnderWay

end LiveMap

end ExpiringMap
