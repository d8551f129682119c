import ExpiringMap.Proofs.LiveMap.Composed
import ExpiringMap.Proofs.LiveMap.Confluence
import ExpiringMap.Proofs.LiveMap.OnTime
import ExpiringMap.Proofs.LiveMap.Permit

namespace ExpiringMap.LiveMap

variable {ν : Type} {settings : Settings} {callback? : Option (Callback ν)} {hasRuntime : Bool}
  {m n : LiveMap ν} {s s' : Sweeper ν}

theorem Composed.exists_tended (h : m.Composed) (hr : m.isRunning = true) : ∃ s, m.Tended s := by
  obtain ⟨s, hs⟩ := h.exists_lone hr
  exact ⟨s, hs, h.steady, fun _ => .inl (h.idle s (by rw [hs.alone]; simp))⟩

theorem Tended.at_rest (h : m.Tended s) (hr : m.isAtRest = true) :
    m.watched = { table := m.table } ∧ s.realarm (fun _ => none) =
      { phase := .waiting none, outbox? := m.newSweeper.outbox? } := by
  have hmem : s ∈ m.sweepers := by
    rw [h.alone]
    exact List.mem_singleton_self s
  obtain ⟨i, hi⟩ := List.mem_iff_getElem?.1 hmem
  have hcomposed : m.Composed := by
    refine ⟨h.sound, h.steady, h.staffed, fun s' hs' => ?_,
      fun s' hs' => h.steady.inHand_of_isAtRest hr hs', hushed_of_isAtRest hr⟩
    rw [h.alone, List.mem_singleton] at hs'
    exact hs' ▸ h.stays
  obtain ⟨hp | ⟨alarm?, hp⟩, hout⟩ := hcomposed.sweeper hmem
  · exact absurd hp (not_looking_of_isAtRest hr hi)
  · have hpermit := (waiting_of_isAtRest hr hi hp).2.1
    constructor
    · rw [table, ← hpermit]
    · rw [← hout, ← h.stays, Sweeper.realarm, hp, Phase.realarm]

theorem Tended.seen_eq (hm : m.Tended s) (hn : n.Tended s') (hmr : m.isAtRest = true)
    (hnr : n.isAtRest = true) (h : Kindred m n) (v : View ν) : m.seen v = n.seen v := by
  apply seen_of_outline hmr hnr
  obtain ⟨hwatched, hsweeper⟩ := hm.at_rest hmr
  obtain ⟨hwatched', hsweeper'⟩ := hn.at_rest hnr
  have hnew : m.newSweeper = n.newSweeper := newSweeper_congr h.settings (by rw [h.callback?])
  simp only [outline_eq, hm.alone, hn.alone, List.map_cons, List.map_nil, hsweeper, hsweeper',
    hwatched, hwatched', h.settings, h.callback?, h.clock, h.table, h.delivered, hnew]

/-- If no callback makes an entry that has ended, all sweepers come to the same in the end. -/
theorem Composed.seen_settle_fresh_of_calls (h : m.Composed) (hr : m.isRunning = true)
    (hcalls : m.MakesNoneDue m.settleMoves)
    (hspare : ∀ e ∈ m.madeIn m.settleMoves, m.endsWorker e.key = false) (v : View ν) :
    m.settle.seen v = m.fresh.settle.seen v := by
  obtain ⟨s, hs⟩ := h.exists_tended hr
  obtain ⟨s', hs'⟩ := h.fresh.exists_tended rfl
  have halike : Alike m m.fresh := ⟨rfl, rfl, hr⟩
  have hplan : m.plan = m.fresh.plan := by
    have hidle (n : LiveMap ν) (hn : n.Idle) : n.sweepers.flatMap (·.inHand) = [] :=
      List.flatMap_eq_nil_iff.2 hn
    rw [plan, plan, hidle m h.idle, hidle m.fresh h.fresh.idle, halike.sweep]
    rfl
  have hswept : Kindred m.swept m.fresh.swept :=
    ⟨⟨rfl, congrArg (·.2) halike.sweep, hr⟩, rfl, rfl, rfl⟩
  have hmild := hs.mild_plan hcalls hspare
  obtain ⟨s₁, hs₁, hk⟩ := hs.settle hmild
  obtain ⟨s₂, hs₂, hk'⟩ := hs'.settle (hplan ▸ hswept.mild hmild)
  have hout : Kindred m.outcome m.fresh.outcome := by
    rw [outcome, outcome, ← hplan]
    exact hswept.deliverAll m.plan
  exact hs₁.seen_eq hs₂ h.sound.isAtRest_settle h.fresh.sound.isAtRest_settle
    (hk.symm.trans (hout.trans hk')) v

/-- The queue does not fill up at any point of a course of moves. -/
def StaysUncrowded (m : LiveMap ν) (mvs : List (Move ν)) : Prop :=
  ∀ before rest, mvs = before ++ rest → (m.follow before).Uncrowded

theorem StaysUncrowded.of_append {mvs mvs' : List (Move ν)} (h : m.StaysUncrowded (mvs ++ mvs')) :
    m.StaysUncrowded mvs ∧ (m.follow mvs).StaysUncrowded mvs' := by
  refine ⟨fun before rest he => ?_, fun before rest he => ?_⟩
  · exact h before (rest ++ mvs') (by rw [he]; simp)
  · have hlater := h (mvs ++ before) rest (by rw [he]; simp)
    rwa [follow, List.foldl_append] at hlater

/-- A course of moves in which the order of turns does not depend on how far the round is: there is
one worker, or the queue does not fill up, or no callback makes an entry that has ended. -/
def Predictable (m : LiveMap ν) (mvs : List (Move ν)) : Prop :=
  m.settings.workerCount = 1 ∨ m.StaysUncrowded mvs ∨ m.MakesNoneDue mvs

theorem Predictable.of_append {mvs mvs' : List (Move ν)} (h : m.Predictable (mvs ++ mvs')) :
    m.Predictable mvs ∧ (m.follow mvs).Predictable mvs' := by
  unfold Predictable
  rw [settings_follow]
  rcases h with h | h | h
  · exact ⟨.inl h, .inl h⟩
  · exact ⟨.inr (.inl h.of_append.1), .inr (.inl h.of_append.2)⟩
  · exact ⟨.inr (.inr h.of_append.1), .inr (.inr h.of_append.2)⟩

theorem Predictable.of_cons {mv : Move ν} {mvs : List (Move ν)} (h : m.Predictable (mv :: mvs)) :
    (m.move mv).Predictable mvs :=
  (of_append (List.singleton_append ▸ h : m.Predictable ([mv] ++ mvs))).2

theorem workers_newSweeper_le (m : LiveMap ν) :
    m.newSweeper.workers ≤ m.settings.workerCount := by
  cases hc : m.callback? with
  | none => simp [newSweeper, hc, Sweeper.workers]
  | some c => simp [newSweeper, hc, Sweeper.workers]

namespace Composed

theorem take?_eq_none (h : m.Composed) (hs : s ∈ m.sweepers) : s.take? = none := by
  rw [Option.eq_none_iff_forall_ne_some]
  rintro ⟨x, s'⟩ htake
  obtain ⟨o, xs, ho, -, hq, -⟩ := Sweeper.take?_cases htake
  have hqueued := (List.append_eq_nil_iff.1 (h.idle s hs)).1
  rw [Sweeper.queued_of_outbox? ho, hq] at hqueued
  cases hqueued

theorem calm (h : m.Composed) (hpermit : m.watched.permit = false)
    (hdue : (m.table.takeDue m.now).1 = []) : m.Calm where
  left s hs hl := by
    rw [h.stays s hs] at hl
    cases hl
  stays s hs _ := (h.sweeper hs).1
  nothing _ _ _ := ⟨hpermit, hdue⟩
  idle _ hs := h.take?_eq_none hs

theorem seen_settle_fresh_of_calm (h : m.Composed) (hs : m.Lone s) {alarm? : Option Instant}
    (hp : s.phase = .waiting alarm?) (hpermit : m.watched.permit = false) (v : View ν) :
    m.settle.seen v = m.fresh.settle.seen v := by
  have hdue := hs.takeDue_of_waiting h.hushed hp hpermit
  have hstill : m.still = m.fresh.still := by
    have hout := (h.sweeper (List.mem_of_getElem? hs.getElem?_zero)).2
    have hsweeper : s.still = m.newSweeper := by
      rw [Sweeper.still, hp]
      simp only [hs.stays, hout]
      rfl
    simp only [still, LiveMap.fresh, hs.alone, List.map_cons, List.map_nil, hsweeper]
    rfl
  have hmute := (h.calm hpermit hdue).mute_settle_eq h.sound (h.fresh.calm hpermit hdue)
    h.fresh.sound hstill
  exact seen_of_outline h.sound.isAtRest_settle h.fresh.sound.isAtRest_settle
    (congrArg (LiveMap.seen v) hmute)

theorem underWay (h : m.Composed) (hs : m.Lone s) (hd : m.delivered = [])
    (hspare : ∀ e ∈ m.madeIn m.settleMoves, m.endsWorker e.key = false)
    (hroom : 1 < m.newSweeper.workers → m.StaysUncrowded m.settleMoves) {r : Rota}
    (hr : m.Paced r) (hsteps : ∀ k, m.steps k r = m.steps k m.rota) : m.UnderWay s r := by
  refine ⟨hs, h.hushed, hr, fun k => ?_, fun hmany k => ?_⟩
  · obtain ⟨before, rest, he, hk⟩ := h.sound.exists_prefix k
    have hnone : ∀ mv ∈ before, mv ≠ .report := fun mv hmv =>
      ne_report_of_mem_settleMoves (by rw [he]; exact List.mem_append_left _ hmv)
    rw [hsteps, hk, Sparing, delivered_follow hnone, hd, List.nil_append, endsWorker_follow]
    rw [he, madeIn_append] at hspare
    exact fun e hmade => hspare e (List.mem_append_left _ hmade)
  · obtain ⟨before, rest, he, hk⟩ := h.sound.exists_prefix k
    rw [hsteps, hk]
    exact hroom hmany before rest he

/-- When the old sweeper has been woken, the permit is all that it lacks to be as a new one. -/
theorem permitted_turn_wake (h : m.Composed) (hs : m.Lone s) {alarm? : Option Instant}
    (hp : s.phase = .waiting alarm?) (hpermit : m.watched.permit = true) :
    (m.turn (.release 0 .wake)).permitted = m.fresh := by
  have hnew : ({ s with phase := .looking } : Sweeper ν) = m.newSweeper := by
    rw [hs.stays, (h.sweeper (List.mem_of_getElem? hs.getElem?_zero)).2]
    rfl
  have hkept : m.permitted.watched = m.watched := by rw [permitted_eq_self hpermit]
  have hturn := hs.turn?_wake_permitted hp
  rw [permitted_eq_self hpermit] at hturn
  rw [LiveMap.turn, hturn, Option.getD_some, LiveMap.fresh, ← hnew, ← hkept]
  simp only [LiveMap.permitted, setSweeper, hs.alone, List.set_cons_zero]
  rfl

/-- The old sweeper uses its permit to go on. From there it differs from a new one in that alone. -/
theorem exists_woken (h : m.Composed) (hs : m.Lone s) (hd : m.delivered = [])
    (hspare : ∀ e ∈ m.madeIn m.settleMoves, m.endsWorker e.key = false)
    (hroom : 1 < m.newSweeper.workers → m.StaysUncrowded m.settleMoves) {alarm? : Option Instant}
    (hp : s.phase = .waiting alarm?) (hpermit : m.watched.permit = true) :
    ∃ (n : LiveMap ν) (s' : Sweeper ν) (r : Rota), n.UnderWay s' r ∧ n.permitted = m.fresh ∧
      s'.phase = .looking ∧ r.holder? = some (.sweeper 0) ∧
      r.allowance = Rota.stintAllowance ∧ r.queue = [] ∧
      ∀ k, m.steps (k + 1) m.rota = n.steps k r := by
  have hidle := h.take?_eq_none (List.mem_of_getElem? hs.getElem?_zero)
  have hturn := hs.turn?_wake_permitted hp
  have htake := hs.canTake_wake_permitted hp
  obtain ⟨r, hr, hh, hallowance, hnil, hsteps⟩ := hs.exists_start (List.any_eq_true.2
    ⟨.release 0 .wake, mem_turns_iff.2 rfl, permitted_eq_self hpermit ▸ htake⟩) hidle
  have hfirst := hs.find?_wake_permitted hp hh
  rw [permitted_eq_self hpermit] at hturn hfirst
  have hnext := hr.complete.nextTurn?_of_holder
    (by simp [isSpent, hallowance, Rota.stintAllowance]) hfirst
  obtain ⟨s', h'⟩ := (h.underWay hs hd hspare hroom hr hsteps).turn hnext
  have hlater (k : Nat) := (hsteps (k + 1)).symm.trans (steps_one_add hnext k)
  have hsweepers : (m.turn (.release 0 .wake)).sweepers = [{ s with phase := .looking }] := by
    simp [LiveMap.turn, hturn, setSweeper, hs.alone]
  have hsame : m.rotaAfter r (.release 0 .wake) (m.turn (.release 0 .wake)) = r := by
    refine rotaAfter_free (by simp) rfl fun a ha hgo => ?_
    simp only [LiveMap.agents, hsweepers] at ha
    obtain rfl | rfl : a = .sweeper 0 ∨ a = .worker 0 := by simpa using ha
    · exact Rota.has_iff.2 (.inl hh)
    · rw [canGo_worker hsweepers, isSome_take?_phase, hidle] at hgo
      cases hgo
  rw [hsame] at h' hlater
  have hs' : s' = { s with phase := .looking } := by
    have halone := h'.alone
    rw [hsweepers, List.cons.injEq] at halone
    exact halone.1.symm
  exact ⟨_, s', r, h', h.permitted_turn_wake hs hp hpermit, by rw [hs'], hh, hallowance, hnil,
    hlater⟩

/-- The old sweeper uses its permit to look, and the new one keeps it and looks without. -/
theorem seen_settle_fresh_of_permit (h : m.Composed) (hs : m.Lone s) (hd : m.delivered = [])
    (hspare : ∀ e ∈ m.madeIn m.settleMoves, m.endsWorker e.key = false)
    (hroom : 1 < m.newSweeper.workers → m.StaysUncrowded m.settleMoves) {alarm? : Option Instant}
    (hp : s.phase = .waiting alarm?) (hpermit : m.watched.permit = true) (v : View ν) :
    m.settle.seen v = m.fresh.settle.seen v := by
  obtain ⟨n, s', r, hn, hfresh, hlooking, hh, hallowance, hnil, hsteps⟩ :=
    h.exists_woken hs hd hspare hroom hp hpermit
  have halone : m.fresh.Lone m.newSweeper := ⟨h.fresh.sound, h.fresh.staffed, rfl, rfl⟩
  have hgo : m.fresh.canGo (.sweeper 0) = true := by
    refine List.any_eq_true.2 ⟨.look 0, mem_turns_iff.2 rfl, ?_⟩
    simp [canTake, turn?_look, LiveMap.fresh, newSweeper, Sweeper.look?]
  obtain ⟨r', hr', hh', hallowance', hnil', hsteps'⟩ := halone.exists_start hgo
    (h.fresh.take?_eq_none List.mem_cons_self)
  have hsame : Rota.Same r r' :=
    ⟨hh.trans hh'.symm, hallowance.trans hallowance'.symm, hnil.trans hnil'.symm⟩
  have hrest := h.fresh.sound.isAtRest_settle
  rw [settle, ← hsteps', ← hfresh] at hrest
  obtain ⟨j, hj, hseen⟩ := hn.steps_permitted (hfresh ▸ hr') hsame
    (fun _ alarm? hw => by rw [hlooking] at hw; cases hw) v _ hrest
  rw [hfresh, hsteps', ← hsteps] at hseen
  rw [← hsteps] at hj
  rw [settle, steps_eq_of_isAtRest h.sound.isAtRest_settle hj, hseen]
  rfl

/-- After a restart the map settles as it would have without. -/
theorem seen_settle_fresh (h : m.Composed) (hr : m.isRunning = true) (hd : m.delivered = [])
    (hpredict : m.Predictable m.settleMoves)
    (hspare : ∀ e ∈ m.madeIn m.settleMoves, m.endsWorker e.key = false) (v : View ν) :
    m.settle.seen v = m.fresh.settle.seen v := by
  obtain ⟨s, hs⟩ := h.exists_lone hr
  have hroom : m.MakesNoneDue m.settleMoves ∨
      (1 < m.newSweeper.workers → m.StaysUncrowded m.settleMoves) := by
    rcases hpredict with hone | hroom | hcalls
    · have hle := m.workers_newSweeper_le
      exact .inr fun hmany => by omega
    · exact .inr fun _ => hroom
    · exact .inl hcalls
  rcases hroom with hcalls | hroom
  · exact h.seen_settle_fresh_of_calls hr hcalls hspare v
  obtain ⟨hp | ⟨alarm?, hp⟩, hout⟩ := h.sweeper (List.mem_of_getElem? hs.getElem?_zero)
  · -- The sweeper has not had a turn yet, and so is as good as new.
    have hnew : s = m.newSweeper := by
      obtain ⟨phase, leaving, outbox?⟩ := s
      obtain rfl : phase = .looking := hp
      obtain rfl : leaving = false := hs.stays
      obtain rfl : outbox? = m.newSweeper.outbox? := hout
      rfl
    have hsame : m.fresh = m := by rw [LiveMap.fresh, ← hnew, ← hs.alone]
    rw [hsame]
  · cases hpermit : m.watched.permit with
    | false => exact h.seen_settle_fresh_of_calm hs hp hpermit v
    | true => exact h.seen_settle_fresh_of_permit hs hd hspare hroom hp hpermit v

end Composed

theorem fresh_call (hr : m.isRunning = true) (c : Call ν) :
    m.fresh.call c = ((m.call c).1.fresh, (m.call c).2) := by
  have hkindred : Kindred m m.fresh := ⟨⟨rfl, rfl, hr⟩, rfl, rfl, rfl⟩
  refine Prod.ext ?_ (hkindred.answer_call c).symm
  cases hs : c.isStart with
  | true =>
    have hrun : m.fresh.isRunning = true := rfl
    rw [call_start hs, call_start hs, start, start, if_pos hr, if_pos hrun]
  | false =>
    rw [call_make hs, call_make hs]
    rfl

theorem report_fresh_call (hr : m.isRunning = true) (c : Call ν) :
    m.fresh.reportWith sleepChecking (.call c) =
      ((m.report (.call c)).1, (m.report (.call c)).2.fresh) := by
  have hcall : ({ m.fresh with delivered := [] } : LiveMap ν).call c =
      (({ m with delivered := [] }.call c).1.fresh, ({ m with delivered := [] }.call c).2) :=
    fresh_call (m := { m with delivered := [] }) hr c
  simp only [reportWith, report, applyWith, apply, hcall]
  rfl

theorem stop_leave (m : LiveMap ν) : m.leave.stop = m.stop := by
  rw [stop, stop, leave_eq_self (isRunning_leave m)]

theorem Composed.seen_apply_fresh (h : m.Composed) (hr : m.isRunning = true)
    (hd : m.delivered = []) {op : Operation ν} (hop : op ≠ .drop) (hcall : ∀ c, op ≠ .call c)
    (hpredict : m.Predictable (m.moves op))
    (hspare : ∀ e ∈ m.madeIn (m.moves op), m.endsWorker e.key = false) (v : View ν) :
    (m.apply op).1.seen v = (m.fresh.applyWith sleepChecking op).1.seen v := by
  have hstop : m.stop = m.fresh.stop := by
    rw [h.stop_eq, h.fresh.stop_eq]
    rfl
  cases op with
  | call c => exact absurd rfl (hcall c)
  | settle => exact h.seen_settle_fresh hr hd hpredict hspare v
  | sleep ms =>
    refine seen_sleep_of_settle h.sound h.fresh.sound ?_ ms
    refine h.seen_settle_fresh hr hd hpredict.of_append.1 (fun e he => hspare e ?_) v
    rw [moves, madeIn_append]
    exact List.mem_append_left _ he
  | stop => simp only [applyWith, LiveMap.apply, hstop]
  | stopTwice => simp only [applyWith, LiveMap.apply, stop_leave, hstop]
  | restart => simp only [applyWith, LiveMap.apply, hstop]
  | drop => exact absurd rfl hop

/-- A running map that is composed gives the reports that it would give with a new sweeper. -/
theorem Composed.run_fresh (h : m.Composed) (hr : m.isRunning = true) {ops : List (Operation ν)}
    (hdrop : .drop ∉ ops.dropLast) (hspare : m.SparesWorkers ops)
    (hpredict : m.Predictable (m.history ops)) : m.run ops = m.fresh.run ops := by
  rw [h.fresh.sound.run_eq_runChecking]
  induction ops generalizing m with
  | nil => rfl
  | cons op ops ih =>
    obtain ⟨hfirst, hrest⟩ := h.sound.sparesWorkers_cons hspare
    obtain ⟨hnow, hlater⟩ := hpredict.of_cons.of_append
    have hlast : .drop ∉ ops.dropLast := by
      cases ops with
      | nil => simp
      | cons op' ops => exact fun hmem => hdrop (List.mem_cons_of_mem _ hmem)
    by_cases hop : op = .drop
    · subst hop
      cases ops with
      | nil => rfl
      | cons op ops => simp at hdrop
    have hcomposed := h.report.apply hop hfirst
    by_cases hcall : ∃ c, op = .call c
    · obtain ⟨c, rfl⟩ := hcall
      have hrun := isRunning_call { m with delivered := [] } c hr
      have hrest' := ih hcomposed hrun hlast hrest hlater
      rw [runChecking, runWith, report_fresh_call hr]
      exact congrArg₂ List.cons rfl hrest'
    · have hseen := h.report.seen_apply_fresh hr rfl hop (fun c hc => hcall ⟨c, hc⟩) hnow hfirst
        View.plain
      have hanswer : ({ m with delivered := [] }.apply op).2 =
          (({ m with delivered := [] } : LiveMap ν).fresh.applyWith sleepChecking op).2 := by
        cases op with
        | call c => exact absurd ⟨c, rfl⟩ hcall
        | settle | sleep | stop | stopTwice | restart | drop => rfl
      have hhead : View.plain.report (m.report op).1 =
          View.plain.report (m.fresh.reportWith sleepChecking op).1 :=
        report_eq_of_seen rfl hanswer hseen
      have htail := run_seen hcomposed.sound
        (h.report.fresh.sound.applyWith_sleepChecking op) hseen ops
      simp only [View.report_plain, List.map_id, id] at hhead htail
      exact congrArg₂ List.cons hhead htail

namespace Composed

theorem after (h : m.Composed) {ops ops' : List (Operation ν)} (hdrop : .drop ∉ ops)
    (hspare : m.SparesWorkers (ops ++ ops')) :
    (m.after ops).Composed ∧ (m.after ops).SparesWorkers ops' := by
  induction ops generalizing m with
  | nil => exact ⟨h, hspare⟩
  | cons op ops ih =>
    rw [List.mem_cons, not_or] at hdrop
    obtain ⟨hfirst, hrest⟩ := h.sound.sparesWorkers_cons hspare
    exact ih (h.report.apply (Ne.symm hdrop.1) hfirst) hdrop.2 hrest

end Composed

/-- No later report tells whether the map was restarted, or stopped and started again, between
these operations. -/
def RestartUnseen (m : LiveMap ν) (before after : List (Operation ν)) : Prop :=
  (m.run (before ++ .restart :: after)).drop (before.length + 1) =
      (m.run (before ++ after)).drop before.length ∧
    (m.run (before ++ .stop :: .call .start :: after)).drop (before.length + 2) =
      (m.run (before ++ after)).drop before.length

/-- In a run in which no callback ends its worker, it makes no difference to anything later whether
a running map is restarted between two operations, unless from there on it has several workers,
leaves them a stint's worth of entries, and has a callback that makes an entry which has ended
already. To drop the map is the end of a run. -/
theorem restart_unseen (h : open? settings callback? hasRuntime = .ok m)
    {before after : List (Operation ν)} (hbefore : .drop ∉ before) (hafter : .drop ∉ after.dropLast)
    (hr : (m.after before).isRunning = true) (hspare : m.SparesWorkers (before ++ after))
    (hpredict : (m.after before).Predictable ((m.after before).history after)) :
    m.RestartUnseen before after := by
  obtain ⟨hcomposed, hlater⟩ := (composed_of_open? h).after hbefore hspare
  -- Both ways lead to the map as it was, but for a new sweeper and the deliveries told of.
  have hrestart : m.after (before ++ [.restart]) =
      { (m.after before).fresh with delivered := [] } := by
    rw [LiveMap.after, List.foldl_append]
    exact hcomposed.report.start_stop
  have hstop : m.after (before ++ [.stop, .call .start]) =
      { (m.after before).fresh with delivered := [] } := by
    rw [LiveMap.after, List.foldl_append]
    change ({ ({ m.after before with delivered := [] } : LiveMap ν).stop with
      delivered := [] } : LiveMap ν).start = _
    rw [hcomposed.report.stop_eq]
    rfl
  have hsame := hcomposed.run_fresh hr hafter hlater hpredict
  have hdrop (pause : List (Operation ν))
      (hpause : m.after (before ++ pause) = { (m.after before).fresh with delivered := [] }) :
      (m.run (before ++ (pause ++ after))).drop (before ++ pause).length =
        (m.run (before ++ after)).drop before.length := by
    rw [← List.append_assoc, drop_run, drop_run, hpause, run_with_delivered, hsame]
  constructor
  · simpa using hdrop [.restart] hrestart
  · simpa using hdrop [.stop, .call .start] hstop

/-- While an entry that has ended is still there, with its wake permit pending, and put in again by
the callback. -/
theorem restart_unseen_looping :
    looping.RestartUnseen [.settle, .call (.putUntil "k" () (.due 0))]
      [.settle, .sleep 5] := by
  have hopen : open? {} looping.callback? true = .ok looping := rfl
  have hcallback : (looping.after [.settle, .call (.putUntil "k" () (.due 0))]).callback? =
      some { rearm? := some { next? := some, ttl := Span.millisecond } } := rfl
  exact restart_unseen hopen (by simp) (by simp) (by decide +kernel)
    (fun _ _ _ _ => rfl) (.inr (.inr (makesNoneDue_of_scripts hcallback (by simp) _)))

def seat (n : Nat) : Key := String.singleton (Char.ofNat (n + 1))

/-- As many entries as a sweeper hands over in one stint, all of them ended. -/
def crowd : List (Operation Unit) :=
  .settle :: (List.range Rota.stintAllowance).map fun n => .call (.putUntil (seat n) () (.due 0))

/-- A map in which one callback makes an entry that has ended, and a later one erases it. -/
def meddling : LiveMap Unit where
  settings := {}
  callback? := some
    { scripts := [(seat 0, [.putUntil "late" () (.due 0)]), (seat 69, [.erase "late"])] }
  sweepers := [{ outbox? := some { capacity := 1024, workers := 4 } }]

set_option maxRecDepth 100000 in
/-- The idle turns of the new workers bring the end of the round forward, and with it the turn of
the sweeper: after a restart it takes the late entry out before the other callback erases it. -/
theorem restart_seen_meddling :
    open? {} meddling.callback? true = .ok meddling ∧
      (meddling.after crowd).isRunning = true ∧ meddling.SparesWorkers (crowd ++ [.settle]) ∧
      ¬ meddling.RestartUnseen crowd [.settle] := by
  refine ⟨rfl, by decide +kernel, fun _ _ _ _ => rfl, fun h => ?_⟩
  have hwithout : ((meddling.run (crowd ++ [.settle])).drop 129).map
      (·.statistics?.map (·.expired)) = [some 128] := by decide +kernel
  have hrestarted : ((meddling.run (crowd ++ [.restart, .settle])).drop 130).map
      (·.statistics?.map (·.expired)) = [some 129] := by decide +kernel
  have hsame : [some 129] = [some 128] := by
    rw [← hwithout, ← hrestarted]
    exact congrArg (List.map (·.statistics?.map (·.expired))) h.1
  simp at hsame

end ExpiringMap.LiveMap
