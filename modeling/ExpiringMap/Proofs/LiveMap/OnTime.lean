import ExpiringMap.Proofs.LiveMap.Ledger
import ExpiringMap.Proofs.LiveMap.Runs

namespace ExpiringMap.LiveMap

variable {ν : Type} {settings : Settings} {callback? : Option (Callback ν)} {hasRuntime : Bool}
  {m : LiveMap ν}

/-- A run in which every entry that ends is taken out when its turn comes, as it would be if the
map were checked at every millisecond. -/
structure OnTime (m : LiveMap ν) (ops : List (Operation ν)) : Prop where
  path : Path m (m.history ops) (m.after ops)
  taken : ∀ before mv rest, m.history ops = before ++ mv :: rest →
    ∀ x ∈ (m.follow before).taken mv,
      (m.follow before).clock = (({} : Ledger).follow m before).turnOf x.key x.due
  /-- Left undisturbed, an entry is taken out at its turn, or its turn is still to come. -/
  kept : ∀ before mvs rest, m.history ops = before ++ (mvs ++ rest) →
    (m.follow before).isRunning = true →
    ∀ k v e, (m.follow before).table.get? k = some (v, .due e) →
      Ledger.Undisturbed k (m.follow before) mvs →
      let turn := (({} : Ledger).follow m before).turnOf k e
      let later := (m.follow before).follow mvs
      Ledger.TakenAt (m.follow before) mvs ⟨k, v, e⟩ turn ∨
        later.isRunning = true ∧ later.table.get? k = some (v, .due e) ∧ later.clock ≤ turn ∧
          (later.isAtRest = true → later.clock < turn)
  /-- After a wait nothing is due on a map that runs. -/
  none_due : ∀ op, op = .settle ∨ (∃ ms, op = .sleep ms) →
    let later := ((m.after ops).report op).2
    later.isRunning = true → ∀ k left, later.table.timeLeft k later.now = some (some left) →
      0 < left
  checked : m.run ops = m.runChecking ops

theorem Sound.run_eq_runChecking (h : m.Sound) (ops : List (Operation ν)) :
    m.run ops = m.runChecking ops := by
  have hrun := run_seen (v := View.plain) h h rfl ops
  rw [View.report_plain, List.map_id, List.map_id] at hrun
  exact hrun

theorem Sound.isAtRest_wait (h : m.Sound) {op : Operation ν}
    (hop : op = .settle ∨ ∃ ms, op = .sleep ms) : (m.report op).2.isAtRest = true := by
  have hclear := h.with_callback m.callback? []
  rcases hop with rfl | ⟨ms, rfl⟩
  · exact hclear.isAtRest_settle
  · exact hclear.settle.isAtRest_sleepUntil _

theorem Sound.timeLeft_pos (h : m.Sound) (hr : m.isAtRest = true) (hrun : m.isRunning = true)
    {k : Key} {left : Span} (hk : m.table.timeLeft k m.now = some (some left)) : 0 < left := by
  obtain ⟨⟨v, d⟩, hget, hd⟩ := Option.map_eq_some_iff.1 hk
  cases d with
  | never => cases hd
  | due e =>
    have hlt := h.lt_due hr hrun hget
    have hleft : (e - m.now).toNat = left := Option.some.inj hd
    rw [← hleft, Int.lt_toNat]
    exact Int.sub_pos_of_lt hlt

section

variable (h : open? settings callback? hasRuntime = .ok m)

include h

/-- A map with another idle poll gives the same reports, text aside. -/
theorem exists_run_eq_of_idlePoll {idlePoll : Span} (hp : 0 < idlePoll)
    (ops : List (Operation ν)) :
    ∃ m', open? { settings with idlePoll } callback? hasRuntime = .ok m' ∧
      (m'.run ops).map View.textless.report = (m.run ops).map View.textless.report := by
  have hsound := sound_of_open? h
  obtain ⟨hproblem, hruntime, hrefusal, rfl⟩ := open?_eq_ok_iff.1 h
  have hproblem' : ({ settings with idlePoll } : Settings).problem? = none :=
    problem?_eq_none_iff.2 ⟨(problem?_eq_none_iff.1 hproblem).1, hp⟩
  have h' := open?_eq_ok_iff.2 ⟨hproblem', hruntime, hrefusal, rfl⟩
  have hpolls := run_seen (v := View.textless) (sound_of_open? h') hsound rfl ops
  refine ⟨_, h', ?_⟩
  rw [hpolls, ← hsound.run_eq_runChecking]

theorem prompt_of_open? : ({} : Ledger).Prompt m where
  sound := sound_of_open? h
  started_le := Nat.zero_le _
  written_le _ := Nat.zero_le _
  on_time _ k v e hk := by
    obtain ⟨-, -, -, rfl⟩ := open?_eq_ok_iff.1 h
    exact Nat.zero_le _

/-- However a map is set up and whatever is done with it, every entry is taken out on time, and the
idle poll shows in no report but where a text tells of it. -/
theorem expires_on_time (ops : List (Operation ν)) :
    m.OnTime ops ∧
    ∀ idlePoll, 0 < idlePoll → ∃ m',
      open? { settings with idlePoll } callback? hasRuntime = .ok m' ∧
      (m'.run ops).map View.textless.report = (m.run ops).map View.textless.report := by
  have hprompt := prompt_of_open? h
  have hsound := hprompt.sound
  have hpath := hsound.path_history ops
  refine ⟨⟨hpath, ?_, ?_, ?_, ?_⟩, ?_⟩
  · intro before mv rest he x hx
    rw [he] at hpath
    obtain ⟨hbefore, hnext⟩ := hpath.split
    cases hnext with
    | cons hl _ => exact (hprompt.follow hbefore).clock_eq hl hx
  · intro before mvs rest he hrun k v e hk hu turn later
    rw [he] at hpath
    obtain ⟨hbefore, hnext⟩ := hpath.split
    exact (hprompt.follow hbefore).taken_or_to_come hnext.split.1 hrun hk hu
  · intro op hop later hrun k left hk
    have hlater := hsound.after ops
    exact (hlater.report op).timeLeft_pos (hlater.isAtRest_wait hop) hrun hk
  · exact hsound.run_eq_runChecking ops
  · intro idlePoll hp
    exact exists_run_eq_of_idlePoll h hp ops

end

/-- A map with a callback that puts every entry in again for a millisecond. -/
def looping : LiveMap Unit where
  settings := {}
  callback? := some { rearm? := some { next? := some, ttl := Span.millisecond } }
  sweepers := [{ outbox? := some { capacity := 1024, workers := 4 } }]

theorem expires_on_time_looping :
    looping.OnTime [.call (.putUntil "k" () (.due 1500000)), .settle, .sleep 5, .stop] := by
  have hopen : open? {} looping.callback? true = .ok looping := rfl
  exact (expires_on_time hopen _).1

end ExpiringMap.LiveMap
