import ExpiringMap.Proofs.LiveMap.Calm
import ExpiringMap.Proofs.LiveMap.Lockstep

/-!
A map that checks: while it sleeps, every alarm goes off at every millisecond, so that its sweeper
looks at the whole table each time. Nobody can tell it from a map that sleeps until its next timer.
-/

namespace ExpiringMap.LiveMap

open Sweeper (goneOff any_goneOff)

variable {ν : Type} {v : View ν} {m n : LiveMap ν}

/-- Lets one millisecond pass, and makes every alarm go off at its end. -/
def tick (m : LiveMap ν) : LiveMap ν := { m with clock := m.clock + 1 }.rouse.settle

def ticks : Nat → LiveMap ν → LiveMap ν
  | 0, m => m
  | k + 1, m => ticks k m.tick

/-- Sleeps, checking at every millisecond. -/
def sleepChecking (m : LiveMap ν) (ms : Nat) : LiveMap ν := m.settle.ticks ms

def outline (v : View ν) (m : LiveMap ν) : LiveMap ν := m.mute.seen v

theorem outline_eq (v : View ν) (m : LiveMap ν) :
    m.outline v =
      { m with
        settings := { m.settings with idlePoll := v.idlePoll m.settings.idlePoll }
        sweepers := m.sweepers.map (·.realarm fun _ => none)
        delivered := m.delivered.map v.event } := by
  simp only [outline, mute, seen, realarm, List.map_map, Function.comp_def,
    Sweeper.realarm_realarm]
  rfl

theorem outline_seen (v : View ν) (m : LiveMap ν) : (m.seen v).outline v = m.outline v := by
  simp only [outline_eq, seen, List.map_map, Function.comp_def, Sweeper.realarm_realarm,
    v.idlePoll_idlePoll, v.event_event]

theorem outline_of_seen (h : m.seen v = n.seen v) : m.outline v = n.outline v := by
  rw [← outline_seen v m, h, outline_seen]

theorem outline_clock (h : m.outline v = n.outline v) (clock : Nat) :
    ({ m with clock } : LiveMap ν).outline v = ({ n with clock } : LiveMap ν).outline v := by
  have hclock (m : LiveMap ν) :
      ({ m with clock } : LiveMap ν).outline v = { m.outline v with clock } := by
    rw [outline_eq, outline_eq]
  rw [hclock, h, hclock]

theorem seen_rouse (h : m.outline v = n.outline v) : m.rouse.seen v = n.rouse.seen v := by
  have hrouse (m : LiveMap ν) : (m.outline v).rouse.seen v = m.rouse.seen v := by
    simp only [outline_eq, rouse, realarm, seen, now, List.map_map, Function.comp_def,
      Sweeper.realarm_realarm, Sweeper.goneOff_goOff, v.idlePoll_idlePoll, v.event_event]
  rw [← hrouse m, h, hrouse]

theorem seen_of_isAtRest (h : m.isAtRest = true) (v : View ν) : m.seen v = m.outline v := by
  have hmap : m.sweepers.map (·.realarm (goneOff m.now)) =
      m.sweepers.map (·.realarm fun _ => none) := by
    apply Sweeper.map_realarm_congr
    intro s hs alarm? hp
    obtain ⟨i, hi⟩ := List.mem_iff_getElem?.1 hs
    have hlate := (waiting_of_isAtRest h hi hp).2.2
    cases alarm? with
    | none => rfl
    | some a => simpa [goneOff] using hlate a rfl
  rw [outline_eq, seen, hmap]

theorem seen_of_outline (hm : m.isAtRest = true) (hn : n.isAtRest = true)
    (h : m.outline v = n.outline v) : m.seen v = n.seen v := by
  rw [seen_of_isAtRest hm, h, seen_of_isAtRest hn]

theorem ticks_succ (k : Nat) (m : LiveMap ν) : m.ticks (k + 1) = (m.ticks k).tick := by
  induction k generalizing m with
  | zero => rfl
  | succ k ih => exact ih m.tick

theorem ticks_add (j k : Nat) (m : LiveMap ν) : m.ticks (j + k) = (m.ticks j).ticks k := by
  induction k with
  | zero => rfl
  | succ k ih => rw [← Nat.add_assoc, ticks_succ, ih, ticks_succ]

@[simp] theorem clock_tick (m : LiveMap ν) : m.tick.clock = m.clock + 1 := clock_settle _

theorem clock_ticks (k : Nat) (m : LiveMap ν) : (m.ticks k).clock = m.clock + k := by
  induction k with
  | zero => rfl
  | succ k ih => rw [ticks_succ, clock_tick, ih, Nat.add_assoc]

namespace Sound

theorem tick (h : m.Sound) : m.tick.Sound := (h.clock _).rouse.settle

theorem isAtRest_tick (h : m.Sound) : m.tick.isAtRest = true := (h.clock _).rouse.isAtRest_settle

theorem ticks (h : m.Sound) (k : Nat) : (m.ticks k).Sound := by
  induction k generalizing m with
  | zero => exact h
  | succ k ih => exact ih h.tick

theorem isAtRest_ticks (h : m.Sound) (hr : m.isAtRest = true) (k : Nat) :
    (m.ticks k).isAtRest = true := by
  induction k generalizing m with
  | zero => exact hr
  | succ k ih => exact ih h.tick h.isAtRest_tick

/-- Nothing comes of a tick by which no entry has ended. -/
theorem mute_tick (h : m.Sound) (hr : m.isAtRest = true)
    (hnone : m.isRunning = true → ∀ k v e, m.table.get? k = some (v, .due e) →
      Instant.ofMillis (m.clock + 1 : Nat) < e) :
    m.tick.mute = ({ m with clock := m.clock + 1 } : LiveMap ν).mute := by
  have hcalm := (h.calm hr hnone).rouse
  refine (hcalm.mute_settle (h.clock _).rouse fun s hs => ?_).trans (mute_realarm _ _)
  obtain ⟨s, hmem, rfl⟩ := List.mem_map.1 hs
  obtain ⟨i, hi⟩ := List.mem_iff_getElem?.1 hmem
  rw [ne_eq, Sweeper.phase_realarm_eq_looking_iff]
  exact not_looking_of_isAtRest hr hi

theorem mute_ticks (h : m.Sound) (hr : m.isAtRest = true) (k : Nat)
    (hnone : m.isRunning = true → ∀ k' v e, m.table.get? k' = some (v, .due e) →
      Instant.ofMillis (m.clock + k : Nat) < e) :
    (m.ticks k).mute = ({ m with clock := m.clock + k } : LiveMap ν).mute := by
  induction k with
  | zero => rfl
  | succ k ih =>
    have hbefore (clock : Nat) (hle : clock ≤ m.clock + (k + 1)) (e : Instant)
        (he : Instant.ofMillis (m.clock + (k + 1) : Nat) < e) : Instant.ofMillis clock < e := by
      rw [← Instant.lt_ceilMillis_iff] at he ⊢
      omega
    have hk := ih fun hrun k' v e hk' => hbefore _ (by omega) e (hnone hrun k' v e hk')
    have htable : (m.ticks k).table = m.table := congrArg (·.table) hk
    have hrunning : (m.ticks k).isRunning = m.isRunning := by
      rw [← isRunning_realarm (fun _ => none), ← mute, hk]
      exact isRunning_realarm _ _
    rw [ticks_succ, (h.ticks k).mute_tick (h.isAtRest_ticks hr k), clock_ticks]
    · exact congrArg (fun n : LiveMap ν => { n with clock := m.clock + k + 1 }) hk
    · rw [hrunning, htable, clock_ticks]
      exact hnone

theorem mute_advanceTo (h : m.Sound) (hr : m.isAtRest = true) {clock : Nat}
    (hnone : m.isRunning = true → ∀ k v e, m.table.get? k = some (v, .due e) →
      Instant.ofMillis clock < e) :
    (m.advanceTo clock).mute = ({ m with clock } : LiveMap ν).mute := by
  refine (h.calm hr hnone).mute_settle (h.clock _) fun s hs => ?_
  obtain ⟨i, hi⟩ := List.mem_iff_getElem?.1 hs
  exact not_looking_of_isAtRest hr hi

/-- When the clock stands at the next timer, all alarms have gone off. -/
theorem seen_nextTimer (h : m.Sound) (hr : m.isAtRest = true) {t : Nat}
    (ht : m.nextTimer? = some t) (v : View ν) :
    ({ m with clock := t } : LiveMap ν).seen v =
      ({ m with clock := t } : LiveMap ν).rouse.seen v := by
  obtain ⟨j, s', a, hj, hl', hp', rfl⟩ := (mem_timers_iff hr).1 (List.min?_mem ht)
  have hpast : a ≤ Instant.ofMillis (Instant.ceilMillis a).toNat := by
    rw [← Instant.ceilMillis_le_iff]
    exact Int.self_le_toNat _
  generalize (Instant.ceilMillis a).toNat = t at hpast
  have hmap : m.sweepers.map (·.realarm (goneOff (Instant.ofMillis t))) =
      m.sweepers.map (·.realarm fun _ => some (Instant.ofMillis t)) := by
    apply Sweeper.map_realarm_congr
    intro s hs alarm? hp
    obtain ⟨i, hi⟩ := List.mem_iff_getElem?.1 hs
    -- There is one sweeper that waits, and the timer is its own.
    have hij := h.unique hi hj (waiting_of_isAtRest hr hi hp).1 hl'
    rw [hij, hj] at hi
    cases hi
    rw [hp'] at hp
    cases hp
    simpa [goneOff] using hpast
  simp only [seen, LiveMap.rouse, realarm, now, List.map_map, Function.comp_def,
    Sweeper.realarm_realarm, Sweeper.goneOff_goOff, hmap]

/-- Before the next timer no entry ends. -/
theorem lt_of_lt_nextTimer (h : m.Sound) (hr : m.isAtRest = true) {clock : Nat}
    (ht : ∀ t, m.nextTimer? = some t → clock < t) (hrun : m.isRunning = true) {k : Key} {v : ν}
    {e : Instant} (hk : m.table.get? k = some (v, .due e)) : Instant.ofMillis clock < e := by
  obtain ⟨t, hn, hle⟩ := h.nextTimer_le hr hrun hk
  have hlt := ht t hn
  rw [← Instant.lt_ceilMillis_iff]
  omega

end Sound

theorem isRunning_of_outline (h : m.outline v = n.outline v) : m.isRunning = n.isRunning := by
  have hout (m : LiveMap ν) : (m.outline v).isRunning = m.isRunning := by
    rw [outline, isRunning_seen, mute, isRunning_realarm]
  rw [← hout m, h, hout]

section

variable (hm : m.Sound) (hmr : m.isAtRest = true) (hn : n.Sound) (hnr : n.isAtRest = true)
  (h : m.outline v = n.outline v)

include hm hmr hn hnr h

theorem outline_ticks {clock : Nat} (hle : m.clock ≤ clock)
    (ht : ∀ t, m.nextTimer? = some t → clock < t) :
    ({ m with clock } : LiveMap ν).outline v = (n.ticks (clock - m.clock)).outline v := by
  have hrunning := isRunning_of_outline h
  have htable : m.table = n.table := congrArg (·.table) h
  have hclock : n.clock + (clock - m.clock) = clock := by
    have : m.clock = n.clock := congrArg (·.clock) h
    omega
  have hticks := hn.mute_ticks hnr (clock - m.clock) fun hrun k v e hk => by
    rw [hclock]
    exact hm.lt_of_lt_nextTimer hmr ht (hrunning.trans hrun) (htable ▸ hk)
  rw [hclock] at hticks
  exact (outline_clock h clock).trans (congrArg (seen v) hticks).symm

theorem outline_advanceTo {clock : Nat} (hle : m.clock ≤ clock)
    (ht : ∀ t, m.nextTimer? = some t → clock < t) :
    (m.advanceTo clock).outline v = (n.ticks (clock - m.clock)).outline v := by
  have hjump := hm.mute_advanceTo hmr fun hrun k v e hk => hm.lt_of_lt_nextTimer hmr ht hrun hk
  exact (congrArg (seen v) hjump).trans (outline_ticks hm hmr hn hnr h hle ht)

end

/-- Who sleeps until the next timer, and who checks at every millisecond, come out alike. -/
theorem outline_sleepUntil (hm : m.Sound) (hmr : m.isAtRest = true) (hn : n.Sound)
    (hnr : n.isAtRest = true) (h : m.outline v = n.outline v) {target : Nat}
    (hle : m.clock ≤ target) :
    (m.sleepUntil target).outline v = (n.ticks (target - m.clock)).outline v := by
  fun_induction sleepUntil target m generalizing n with
  | case1 m t ht hlt ih =>
    have hclock : n.clock = m.clock := congrArg (·.clock) h.symm
    -- Nothing happens until the last tick before the timer, and in that tick what it sets off.
    have hcalm := outline_ticks hm hmr hn hnr h (Nat.le_pred_of_lt hlt.1) fun t' ht' => by
      rw [ht] at ht'
      cases ht'
      exact Nat.pred_lt_self (by omega)
    have hlast : (n.ticks (t - 1 - m.clock)).clock + 1 = t := by
      rw [clock_ticks]
      omega
    have hout := outline_clock hcalm t
    have hrouse := (hm.seen_nextTimer hmr ht v).trans (seen_rouse hout)
    have hseen : (m.advanceTo t).seen v = (n.ticks (t - m.clock)).seen v := by
      have hsplit : t - m.clock = (t - 1 - m.clock) + 1 := by omega
      rw [hsplit, ticks_succ, tick, hlast]
      exact seen_settle (hm.clock t) ((hn.ticks _).clock t).rouse hrouse
    have hadd : target - m.clock = (t - m.clock) + (target - t) := by omega
    rw [hadd, ticks_add]
    have hnext := ih (hm.advanceTo t) (hm.isAtRest_advanceTo t) (hn.ticks (t - m.clock))
      (hn.isAtRest_ticks hnr _) (outline_of_seen hseen) (by simpa using hlt.2)
    rw [clock_advanceTo] at hnext
    exact hnext
  | case2 m t ht hnot =>
    have hlate := clock_lt_nextTimer hmr ht
    refine outline_advanceTo hm hmr hn hnr h hle fun t' ht' => ?_
    rw [ht] at ht'
    cases ht'
    omega
  | case3 m ht =>
    refine outline_advanceTo hm hmr hn hnr h hle fun t' ht' => ?_
    rw [ht] at ht'
    cases ht'

end ExpiringMap.LiveMap
