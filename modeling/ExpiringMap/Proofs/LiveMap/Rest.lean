import ExpiringMap.Proofs.LiveMap.Measure

namespace ExpiringMap

variable {ν : Type}

namespace Instant

theorem lt_ceilMillis_iff {t : Instant} {ms : Int} : ms < ceilMillis t ↔ ofMillis ms < t := by
  rw [← Int.not_le, ceilMillis_le_iff, Int.not_le]

theorem ceilMillis_mono {s t : Instant} (h : s ≤ t) : ceilMillis s ≤ ceilMillis t := by
  rw [ceilMillis_le_iff]
  exact Int.le_trans h ((ceilMillis_le_iff t _).1 (Int.le_refl _))

end Instant

namespace LiveMap

variable {m : LiveMap ν} {i : Nat} {s : Sweeper ν}

section

variable (h : m.isAtRest = true) (hi : m.sweepers[i]? = some s)

include h hi

theorem hand?_of_isAtRest : s.hand? = none := by
  have ht := turn?_eq_none_of_isAtRest h (.hand i)
  rw [turn?_hand, hi, Option.map_eq_none_iff] at ht
  exact ht

theorem take?_of_isAtRest : s.take? = none := by
  have ht := turn?_eq_none_of_isAtRest h (.work i)
  rw [turn?_work, hi, Option.map_eq_none_iff] at ht
  exact ht

theorem look?_of_isAtRest : s.look? m.now m.settings.idlePoll m.watched = none := by
  have ht := turn?_eq_none_of_isAtRest h (.look i)
  rw [turn?_look, hi, Option.map_eq_none_iff] at ht
  exact ht

theorem release?_of_isAtRest (r : Release) : s.release? m.now m.watched r = none := by
  have ht := turn?_eq_none_of_isAtRest h (.release i r)
  rw [turn?_release, hi, Option.map_eq_none_iff] at ht
  exact ht

theorem not_looking_of_isAtRest : s.phase ≠ .looking := by
  intro hp
  have hl := look?_of_isAtRest h hi
  simp only [Sweeper.look?, hp] at hl
  split at hl
  · cases hl
  · cases hl

theorem waiting_of_isAtRest {alarm? : Option Instant} (hp : s.phase = .waiting alarm?) :
    s.leaving = false ∧ m.watched.permit = false ∧ ∀ a, alarm? = some a → m.now < a := by
  have hleave := release?_of_isAtRest h hi .leave
  have hwake := release?_of_isAtRest h hi .wake
  have htimer := release?_of_isAtRest h hi .timer
  refine ⟨?_, ?_, ?_⟩
  · simpa [Sweeper.release?, hp] using hleave
  · simpa [Sweeper.release?, hp] using hwake
  · rintro a rfl
    simpa [Sweeper.release?, hp] using htimer

end

theorem mem_timers_iff (h : m.isAtRest = true) {t : Nat} :
    t ∈ m.sweepers.filterMap (·.timerMillis?) ↔
      ∃ (i : Nat) (s : Sweeper ν) (a : Instant), m.sweepers[i]? = some s ∧ s.leaving = false ∧
        s.phase = .waiting (some a) ∧ t = (Instant.ceilMillis a).toNat := by
  rw [List.mem_filterMap]
  constructor
  · rintro ⟨s, hs, ht⟩
    obtain ⟨i, hi⟩ := List.mem_iff_getElem?.1 hs
    unfold Sweeper.timerMillis? at ht
    split at ht
    · next a hp =>
      cases ht
      exact ⟨i, s, a, hi, (waiting_of_isAtRest h hi hp).1, hp, rfl⟩
    · cases ht
  · rintro ⟨i, s, a, hi, -, hp, rfl⟩
    exact ⟨s, List.mem_of_getElem? hi, by simp [Sweeper.timerMillis?, hp]⟩

theorem clock_lt_nextTimer (h : m.isAtRest = true) {t : Nat} (ht : m.nextTimer? = some t) :
    m.clock < t := by
  obtain ⟨i, s, a, hi, -, hp, rfl⟩ := (mem_timers_iff h).1 (List.min?_mem ht)
  have hlt := (waiting_of_isAtRest h hi hp).2.2 a rfl
  have hceil : (m.clock : Int) < Instant.ceilMillis a := Instant.lt_ceilMillis_iff.2 hlt
  omega

/-- Handing over is only ever put off by items that a worker can take. -/
theorem not_handing_of_isAtRest (h : m.isAtRest = true) (hi : m.sweepers[i]? = some s)
    (hroom : ∀ o, s.outbox? = some o → 0 < o.capacity) (x : Expired ν)
    (rest : List (Expired ν)) : s.phase ≠ .handing x rest := by
  intro hp
  have hh := hand?_of_isAtRest h hi
  have ht := take?_of_isAtRest h hi
  cases ho : s.outbox? with
  | none => simp [Sweeper.hand?, hp, ho] at hh
  | some o =>
    have hroom := hroom o ho
    simp only [Sweeper.hand?, hp, ho, Outbox.offer] at hh
    by_cases hw : o.workers = 0
    · simp [hw] at hh
    · by_cases hfull : o.capacity ≤ o.queued.length
      · -- A full queue holds an item, since there is room for one, and somebody works.
        obtain ⟨n, hn⟩ := Nat.exists_eq_succ_of_ne_zero hw
        obtain ⟨y, ys, hq⟩ := List.exists_cons_of_length_pos (hroom.trans_le hfull)
        simp [Sweeper.take?, ho, Outbox.take?, hn, hq] at ht
      · simp [hw, hfull] at hh

theorem done_of_isAtRest (h : m.isAtRest = true) (hi : m.sweepers[i]? = some s)
    (hroom : ∀ o, s.outbox? = some o → 0 < o.capacity) (hl : s.leaving = true) :
    s.phase = .done := by
  cases hp : s.phase with
  | looking => exact absurd hp (not_looking_of_isAtRest h hi)
  | handing x rest => exact absurd hp (not_handing_of_isAtRest h hi hroom x rest)
  | done => rfl
  | waiting alarm? =>
    have := (waiting_of_isAtRest h hi hp).1
    rw [hl] at this
    cases this

namespace Sound

variable (hm : m.Sound) (h : m.isAtRest = true)

include hm h

/-- The sweeper that stays waits, and no entry ends before its alarm. -/
theorem waiting (hi : m.sweepers[i]? = some s) (hl : s.leaving = false) :
    ∃ alarm?, s.phase = .waiting alarm? ∧ m.table.Guards alarm? ∧
      ∀ a, alarm? = some a → m.now < a := by
  cases hp : s.phase with
  | looking => exact absurd hp (not_looking_of_isAtRest h hi)
  | handing x rest =>
    have hroom := (hm.fit s (List.mem_of_getElem? hi)).room
    exact absurd hp (not_handing_of_isAtRest h hi hroom x rest)
  | done => exact absurd hp ((hm.fit s (List.mem_of_getElem? hi)).present hl)
  | waiting alarm? =>
    obtain ⟨-, hpermit, hlt⟩ := waiting_of_isAtRest h hi hp
    refine ⟨alarm?, rfl, ?_, hlt⟩
    rcases (hm.fit s (List.mem_of_getElem? hi)).awake hl alarm? hp with hg | hw
    · exact hg
    · rw [hpermit] at hw
      cases hw

theorem done (hi : m.sweepers[i]? = some s) (hl : s.leaving = true) : s.phase = .done :=
  done_of_isAtRest h hi (hm.fit s (List.mem_of_getElem? hi)).room hl

theorem lt_due (hr : m.isRunning = true) {k : Key} {v : ν} {e : Instant}
    (hk : m.table.get? k = some (v, .due e)) : m.now < e := by
  obtain ⟨i, s, hi, hl⟩ := exists_of_isRunning hr
  obtain ⟨alarm?, -, hg, hlt⟩ := hm.waiting h hi hl
  obtain ⟨a, ha, hae⟩ := hg k v e hk
  exact Int.lt_of_lt_of_le (hlt a ha) hae

/-- The next timer goes off no later than the first millisecond at which an entry has ended. -/
theorem nextTimer_le (hr : m.isRunning = true) {k : Key} {v : ν} {e : Instant}
    (hk : m.table.get? k = some (v, .due e)) :
    ∃ t, m.nextTimer? = some t ∧ t ≤ (Instant.ceilMillis e).toNat := by
  obtain ⟨i, s, hi, hl⟩ := exists_of_isRunning hr
  obtain ⟨alarm?, hp, hg, hlt⟩ := hm.waiting h hi hl
  obtain ⟨a, rfl, hae⟩ := hg k v e hk
  have hmem := (mem_timers_iff h).2 ⟨i, s, a, hi, hl, hp, rfl⟩
  obtain ⟨t, ht⟩ := Option.isSome_iff_exists.1 (List.isSome_min?_of_mem hmem)
  refine ⟨t, ht, ((List.le_min?_iff ht).1 (Nat.le_refl t) _ hmem).trans ?_⟩
  exact Int.toNat_le_toNat (Instant.ceilMillis_mono hae)

end Sound

end LiveMap

end ExpiringMap
