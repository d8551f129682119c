import ExpiringMap.Proofs.LiveMap.Moves
import ExpiringMap.Proofs.LiveMap.Realarm

namespace ExpiringMap

variable {ν : Type}

namespace LiveMap

/-- Sets the alarms of all who wait anew. -/
def realarm (g : Option Instant → Option Instant) (m : LiveMap ν) : LiveMap ν :=
  { m with sweepers := m.sweepers.map (·.realarm g) }

def mute (m : LiveMap ν) : LiveMap ν := m.realarm fun _ => none

/-- Makes every alarm go off that has not. -/
def rouse (m : LiveMap ν) : LiveMap ν := m.realarm (Sweeper.goOff m.now)

variable {m m' : LiveMap ν} {i : Nat} {s : Sweeper ν}

theorem mute_realarm (g : Option Instant → Option Instant) (m : LiveMap ν) :
    (m.realarm g).mute = m.mute := by
  simp only [mute, realarm, List.map_map, Function.comp_def, Sweeper.realarm_realarm]

theorem isRunning_realarm (g : Option Instant → Option Instant) (m : LiveMap ν) :
    (m.realarm g).isRunning = m.isRunning := by
  rw [isRunning, realarm, List.any_map]
  rfl

theorem Sound.rouse (h : m.Sound) : m.rouse.Sound where
  idlePoll_pos := h.idlePoll_pos
  capacity_pos := h.capacity_pos
  consistent := h.consistent
  fit s hs := by
    obtain ⟨s, hmem, rfl⟩ := List.mem_map.1 hs
    have hf := h.fit s hmem
    refine ⟨hf.room, fun hl => ?_, fun hl alarm? hp => ?_⟩
    · rw [ne_eq, Sweeper.phase_realarm_eq_done_iff]
      exact hf.present hl
    · cases hp' : s.phase with
      | waiting a? =>
        rw [Sweeper.phase_realarm_of_waiting _ s hp'] at hp
        cases hp
        exact (hf.awake hl a? hp').imp_left fun hg => Sweeper.guards_goOff hg m.now
      | _ => simp [Sweeper.realarm, Phase.realarm, hp'] at hp
  one := by
    have hmap : m.rouse.sweepers.map (·.leaving) = m.sweepers.map (·.leaving) := by
      rw [LiveMap.rouse, realarm, List.map_map]
      rfl
    rw [hmap]
    exact h.one

/-- Whoever is leaving has left, and whoever stays looks or waits, and would find nothing. -/
structure Calm (m : LiveMap ν) : Prop where
  left : ∀ s ∈ m.sweepers, s.leaving = true → s.phase = .done
  stays : ∀ s ∈ m.sweepers, s.leaving = false →
    s.phase = .looking ∨ ∃ alarm?, s.phase = .waiting alarm?
  nothing : ∀ s ∈ m.sweepers, s.leaving = false →
    m.watched.permit = false ∧ (m.table.takeDue m.now).1 = []
  idle : ∀ s ∈ m.sweepers, s.take? = none

theorem Sound.calm (hm : m.Sound) (h : m.isAtRest = true) {clock : Nat}
    (hnone : m.isRunning = true → ∀ k v e, m.table.get? k = some (v, .due e) →
      Instant.ofMillis clock < e) : { m with clock }.Calm where
  left s hs hl := by
    obtain ⟨i, hi⟩ := List.mem_iff_getElem?.1 hs
    exact hm.done h hi hl
  stays s hs hl := by
    obtain ⟨i, hi⟩ := List.mem_iff_getElem?.1 hs
    obtain ⟨alarm?, hp, -⟩ := hm.waiting h hi hl
    exact .inr ⟨alarm?, hp⟩
  nothing s hs hl := by
    obtain ⟨i, hi⟩ := List.mem_iff_getElem?.1 hs
    obtain ⟨alarm?, hp, -⟩ := hm.waiting h hi hl
    refine ⟨(waiting_of_isAtRest h hi hp).2.1, ?_⟩
    refine hm.consistent.takeDue_eq_nil_iff.2 fun k v d hk => ?_
    cases d with
    | never => rfl
    | due e =>
      have hlt := hnone (isRunning_of_getElem? hi hl) k v e hk
      rw [Bool.eq_false_iff, ne_eq, Deadline.hasPassed_due]
      exact Int.not_le.2 hlt
  idle s hs := by
    obtain ⟨i, hi⟩ := List.mem_iff_getElem?.1 hs
    exact take?_of_isAtRest h hi

theorem Calm.rouse (h : m.Calm) : m.rouse.Calm := by
  have hmem {s : Sweeper ν} (hs : s ∈ m.rouse.sweepers) :
      ∃ s₀ ∈ m.sweepers, ∃ g, s = s₀.realarm g := by
    obtain ⟨s₀, hs₀, rfl⟩ := List.mem_map.1 hs
    exact ⟨s₀, hs₀, _, rfl⟩
  refine ⟨fun s hs hl => ?_, fun s hs hl => ?_, fun s hs hl => ?_, fun s hs => ?_⟩
  · obtain ⟨s₀, hs₀, g, rfl⟩ := hmem hs
    exact (Sweeper.phase_realarm_eq_done_iff g s₀).2 (h.left s₀ hs₀ hl)
  · obtain ⟨s₀, hs₀, g, rfl⟩ := hmem hs
    rcases h.stays s₀ hs₀ hl with hp | ⟨alarm?, hp⟩
    · exact .inl ((Sweeper.phase_realarm_eq_looking_iff g s₀).2 hp)
    · exact .inr ⟨g alarm?, Sweeper.phase_realarm_of_waiting g s₀ hp⟩
  · obtain ⟨s₀, hs₀, g, rfl⟩ := hmem hs
    exact h.nothing s₀ hs₀ hl
  · obtain ⟨s₀, hs₀, g, rfl⟩ := hmem hs
    rw [Sweeper.take?_realarm, h.idle s₀ hs₀]
    rfl

/-- All that a calm map can come to: somebody who looked waits, or the other way round. -/
inductive Stirred (m : LiveMap ν) : LiveMap ν → Prop
  | mk {i s p} (hi : m.sweepers[i]? = some s) (hl : s.leaving = false)
      (hp : p = .looking ∨ ∃ alarm?, p = .waiting alarm?) :
      Stirred m (m.setSweeper i { s with phase := p })

theorem Calm.stirred (h : m.Calm) {t : Turn} (ht : m.Turned t m') : m.Stirred m' := by
  have hstays {i : Nat} {s : Sweeper ν} (hi : m.sweepers[i]? = some s) (hne : s.phase ≠ .done) :
      s.leaving = false := by
    rw [Bool.eq_false_iff]
    exact fun hl => hne (h.left s (List.mem_of_getElem? hi) hl)
  cases ht with
  | hand hi hs =>
    obtain ⟨x, rest, hp, -⟩ := Sweeper.hand?_cases hs
    have hl := hstays hi (by simp [hp])
    rcases h.stays _ (List.mem_of_getElem? hi) hl with hp' | ⟨alarm?, hp'⟩
    · rw [hp] at hp'
      cases hp'
    · rw [hp] at hp'
      cases hp'
  | work hi hs =>
    rw [h.idle _ (List.mem_of_getElem? hi)] at hs
    cases hs
  | look hi hs =>
    obtain ⟨hp, hs⟩ := Sweeper.look?_cases hs
    have hl := hstays hi (by simp [hp])
    have hnone := (h.nothing _ (List.mem_of_getElem? hi) hl).2
    cases hs with
    | leaves hlv =>
      rw [hl] at hlv
      cases hlv
    | waits => exact .mk hi hl (.inr ⟨_, rfl⟩)
    | drops _ hdue => exact absurd hnone hdue
    | hands _ hdue => exact absurd (hnone.symm.trans hdue) (by simp)
  | @release i r s w s' hi hs =>
    obtain ⟨alarm?, hp, hs⟩ := Sweeper.release?_cases hs
    have hl := hstays hi (by simp [hp])
    have hpermit := (h.nothing _ (List.mem_of_getElem? hi) hl).1
    cases r with
    | leave =>
      rw [hl] at hs
      cases hs.1
    | wake =>
      rw [hpermit] at hs
      cases hs.1
    | timer =>
      obtain ⟨t, -, -, rfl, rfl⟩ := hs
      exact .mk hi hl (.inl rfl)

theorem Calm.of_stirred (h : m.Calm) (hs : m.Stirred m') : m'.Calm := by
  obtain ⟨hi, hl, hp⟩ := hs
  have hmem := List.mem_of_getElem? hi
  refine ⟨fun s' hs' hl' => ?_, fun s' hs' hl' => ?_, fun s' hs' hl' => ?_, fun s' hs' => ?_⟩
  · rcases List.mem_or_eq_of_mem_set hs' with hs' | rfl
    · exact h.left s' hs' hl'
    · rw [hl] at hl'
      cases hl'
  · rcases List.mem_or_eq_of_mem_set hs' with hs' | rfl
    · exact h.stays s' hs' hl'
    · exact hp
  · rcases List.mem_or_eq_of_mem_set hs' with hs' | rfl
    · exact h.nothing s' hs' hl'
    · exact h.nothing _ hmem hl
  · rcases List.mem_or_eq_of_mem_set hs' with hs' | rfl
    · exact h.idle s' hs'
    · have ht := h.idle _ hmem
      simpa [Sweeper.take?] using ht

end LiveMap

/-- A sweeper that waits taken for one that looks. -/
def Sweeper.still (s : Sweeper ν) : Sweeper ν :=
  match s.phase with
  | .waiting _ => { s with phase := .looking }
  | _ => s

theorem Sweeper.realarm_eq_of_still_eq {s s' : Sweeper ν} (h : s.still = s'.still)
    (hs : s.phase ≠ .looking) (hs' : s'.phase ≠ .looking) :
    s.realarm (fun _ => none) = s'.realarm fun _ => none := by
  obtain ⟨p, l, o⟩ := s
  obtain ⟨p', l', o'⟩ := s'
  cases p <;> cases p' <;> simp_all [still, realarm, Phase.realarm]

namespace LiveMap

variable {m m' : LiveMap ν}

def still (m : LiveMap ν) : LiveMap ν := { m with sweepers := m.sweepers.map (·.still) }

theorem Calm.still_of_stirred (h : m.Calm) (hs : m.Stirred m') : m'.still = m.still := by
  obtain @⟨i, s, p, hi, hl, hp⟩ := hs
  have hstill : ({ s with phase := p } : Sweeper ν).still = s.still := by
    have hs := h.stays s (List.mem_of_getElem? hi) hl
    obtain ⟨p', l, o⟩ := s
    rcases hp with rfl | ⟨a, rfl⟩
    · rcases hs with rfl | ⟨a', rfl⟩
      · rfl
      · rfl
    · rcases hs with rfl | ⟨a', rfl⟩
      · rfl
      · rfl
  simp only [still, setSweeper, map_set_eq_map hi hstill]

theorem mute_eq_of_still_eq (h : m.still = m'.still) (hm : ∀ s ∈ m.sweepers, s.phase ≠ .looking)
    (hm' : ∀ s ∈ m'.sweepers, s.phase ≠ .looking) : m.mute = m'.mute := by
  have hsweepers : m.sweepers.map (·.realarm fun _ => none) =
      m'.sweepers.map (·.realarm fun _ => none) := by
    apply List.ext_getElem?
    intro i
    have hi := congrArg (fun n : LiveMap ν => n.sweepers[i]?) h
    simp only [still, List.getElem?_map] at hi ⊢
    cases hs : m.sweepers[i]? with
    | none =>
      rw [hs] at hi
      rw [Option.map_eq_none_iff.1 hi.symm]
    | some s =>
      rw [hs] at hi
      obtain ⟨s', hs', he⟩ := Option.map_eq_some_iff.1 hi.symm
      rw [hs']
      exact congrArg some (Sweeper.realarm_eq_of_still_eq he.symm
        (hm s (List.mem_of_getElem? hs)) (hm' s' (List.mem_of_getElem? hs')))
  obtain ⟨settings, callback?, clock, watched, sweepers, delivered⟩ := m
  obtain ⟨settings', callback?', clock', watched', sweepers', delivered'⟩ := m'
  simp only [still, mk.injEq] at h
  obtain ⟨rfl, rfl, rfl, rfl, -, rfl⟩ := h
  simp only [mute, realarm, hsweepers]

theorem Calm.still_settle (h : m.Calm) (hm : m.Sound) : m.settle.still = m.still :=
  (settle_induct (P := fun n => n.Sound ∧ n.Calm ∧ n.still = m.still)
    (fun _ _ hn ho => by
      obtain ⟨hsound, hcalm, hstill⟩ := hn
      have hs := hcalm.stirred ho.turned
      exact ⟨hsound.turn ho, hcalm.of_stirred hs, (hcalm.still_of_stirred hs).trans hstill⟩)
    ⟨hm, h, rfl⟩).2.2

theorem Sound.not_looking_settle (h : m.Sound) : ∀ s ∈ m.settle.sweepers, s.phase ≠ .looking := by
  intro s hs
  obtain ⟨i, hi⟩ := List.mem_iff_getElem?.1 hs
  exact not_looking_of_isAtRest h.isAtRest_settle hi

/-- When a calm map settles nothing changes but alarms. -/
theorem Calm.mute_settle (h : m.Calm) (hm : m.Sound)
    (hl : ∀ s ∈ m.sweepers, s.phase ≠ .looking) : m.settle.mute = m.mute :=
  mute_eq_of_still_eq (h.still_settle hm) hm.not_looking_settle hl

/-- It makes no difference whether a sweeper looks for nothing first. -/
theorem Calm.mute_settle_eq (h : m.Calm) (hm : m.Sound) (h' : m'.Calm) (hm' : m'.Sound)
    (hs : m.still = m'.still) : m.settle.mute = m'.settle.mute :=
  mute_eq_of_still_eq ((h.still_settle hm).trans (hs.trans (h'.still_settle hm').symm))
    hm.not_looking_settle hm'.not_looking_settle

end LiveMap

end ExpiringMap
