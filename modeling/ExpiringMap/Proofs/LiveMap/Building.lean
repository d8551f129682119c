import ExpiringMap.LiveMap.Builder
import ExpiringMap.Proofs.LiveMap.Moves

namespace ExpiringMap

open LiveMap (OpenError open?_eq_ok_iff problem?_eq_none_iff)

theorem Outbox.refusal?_eq_some_iff {capacity : Nat} (h : 0 < capacity) {r : Outbox.Refusal} :
    Outbox.refusal? capacity = some r ↔ Outbox.maxCapacity < capacity ∧ r = .tooLarge := by
  rw [Outbox.refusal?, if_neg h.ne']
  split
  · next hlarge => simp [hlarge, eq_comm]
  · next hsmall => simp [hsmall]

theorem Outbox.refusal?_eq_none_iff {capacity : Nat} (h : 0 < capacity) :
    Outbox.refusal? capacity = none ↔ capacity ≤ Outbox.maxCapacity := by
  rw [Outbox.refusal?, if_neg h.ne']
  split
  · next hlarge => simp [hlarge]
  · next hsmall => simpa using hsmall

namespace Settings

/-- What makes a problem the first one. -/
def Breaks (s : Settings) : Problem → Prop
  | .noQueue => s.queueCapacity = 0
  | .noIdlePoll => 0 < s.queueCapacity ∧ s.idlePoll = 0

theorem breaks_iff {s : Settings} {p : Problem} : s.Breaks p ↔ s.problem? = some p := by
  cases p <;> simp only [Breaks, problem?] <;> grind

end Settings

namespace Builder

variable {ν : Type}

/-- What it takes for a queue to be made with these settings. -/
def Fits (b : Builder ν) : Prop :=
  b.callback?.isSome → b.settings.queueCapacity ≤ Outbox.maxCapacity

def Refused (b : Builder ν) (hasRuntime : Bool) : OpenError → Prop
  | .invalid p => b.settings.Breaks p
  | .noRuntime => b.settings.problem? = none ∧ hasRuntime = false
  | .queueRefused r =>
    b.settings.problem? = none ∧ hasRuntime = true ∧ ¬ b.Fits ∧ r = .tooLarge

/-- The map that is built: nothing in it yet, and one sweeper, with all its workers if there is a
callback. -/
def fresh (b : Builder ν) : LiveMap ν where
  settings := b.settings
  callback? := b.callback?
  sweepers := [{ outbox? := b.callback?.map fun _ =>
    { capacity := b.settings.queueCapacity, workers := b.settings.workerCount } }]

theorem fits_iff_refusal? {b : Builder ν} (h : 0 < b.settings.queueCapacity) :
    b.Fits ↔ (b.callback?.bind fun _ => Outbox.refusal? b.settings.queueCapacity) = none := by
  unfold Fits
  cases b.callback? with
  | none => simp
  | some c => simp [Outbox.refusal?_eq_none_iff h]

section

variable {b : Builder ν}

theorem build_of_problem? {p : Settings.Problem} (h : b.settings.problem? = some p)
    (hasRuntime : Bool) : b.build hasRuntime = .error (.invalid p) := by
  rw [build, LiveMap.open?, h]

theorem build_outside (h : b.settings.problem? = none) :
    b.build false = .error .noRuntime := by
  rw [build, LiveMap.open?, h]
  rfl

theorem build_of_not_fits (h : b.settings.problem? = none) (hf : ¬ b.Fits) :
    b.build true = .error (.queueRefused .tooLarge) := by
  have hq := (problem?_eq_none_iff.1 h).1
  rw [fits_iff_refusal? hq, ← ne_eq, Option.ne_none_iff_exists'] at hf
  obtain ⟨r, hr⟩ := hf
  obtain ⟨c, -, hc⟩ := Option.bind_eq_some_iff.1 hr
  obtain ⟨-, rfl⟩ := (Outbox.refusal?_eq_some_iff hq).1 hc
  rw [build, LiveMap.open?, h]
  simp [hr]

theorem build_of_fits (h : b.settings.problem? = none) (hf : b.Fits) :
    b.build true = .ok b.fresh := by
  rw [fits_iff_refusal? (problem?_eq_none_iff.1 h).1] at hf
  rw [build, open?_eq_ok_iff]
  exact ⟨h, rfl, hf, rfl⟩

end

theorem build_eq_error_iff (b : Builder ν) (hasRuntime : Bool) (e : OpenError) :
    b.build hasRuntime = .error e ↔ b.Refused hasRuntime e := by
  cases hp : b.settings.problem? with
  | some p =>
    rw [build_of_problem? hp]
    cases e <;> simp [Refused, Settings.breaks_iff, hp]
  | none =>
    cases hasRuntime with
    | false =>
      rw [build_outside hp]
      cases e <;> simp [Refused, Settings.breaks_iff, hp]
    | true =>
      by_cases hf : b.Fits
      · rw [build_of_fits hp hf]
        cases e <;> simp [Refused, Settings.breaks_iff, hp, hf]
      · rw [build_of_not_fits hp hf]
        cases e <;> simp [Refused, Settings.breaks_iff, hp, hf, eq_comm]

theorem build_eq_ok_iff (b : Builder ν) (hasRuntime : Bool) (m : LiveMap ν) :
    b.build hasRuntime = .ok m ↔
      b.settings.problem? = none ∧ hasRuntime = true ∧ b.Fits ∧ m = b.fresh := by
  rw [build, open?_eq_ok_iff]
  refine and_congr_right fun hp => and_congr_right fun _ => and_congr ?_ eq_comm
  exact (fits_iff_refusal? (problem?_eq_none_iff.1 hp).1).symm

/-- Whichever way the settings are made: there is no map for the reasons named, and for no others;
otherwise the map runs, with nothing in it. The shortest way cannot fail inside a runtime. -/
theorem build_exactly (route : List (Setting ν)) (hasRuntime : Bool) :
    (∀ e, (along route).build hasRuntime = .error e ↔ (along route).Refused hasRuntime e) ∧
    (∀ m, (along route).build hasRuntime = .ok m ↔
      (along route).settings.problem? = none ∧ hasRuntime = true ∧ (along route).Fits ∧
        m = (along route).fresh) ∧
    (along route).fresh.isRunning = true ∧
    ∀ (c : Callback ν) (workers : Nat),
      (listening c workers).build true = .ok (listening c workers).fresh := by
  refine ⟨build_eq_error_iff _ _, build_eq_ok_iff _ _, rfl, fun c workers => ?_⟩
  have hroom : 1024 ≤ Outbox.maxCapacity := by decide
  exact build_of_fits rfl fun _ => hroom

/-- Room for one entry more than a queue may have. -/
def oversized : List (Setting Unit) := [.callback {}, .queueCapacity (Outbox.maxCapacity + 1)]

/-- Settings in which nothing is found wrong, and no map. -/
theorem accepted_not_built : ¬ ∀ route : List (Setting Unit),
    (along route).settings.problem? = none → ∃ m, (along route).build true = .ok m := by
  intro h
  obtain ⟨m, hm⟩ := h oversized (by decide)
  have hbuild : (along oversized).build true = .error (.queueRefused .tooLarge) :=
    build_of_not_fits (by decide) fun hf => absurd (hf rfl) (by decide)
  rw [hbuild] at hm
  cases hm

end Builder

end ExpiringMap
