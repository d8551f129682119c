import ExpiringMap.Proofs.LiveMap.Staffing

namespace ExpiringMap.LiveMap

variable {ν : Type} {m n : LiveMap ν} {s : Sweeper ν} {t : Turn}

structure Lone (m : LiveMap ν) (s : Sweeper ν) : Prop where
  sound : m.Sound
  staffed : m.Staffed
  alone : m.sweepers = [s]
  stays : s.leaving = false

theorem sweepers_callAll_of_isRunning (hr : m.isRunning = true) (cs : List (Call ν)) :
    (m.callAll cs).1.sweepers = m.sweepers := by
  induction cs generalizing m with
  | nil => rfl
  | cons c cs ih =>
    rw [callAll, ih (isRunning_call m c hr)]
    cases hs : c.isStart with
    | true => rw [call_start hs, start, if_pos hr]
    | false => rw [call_make hs]

theorem sweepers_deliver_of_isRunning (hr : m.isRunning = true) (x : Expired ν) :
    (m.deliver x).sweepers = m.sweepers := by
  rw [deliver_eq]
  exact sweepers_callAll_of_isRunning (m := m.spend x.key) hr _

/-- A sweeper that waits for an alarm waits for one that is still to go off. -/
def Hushed (m : LiveMap ν) : Prop :=
  ∀ s ∈ m.sweepers, ∀ a, s.phase = .waiting (some a) → m.now < a

theorem hushed_of_isAtRest (h : m.isAtRest = true) : m.Hushed := by
  intro s hs a hp
  obtain ⟨i, hi⟩ := List.mem_iff_getElem?.1 hs
  exact (waiting_of_isAtRest h hi hp).2.2 a rfl

namespace Lone

variable (h : m.Lone s)

include h

theorem isRunning : m.isRunning = true := by simp [LiveMap.isRunning, h.alone, h.stays]

theorem getElem?_zero : m.sweepers[0]? = some s := by
  rw [h.alone]
  rfl

theorem eq_of_getElem? {i : Nat} {s' : Sweeper ν} (hi : m.sweepers[i]? = some s') :
    i = 0 ∧ s' = s := by
  rw [h.alone] at hi
  cases i with
  | zero => exact ⟨rfl, (Option.some.inj hi).symm⟩
  | succ i => cases hi

theorem agents : m.agents = [.sweeper 0, .worker 0] := by
  rw [LiveMap.agents, h.alone]
  rfl

theorem workers : s.workers = m.newSweeper.workers := by
  have he := h.staffed s (by rw [h.alone]; exact List.mem_singleton_self s)
  unfold Sweeper.workers
  rw [← he]
  cases s.outbox? with
  | none => rfl
  | some o => rfl

theorem sweeper_eq_zero (ht : m.Turned t n) : t.sweeper = 0 := by
  cases ht with
  | hand hi | work hi | look hi | release hi => exact (h.eq_of_getElem? hi).1

theorem exists_sweeper_turned (ht : m.Turned t n) :
    ∃ s', n.sweepers = [s'] ∧ s'.leaving = false := by
  have hlength : n.sweepers.length = 1 := by
    cases ht with
    | @work i s₁ x s₂ hi hs =>
      obtain ⟨rfl, rfl⟩ := h.eq_of_getElem? hi
      have hrun := (isRunning_setSweeper (w := m.watched) hi (Sweeper.leaving_take? hs)).trans
        h.isRunning
      have hd := sweepers_deliver_of_isRunning hrun x
      unfold afterWork
      split
      · rw [loseWorker, List.length_modify, hd, h.alone]
        rfl
      · rw [hd, h.alone]
        rfl
    | hand | look | release =>
      rw [setSweeper, List.length_set, h.alone]
      rfl
  obtain ⟨s', hs'⟩ := List.length_eq_one_iff.1 hlength
  have hr := ht.isRunning h.isRunning
  exact ⟨s', hs', by simpa [LiveMap.isRunning, hs'] using hr⟩

theorem turn (ho : m.Orderly t) (hspare : ∀ e ∈ m.made (.turn t), m.endsWorker e.key = false) :
    ∃ s', (m.turn t).Lone s' := by
  obtain ⟨s', hs', hl⟩ := h.exists_sweeper_turned ho.turned
  exact ⟨s', h.sound.turn ho, h.staffed.turn hspare, hs', hl⟩

end Lone

/-- Who begins to wait has found nothing due. -/
theorem Sound.hushed_turn (h : m.Sound) (hm : m.Hushed) (ho : m.Orderly t) : (m.turn t).Hushed := by
  have hset {i : Nat} {s s' : Sweeper ν} (hi : m.sweepers[i]? = some s)
      (hs : ∀ a, s'.phase = .waiting (some a) → s.phase = .waiting (some a) ∨ m.now < a) :
      ∀ s₁ ∈ m.sweepers.set i s', ∀ a, s₁.phase = .waiting (some a) → m.now < a := by
    intro s₁ hs₁ a hp
    rcases List.mem_or_eq_of_mem_set hs₁ with hs₁ | rfl
    · exact hm s₁ hs₁ a hp
    · exact (hs a hp).elim (hm s (List.mem_of_getElem? hi) a) id
  have hnow : (m.turn t).now = m.now := congrArg (Instant.ofMillis ·) (m.clock_turn t)
  have ht := ho.turned
  unfold Hushed
  rw [hnow]
  generalize m.turn t = n at ht
  cases ht with
  | hand hi hs =>
    refine hset hi fun a hp => ?_
    obtain ⟨x, rest, -, hs⟩ := Sweeper.hand?_cases hs
    cases hs with
    | accepted => exact absurd hp (Phase.ofItems_ne_waiting rest _)
    | lost => cases hp
  | @work i s x s' hi hs =>
    obtain ⟨s₂, ss, hss, hs₂, hnew, -⟩ := sweepers_work hi s' x
    have hphase : s₂.phase = s.phase := by
      obtain ⟨o, xs, -, -, -, rfl⟩ := Sweeper.take?_cases hs
      rcases hs₂ with rfl | rfl <;> rfl
    intro s₁ hs₁ a hp
    rw [hss] at hs₁
    rcases List.mem_append.1 hs₁ with hs₁ | hs₁
    · exact hset hi (fun a hp => .inl (hphase ▸ hp)) s₁ hs₁ a hp
    · rw [hnew s₁ hs₁] at hp
      cases hp
  | look hi hs =>
    refine hset hi fun a hp => ?_
    obtain ⟨hlooking, hs⟩ := Sweeper.look?_cases hs
    cases hs with
    | leaves | hands => cases hp
    | waits _ hdue =>
      exact .inr (Sweeper.lt_of_alarm? h.consistent h.idlePoll_pos hdue (Phase.waiting.inj hp))
    | drops => exact .inl hp
  | @release i r s w s' hi hs =>
    refine hset hi fun a hp => ?_
    obtain ⟨alarm?, -, hs⟩ := Sweeper.release?_cases hs
    cases r with
    | leave | wake =>
      rw [hs.2.2] at hp
      cases hp
    | timer =>
      obtain ⟨b, -, -, -, rfl⟩ := hs
      cases hp

end ExpiringMap.LiveMap
