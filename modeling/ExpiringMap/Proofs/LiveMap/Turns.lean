import ExpiringMap.LiveMap.Rota
import ExpiringMap.Proofs.LiveMap.Sweeper

namespace ExpiringMap.LiveMap

variable {ν : Type} {m m' : LiveMap ν} {r r' : Rota} {t : Turn}

/-- A worker of sweeper `i` has delivered `x`, and is lost if the callback ended it. -/
def afterWork (m : LiveMap ν) (i : Nat) (x : Expired ν) : LiveMap ν :=
  if (m.deliver x).endsWorker x.key then (m.deliver x).loseWorker i else m.deliver x

theorem turn?_hand (m : LiveMap ν) (i : Nat) :
    m.turn? (.hand i) = (m.sweepers[i]?.bind (·.hand?)).map (m.setSweeper i) := by
  simp only [turn?, Option.bind_eq_bind, Option.pure_def]
  cases m.sweepers[i]? with
  | none => rfl
  | some s => cases hs : s.hand? <;> simp [hs]

theorem turn?_work (m : LiveMap ν) (i : Nat) :
    m.turn? (.work i) = (m.sweepers[i]?.bind (·.take?)).map fun p =>
      (m.setSweeper i p.2).afterWork i p.1 := by
  simp only [turn?, Option.bind_eq_bind, Option.pure_def]
  cases m.sweepers[i]? with
  | none => rfl
  | some s => cases hs : s.take? <;> simp [hs, afterWork]

theorem turn?_look (m : LiveMap ν) (i : Nat) :
    m.turn? (.look i) =
      (m.sweepers[i]?.bind fun s => s.look? m.now m.settings.idlePoll m.watched).map fun p =>
        { m with watched := p.1 }.setSweeper i p.2 := by
  simp only [turn?, Option.bind_eq_bind, Option.pure_def]
  cases m.sweepers[i]? with
  | none => rfl
  | some s => cases hs : s.look? m.now m.settings.idlePoll m.watched <;> simp [hs]

theorem turn?_release (m : LiveMap ν) (i : Nat) (r : Release) :
    m.turn? (.release i r) =
      (m.sweepers[i]?.bind fun s => s.release? m.now m.watched r).map fun p =>
        { m with watched := p.1 }.setSweeper i p.2 := by
  simp only [turn?, Option.bind_eq_bind, Option.pure_def]
  cases m.sweepers[i]? with
  | none => rfl
  | some s => cases hs : s.release? m.now m.watched r <;> simp [hs]

inductive Turned (m : LiveMap ν) : Turn → LiveMap ν → Prop
  | hand {i s s'} (hi : m.sweepers[i]? = some s) (h : s.hand? = some s') :
      Turned m (.hand i) (m.setSweeper i s')
  | work {i s x s'} (hi : m.sweepers[i]? = some s) (h : s.take? = some (x, s')) :
      Turned m (.work i) ((m.setSweeper i s').afterWork i x)
  | look {i s w s'} (hi : m.sweepers[i]? = some s)
      (h : s.look? m.now m.settings.idlePoll m.watched = some (w, s')) :
      Turned m (.look i) ({ m with watched := w }.setSweeper i s')
  | release {i r s w s'} (hi : m.sweepers[i]? = some s)
      (h : s.release? m.now m.watched r = some (w, s')) :
      Turned m (.release i r) ({ m with watched := w }.setSweeper i s')

theorem turn?_cases (h : m.turn? t = some m') : m.Turned t m' := by
  cases t with
  | hand i =>
    rw [turn?_hand] at h
    obtain ⟨s', hs, rfl⟩ := Option.map_eq_some_iff.1 h
    obtain ⟨s, hi, hs⟩ := Option.bind_eq_some_iff.1 hs
    exact .hand hi hs
  | work i =>
    rw [turn?_work] at h
    obtain ⟨⟨x, s'⟩, hs, rfl⟩ := Option.map_eq_some_iff.1 h
    obtain ⟨s, hi, hs⟩ := Option.bind_eq_some_iff.1 hs
    exact .work hi hs
  | look i =>
    rw [turn?_look] at h
    obtain ⟨⟨w, s'⟩, hs, rfl⟩ := Option.map_eq_some_iff.1 h
    obtain ⟨s, hi, hs⟩ := Option.bind_eq_some_iff.1 hs
    exact .look hi hs
  | release i r =>
    rw [turn?_release] at h
    obtain ⟨⟨w, s'⟩, hs, rfl⟩ := Option.map_eq_some_iff.1 h
    obtain ⟨s, hi, hs⟩ := Option.bind_eq_some_iff.1 hs
    exact .release hi hs

/-- Whether a turn is the first that somebody can take. -/
def Orderly (m : LiveMap ν) (t : Turn) : Prop := ∃ a : Agent, a.turns.find? m.canTake = some t

theorem Orderly.canTake (h : m.Orderly t) : m.canTake t = true := by
  obtain ⟨a, ha⟩ := h
  exact List.find?_some ha

/-- Whoever is told to leave does so before anything else. -/
theorem Orderly.eq_leave {i : Nat} {r : Release} (h : m.Orderly (.release i r))
    (hl : m.canTake (.release i .leave) = true) : r = .leave := by
  obtain ⟨a, ha⟩ := h
  cases a with
  | sweeper j =>
    simp only [Agent.turns, List.find?_cons] at ha
    split at ha
    · cases ha
    · split at ha
      · cases ha
      · split at ha
        · cases ha
          rfl
        · next hne =>
          split at ha
          · cases ha
            rw [hl] at hne
            cases hne
          · split at ha
            · cases ha
              rw [hl] at hne
              cases hne
            · cases ha
  | worker j =>
    simp only [Agent.turns, List.find?_cons] at ha
    split at ha
    · cases ha
    · cases ha

/-- The turn that settling takes next, and the rota on which it is taken. -/
def nextTurn? (m : LiveMap ν) (r : Rota) : Option (Turn × Rota) :=
  (m.proposals r).find? fun p => m.canTake p.1

theorem findSome?_eq_bind {α β : Type} (xs : List α) (f : α → Option β) :
    xs.findSome? f = (xs.find? fun x => (f x).isSome).bind f := by
  induction xs with
  | nil => rfl
  | cons x xs ih =>
    rw [List.findSome?_cons, List.find?_cons]
    cases h : f x with
    | none => exact ih
    | some y => exact h.symm

theorem step?_eq (m : LiveMap ν) (r : Rota) :
    m.step? r = (m.nextTurn? r).bind fun p =>
      (m.turn? p.1).map fun m' => (m', m.rotaAfter p.2 p.1 m') := by
  rw [step?, findSome?_eq_bind, nextTurn?]
  simp only [Option.isSome_map]
  rfl

theorem find?_map_rota (m : LiveMap ν) (ts : List Turn) (r : Rota) :
    ((ts.map (·, r)).find? fun p => m.canTake p.1) = (ts.find? m.canTake).map (·, r) := by
  rw [List.find?_map]
  rfl

theorem orderly_of_nextTurn? (h : m.nextTurn? r = some (t, r')) : m.Orderly t := by
  simp only [nextTurn?, proposals, List.find?_append, Option.or_eq_some_iff] at h
  rcases h with h | ⟨-, h⟩
  · rw [List.find?_flatMap] at h
    obtain ⟨r₁, -, h⟩ := List.exists_of_findSome?_eq_some h
    rw [find?_map_rota, Option.map_eq_some_iff] at h
    obtain ⟨t', ht, he⟩ := h
    cases he
    unfold Rota.holderTurns at ht
    cases ha : r'.holder? with
    | none =>
      rw [ha] at ht
      cases ht
    | some a =>
      rw [ha] at ht
      exact ⟨a, ht⟩
  · rw [find?_map_rota, Option.map_eq_some_iff] at h
    obtain ⟨t', ht, he⟩ := h
    cases he
    rw [turns, List.find?_flatMap] at ht
    obtain ⟨a, -, ha⟩ := List.exists_of_findSome?_eq_some ht
    exact ⟨a, ha⟩

theorem isAtRest_of_nextTurn?_eq_none (h : m.nextTurn? r = none) : m.isAtRest = true := by
  simp only [nextTurn?, proposals, List.find?_eq_none, List.mem_append] at h
  simp only [isAtRest, canGo, Bool.not_eq_true', List.any_eq_false, Bool.not_eq_true]
  intro a ha t ht
  have hmem : t ∈ m.turns := List.mem_flatMap.2 ⟨a, ha, ht⟩
  simpa using h (t, _) (.inr (List.mem_map.2 ⟨t, hmem, rfl⟩))

theorem mem_turns_of_turned (h : m.Turned t m') : t ∈ m.turns := by
  have hmem {i : Nat} {s : Sweeper ν} (hi : m.sweepers[i]? = some s) (a : Agent)
      (ha : a = .sweeper i ∨ a = .worker i) (ht : t ∈ a.turns) : t ∈ m.turns := by
    refine List.mem_flatMap.2 ⟨a, List.mem_flatMap.2 ⟨i, ?_, by simpa using ha⟩, ht⟩
    exact List.mem_range.2 (List.getElem?_eq_some_iff.1 hi).1
  cases h with
  | hand hi => exact hmem hi _ (.inl rfl) (by simp [Agent.turns])
  | work hi => exact hmem hi _ (.inr rfl) (by simp [Agent.turns])
  | look hi => exact hmem hi _ (.inl rfl) (by simp [Agent.turns])
  | @release i r _ _ _ hi => exact hmem hi _ (.inl rfl) (by cases r <;> simp [Agent.turns])

theorem turn?_eq_none_of_isAtRest (h : m.isAtRest = true) (t : Turn) : m.turn? t = none := by
  cases ht : m.turn? t with
  | none => rfl
  | some m' =>
    obtain ⟨a, ha, hta⟩ := List.mem_flatMap.1 (mem_turns_of_turned (turn?_cases ht))
    simp only [isAtRest, canGo, Bool.not_eq_true', List.any_eq_false, Bool.not_eq_true] at h
    have hnot := h a ha t hta
    rw [canTake, ht] at hnot
    cases hnot

theorem nextTurn?_eq_none_iff : m.nextTurn? r = none ↔ m.isAtRest = true := by
  refine ⟨isAtRest_of_nextTurn?_eq_none, fun h => ?_⟩
  rw [nextTurn?, List.find?_eq_none]
  intro p _
  simp [canTake, turn?_eq_none_of_isAtRest h]

/-- The map after a turn that is taken if it can be. -/
def turn (m : LiveMap ν) (t : Turn) : LiveMap ν := (m.turn? t).getD m

theorem turn_eq_self_or_turned (m : LiveMap ν) (t : Turn) :
    (m.turn? t = none ∧ m.turn t = m) ∨ m.Turned t (m.turn t) := by
  cases ht : m.turn? t with
  | none => exact .inl ⟨rfl, by rw [turn, ht]; rfl⟩
  | some m' =>
    have hm : m.turn t = m' := by rw [turn, ht]; rfl
    exact .inr (hm ▸ turn?_cases ht)

theorem turn?_eq_of_canTake (h : m.canTake t = true) : m.turn? t = some (m.turn t) := by
  obtain ⟨m', hm⟩ := Option.isSome_iff_exists.1 h
  rw [turn, hm]
  rfl

theorem Orderly.turned (h : m.Orderly t) : m.Turned t (m.turn t) :=
  turn?_cases (turn?_eq_of_canTake h.canTake)

/-- The turns that are taken, at most `n`. -/
def stepTurns : Nat → LiveMap ν → Rota → List Turn
  | 0, _, _ => []
  | n + 1, m, r => match m.nextTurn? r with
    | some (t, r) => t :: stepTurns n (m.turn t) (m.rotaAfter r t (m.turn t))
    | none => []

theorem steps_succ (n : Nat) (m : LiveMap ν) (r : Rota) :
    m.steps (n + 1) r = match m.nextTurn? r with
      | some (t, r) => (m.turn t).steps n (m.rotaAfter r t (m.turn t))
      | none => m := by
  rw [steps, step?_eq]
  cases hn : m.nextTurn? r with
  | none => rfl
  | some p => rw [Option.bind_some, turn?_eq_of_canTake (orderly_of_nextTurn? hn).canTake]; rfl

/-- What every orderly turn keeps, settling keeps. -/
theorem steps_induct {P : LiveMap ν → Prop} (hturn : ∀ m t, P m → m.Orderly t → P (m.turn t))
    (n : Nat) {m : LiveMap ν} (h : P m) (r : Rota) : P (m.steps n r) := by
  induction n generalizing m r with
  | zero => exact h
  | succ n ih =>
    rw [steps_succ]
    split
    · next hn => exact ih (hturn _ _ h (orderly_of_nextTurn? hn)) _
    · exact h

theorem settle_induct {P : LiveMap ν → Prop} (hturn : ∀ m t, P m → m.Orderly t → P (m.turn t))
    {m : LiveMap ν} (h : P m) : P m.settle := steps_induct hturn _ h _

/-- If every turn leaves fewer turns to take, a map comes to rest when it settles. -/
theorem isAtRest_steps {P : LiveMap ν → Prop} (hturn : ∀ m t, P m → m.Orderly t → P (m.turn t))
    (hless : ∀ m t, P m → m.Orderly t → (m.turn t).turnsLeft < m.turnsLeft) (n : Nat)
    {m : LiveMap ν} (h : P m) (hn : m.turnsLeft ≤ n) (r : Rota) :
    (m.steps n r).isAtRest = true := by
  induction n generalizing m r with
  | zero =>
    cases hnext : m.nextTurn? r with
    | none => exact isAtRest_of_nextTurn?_eq_none hnext
    | some p =>
      have := hless m p.1 h (orderly_of_nextTurn? hnext)
      omega
  | succ n ih =>
    rw [steps_succ]
    split
    · next t r' hnext =>
      have ho := orderly_of_nextTurn? hnext
      have := hless m t h ho
      exact ih (hturn m t h ho) (by omega) _
    · next hnext => exact isAtRest_of_nextTurn?_eq_none hnext

theorem settle_eq_self (h : m.isAtRest = true) : m.settle = m := by
  unfold settle
  cases m.turnsLeft with
  | zero => rfl
  | succ n => rw [steps_succ, nextTurn?_eq_none_iff.2 h]

end ExpiringMap.LiveMap
