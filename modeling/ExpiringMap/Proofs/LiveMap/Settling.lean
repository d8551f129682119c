import ExpiringMap.Proofs.LiveMap.Composed
import ExpiringMap.Proofs.Outbox.Workers

/-!
A map that runs comes to rest before the clock moves, whoever takes turns when. A sweeper starts
over after all that it takes out, and callbacks may put in more that has ended already; but a script
runs once, and what is put in again for a while has not ended yet.

The one wake permit is meant for the sweeper that stays. While another is on its way out, turns are
courteous if that one does not take it.
-/

namespace ExpiringMap.LiveMap

open Outbox (Inevitably)

variable {ν : Type} {settings : Settings} {callback? : Option (Callback ν)} {hasRuntime : Bool}
  {m m' : LiveMap ν} {t : Turn} {mvs : List (Move ν)} {ops : List (Operation ν)}

/-- Somebody takes a courteous turn. -/
def Goes (m m' : LiveMap ν) : Prop := ∃ t, m.Courteous t ∧ m.turn? t = some m'

/-- All turns among some moves are courteous. -/
def CourteousIn (m : LiveMap ν) : List (Move ν) → Prop
  | [] => True
  | mv :: mvs => (∀ t, mv = .turn t → m.Courteous t) ∧ (m.move mv).CourteousIn mvs

structure Settled (clock : Nat) (m : LiveMap ν) : Prop where
  clock_eq : m.clock = clock
  isRunning : m.isRunning = true
  isAtRest : m.isAtRest = true
  lt_due : ∀ k v e, m.table.get? k = some (v, .due e) → m.now < e
  queued : ∀ s ∈ m.sweepers, s.queued = []
  waits : ∀ s ∈ m.sweepers, s.leaving = false →
    ∃ alarm?, s.phase = .waiting alarm? ∧ ∀ a, alarm? = some a → m.now < a
  gone : ∀ s ∈ m.sweepers, s.leaving = true → s.phase = .done

/-- Whoever goes through its turns in their order is courteous. -/
theorem Path.courteousIn (h : Path m mvs m') : m.CourteousIn mvs := by
  induction h with
  | nil => trivial
  | cons hl _ ih =>
    refine ⟨?_, ih⟩
    rintro t rfl
    exact Orderly.courteous hl

theorem Sound.follow_courteous (h : m.Sound) (hc : m.CourteousIn mvs) :
    (m.follow mvs).Sound := by
  induction mvs generalizing m with
  | nil => exact h
  | cons mv mvs ih =>
    obtain ⟨hfirst, hrest⟩ := hc
    refine ih (m := m.move mv) ?_ hrest
    cases mv with
    | turn t =>
      rw [LiveMap.move]
      rcases m.turn_eq_self_or_turned t with ⟨-, hm⟩ | ht
      · exact hm.symm ▸ h
      · exact h.turned (hfirst t rfl) ht
    | wait clock => exact h.clock clock
    | call | leave | prune | report => exact h.move trivial

theorem Sound.settled (h : m.Sound) (hs : m.Steady) (hr : m.isRunning = true)
    (hrest : m.isAtRest = true) : m.Settled m.clock where
  clock_eq := rfl
  isRunning := hr
  isAtRest := hrest
  lt_due _ _ _ hk := h.lt_due hrest hr hk
  queued _ hmem := (List.append_eq_nil_iff.1 (hs.inHand_of_isAtRest hrest hmem)).1
  waits s hmem hl := by
    obtain ⟨i, hi⟩ := List.mem_iff_getElem?.1 hmem
    obtain ⟨alarm?, hp, -, hlt⟩ := h.waiting hrest hi hl
    exact ⟨alarm?, hp, hlt⟩
  gone s hmem hl := by
    obtain ⟨i, hi⟩ := List.mem_iff_getElem?.1 hmem
    exact h.done hrest hi hl

/-- Whoever could only take a turn that is not courteous can leave as well. -/
theorem exists_goes (h : m.isAtRest ≠ true) : ∃ m', m.Goes m' := by
  cases hn : m.nextTurn? m.rota with
  | none => exact absurd (nextTurn?_eq_none_iff.1 hn) h
  | some p =>
    have ho := orderly_of_nextTurn? hn
    exact ⟨_, p.1, ho.courteous, turn?_eq_of_canTake ho.canTake⟩

/-- What courteous turns keep, while the clock stands. -/
structure Going (clock : Nat) (m : LiveMap ν) : Prop where
  sound : m.Sound
  steady : m.Steady
  isRunning : m.isRunning = true
  clock_eq : m.clock = clock

theorem Going.goes {clock : Nat} (h : m.Going clock) (hg : m.Goes m') : m'.Going clock := by
  obtain ⟨t, hc, ht⟩ := hg
  have hm : m' = m.turn t := by rw [turn, ht]; rfl
  have hturned := turn?_cases ht
  refine ⟨h.sound.turned hc hturned, ?_, hturned.isRunning h.isRunning, ?_⟩
  · exact hm ▸ h.steady.move (.turn t)
  · have hclock := m.clock_turn t
    rw [hm, ← h.clock_eq]
    exact Int.ofNat_inj.1 hclock

theorem Going.inevitably_settled {clock : Nat} (h : m.Going clock) :
    Inevitably Goes (Settled clock) m := by
  refine .of_measure turnsLeft (I := Going clock) (fun _ _ => Going.goes) ?_ ?_ h
  · rintro m m' hm ⟨t, -, ht⟩
    exact turnsLeft_turned_lt hm.steady.consistent hm.steady.idlePoll_pos (turn?_cases ht)
  · intro m hm
    by_cases hrest : m.isAtRest = true
    · exact .inl (hm.clock_eq ▸ hm.sound.settled hm.steady hm.isRunning hrest)
    · exact .inr (exists_goes hrest)

/-- Whoever has been told to leave has left. -/
def Undisputed (m : LiveMap ν) : Prop := ∀ s ∈ m.sweepers, s.leaving = true → s.phase = .done

theorem Undisputed.courteous (h : m.Undisputed) (ht : m.canTake t = true) : m.Courteous t := by
  rintro i s rfl hi -
  obtain ⟨alarm?, hp⟩ := phase_of_canTake_release hi ht
  rw [Bool.eq_false_iff]
  intro hl
  rw [h s (List.mem_of_getElem? hi) hl] at hp
  cases hp

theorem Undisputed.of_set {i : Nat} {s' : Sweeper ν} {ss : List (Sweeper ν)} (h : m.Undisputed)
    (hm' : m'.sweepers = m.sweepers.set i s' ++ ss) (hs' : s'.leaving = true → s'.phase = .done)
    (hss : ∀ s ∈ ss, s = m.newSweeper) : m'.Undisputed := by
  intro s hs hl
  rw [hm', List.mem_append] at hs
  rcases hs with hs | hs
  · rcases List.mem_or_eq_of_mem_set hs with hs | rfl
    · exact h s hs hl
    · exact hs' hl
  · rw [hss s hs] at hl
    cases hl

theorem Undisputed.turned (h : m.Undisputed) (ht : m.Turned t m') : m'.Undisputed := by
  -- A sweeper that has left takes no turn, but its workers may still deliver for it.
  have hstays {i : Nat} {s : Sweeper ν} (hi : m.sweepers[i]? = some s) (hp : s.phase ≠ .done) :
      s.leaving = false := by
    rw [Bool.eq_false_iff]
    exact fun hl => hp (h s (List.mem_of_getElem? hi) hl)
  have habsurd {s s' : Sweeper ν} (hs : s.leaving = false) (hs' : s'.leaving = s.leaving) :
      s'.leaving = true → s'.phase = .done := by
    intro hl
    rw [hs', hs] at hl
    cases hl
  cases ht with
  | hand hi hs =>
    obtain ⟨x, rest, hp, -⟩ := Sweeper.hand?_cases hs
    have hl := hstays hi (by rw [hp]; exact nofun)
    exact h.of_set (List.append_nil _).symm (habsurd hl (Sweeper.leaving_hand? hs)) (by simp)
  | look hi hs =>
    have hl := hstays hi (by rw [(Sweeper.look?_cases hs).1]; exact nofun)
    exact h.of_set (List.append_nil _).symm (habsurd hl (Sweeper.leaving_look? hs)) (by simp)
  | release hi hs =>
    obtain ⟨alarm?, hp, -⟩ := Sweeper.release?_cases hs
    have hl := hstays hi (by rw [hp]; exact nofun)
    exact h.of_set (List.append_nil _).symm (habsurd hl (Sweeper.leaving_release? hs)) (by simp)
  | @work i s x s' hi hs =>
    obtain ⟨s₂, ss, hsweepers, hs₂, hnew, -⟩ := sweepers_work hi s' x
    obtain ⟨o, xs, -, -, -, rfl⟩ := Sweeper.take?_cases hs
    refine h.of_set hsweepers (fun hl => ?_) hnew
    have hold := h s (List.mem_of_getElem? hi)
    rcases hs₂ with rfl | rfl
    · exact hold hl
    · exact hold hl

theorem Undisputed.goes_iff (h : m.Undisputed) : m.Goes m' ↔ ∃ t, m.turn? t = some m' := by
  constructor
  · rintro ⟨t, -, ht⟩
    exact ⟨t, ht⟩
  · rintro ⟨t, ht⟩
    exact ⟨t, h.courteous (by rw [canTake, ht]; rfl), ht⟩

theorem Undisputed.goes (h : m.Undisputed) (hg : m.Goes m') : m'.Undisputed := by
  obtain ⟨t, -, ht⟩ := hg
  exact h.turned (turn?_cases ht)

/-- With nobody on the way out every turn is courteous. -/
theorem Undisputed.inevitably {P : LiveMap ν → Prop} (h : m.Undisputed) (hp : Inevitably Goes P m) :
    Inevitably (fun n n' => ∃ t, n.turn? t = some n') P m :=
  hp.of_same (I := Undisputed) (fun _ _ => Undisputed.goes) (fun _ _ hm => hm.goes_iff) h

theorem Stays.undisputed (h : m.Stays) : m.Undisputed := by
  intro s hs hl
  rw [h s hs] at hl
  cases hl

theorem Stays.after (h : m.Stays) (hsound : m.Sound) (hsteady : m.Steady)
    (hdrop : .drop ∉ ops) : (m.after ops).Stays := by
  induction ops generalizing m with
  | nil => exact h
  | cons op ops ih =>
    rw [List.mem_cons, not_or] at hdrop
    have hreport : { m with delivered := [] }.Steady := hsteady.move .report
    have hpath := ((hsound.with_callback m.callback? []).path_apply op).eq_follow
    have hnext : (m.report op).2.Steady := by
      have hfollow := hreport.follow ({ m with delivered := [] }.moves op)
      rwa [← hpath] at hfollow
    exact ih (Stays.apply (m := { m with delivered := [] }) h hreport (Ne.symm hdrop.1))
      (hsound.report op) hnext hdrop.2

section

variable (h : open? settings callback? hasRuntime = .ok m)

include h

/-- In courteous turns a map that runs comes to rest at every clock. -/
theorem inevitably_settled (hc : m.CourteousIn mvs) (hr : (m.follow mvs).isRunning = true) :
    Inevitably Goes (Settled (m.follow mvs).clock) (m.follow mvs) :=
  Going.inevitably_settled
    ⟨(sound_of_open? h).follow_courteous hc, (steady_of_open? h).follow mvs, hr, rfl⟩

/-- However a map is set up, whoever is told of what expires, and whatever has happened to it, while
it runs no more turns can be taken at one clock than there are left, and any of them lead to where
nothing is due, nothing is queued and the sweeper that stays waits. -/
theorem comes_to_rest (hc : m.CourteousIn mvs) (hr : (m.follow mvs).isRunning = true) :
    (∀ ts, (m.follow mvs).Takes ts → ts.length ≤ (m.follow mvs).turnsLeft) ∧
    Inevitably Goes (Settled (m.follow mvs).clock) (m.follow mvs) ∧
    ((m.follow mvs).Undisputed →
      Inevitably (fun n n' => ∃ t, n.turn? t = some n') (Settled (m.follow mvs).clock)
        (m.follow mvs)) := by
  have hsettled := inevitably_settled h hc hr
  exact ⟨fun ts hts => ((steady_of_open? h).follow mvs).length_le_turnsLeft hts, hsettled,
    fun hu => hu.inevitably hsettled⟩

/-- Between two operations of a run nobody is on the way out, so that a map comes to rest in any
order of turns. -/
theorem inevitably_settled_after (hdrop : .drop ∉ ops) (hr : (m.after ops).isRunning = true) :
    Inevitably (fun n n' => ∃ t, n.turn? t = some n') (Settled (m.after ops).clock)
      (m.after ops) := by
  have hstays := (stays_of_open? h).after (sound_of_open? h) (steady_of_open? h) hdrop
  have hpath := (sound_of_open? h).path_history ops
  rw [hpath.eq_follow] at hr hstays ⊢
  exact hstays.undisputed.inevitably (inevitably_settled h hpath.courteousIn hr)

end

/-- Puts one key in for another, already due and fatal to the worker that delivers it. -/
def swapping : Callback Int where
  scripts := [("a", [.putUntil "b" 7 (.due 0)])]
  rearm? := some (.counting some id 9 1)
  faults := { failing := ["a"], fatal := ["b"] }

def swapper : LiveMap Int where
  settings := { workers := 1 }
  callback? := some swapping
  sweepers := [{ outbox? := some { capacity := 1024, workers := 1 } }]

/-- The first callback has just run. -/
def firstSwap : List (Move Int) :=
  [.call (.putUntil "a" 0 (.due 0)), .turn (.look 0), .turn (.hand 0), .turn (.work 0)]

theorem comes_to_rest_swapping :
    open? { workers := 1 } (some swapping) true = .ok swapper ∧
      (swapper.follow firstSwap).table.dueCount (swapper.follow firstSwap).now = 1 ∧
      Inevitably (fun n n' => ∃ t, n.turn? t = some n') (Settled (swapper.follow firstSwap).clock)
        (swapper.follow firstSwap) := by
  have hopen : open? { workers := 1 } (some swapping) true = .ok swapper := rfl
  have hc : swapper.CourteousIn firstSwap := by
    simp [firstSwap, CourteousIn, Courteous]
  have hrunning : (swapper.follow firstSwap).isRunning = true := by decide +kernel
  have hstays : ∀ s ∈ (swapper.follow firstSwap).sweepers, s.leaving = false := by decide +kernel
  exact ⟨hopen, by decide +kernel,
    (comes_to_rest hopen hc hrunning).2.2 (Stays.undisputed hstays)⟩

end ExpiringMap.LiveMap
