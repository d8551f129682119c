import ExpiringMap.Proofs.LiveMap.Rest

namespace ExpiringMap.LiveMap

variable {ν : Type}

inductive Move (ν : Type) where
  | call (c : Call ν)
  | turn (t : Turn)
  | wait (clock : Nat)
  | leave
  | prune
  /-- The deliveries so far have been reported. -/
  | report

def move (m : LiveMap ν) : Move ν → LiveMap ν
  | .call c => (m.call c).1
  | .turn t => m.turn t
  | .wait clock => { m with clock }
  | .leave => m.leave
  | .prune => m.prune
  | .report => { m with delivered := [] }

def follow (m : LiveMap ν) (mvs : List (Move ν)) : LiveMap ν := mvs.foldl move m

/-- When a move may be made. -/
def Lawful (m : LiveMap ν) : Move ν → Prop
  | .turn t => m.Orderly t
  | .wait clock =>
    m.isAtRest = true ∧ m.clock ≤ clock ∧ ∀ t, m.nextTimer? = some t → clock ≤ t
  | .call _ | .leave | .prune | .report => True

/-- Lawful moves, one after the other. -/
inductive Path : LiveMap ν → List (Move ν) → LiveMap ν → Prop
  | nil {m} : Path m [] m
  | cons {m mv mvs m'} (h : m.Lawful mv) (hp : Path (m.move mv) mvs m') : Path m (mv :: mvs) m'

namespace Path

variable {m m' m'' : LiveMap ν} {mv : Move ν} {mvs mvs' : List (Move ν)}

theorem single (h : m.Lawful mv) : Path m [mv] (m.move mv) := .cons h .nil

theorem append (h : Path m mvs m') (h' : Path m' mvs' m'') : Path m (mvs ++ mvs') m'' := by
  induction h with
  | nil => exact h'
  | cons hmv _ ih => exact .cons hmv (ih h')

theorem split (h : Path m (mvs ++ mvs') m') :
    Path m mvs (m.follow mvs) ∧ Path (m.follow mvs) mvs' m' := by
  induction mvs generalizing m with
  | nil => exact ⟨.nil, h⟩
  | cons mv mvs ih =>
    cases h with
    | cons hmv hp => exact ⟨.cons hmv (ih hp).1, (ih hp).2⟩

end Path

def settleMoves (m : LiveMap ν) : List (Move ν) := (stepTurns m.turnsLeft m m.rota).map .turn

def advanceMoves (m : LiveMap ν) (clock : Nat) : List (Move ν) :=
  .wait clock :: { m with clock }.settleMoves

def sleepMoves (target : Nat) (m : LiveMap ν) : List (Move ν) :=
  match m.nextTimer? with
  | some t =>
    if m.clock < t ∧ t ≤ target then m.advanceMoves t ++ (m.advanceTo t).sleepMoves target
    else m.advanceMoves target
  | none => m.advanceMoves target
termination_by target - m.clock
decreasing_by simp only [clock_advanceTo]; omega

def stopMoves (m : LiveMap ν) : List (Move ν) := .leave :: m.leave.settleMoves ++ [.prune]

def moves (m : LiveMap ν) : Operation ν → List (Move ν)
  | .call c => [.call c]
  | .settle => m.settleMoves
  | .sleep ms => m.settleMoves ++ m.settle.sleepMoves (m.clock + ms)
  | .stop => m.stopMoves
  | .stopTwice => .leave :: m.leave.stopMoves
  | .restart => m.stopMoves ++ [.call .start]
  | .drop => [.leave]

/-- The map after some operations. -/
def after (m : LiveMap ν) (ops : List (Operation ν)) : LiveMap ν :=
  ops.foldl (fun m op => (m.report op).2) m

/-- All moves of a run, each operation led in by a report on what went before. -/
def history (m : LiveMap ν) : List (Operation ν) → List (Move ν)
  | [] => []
  | op :: ops => .report :: { m with delivered := [] }.moves op ++ (m.report op).2.history ops

theorem run_append (m : LiveMap ν) (ops ops' : List (Operation ν)) :
    m.run (ops ++ ops') = m.run ops ++ (m.after ops).run ops' := by
  induction ops generalizing m with
  | nil => rfl
  | cons op ops ih => exact congrArg (_ :: ·) (ih (m.report op).2)

theorem length_run (m : LiveMap ν) (ops : List (Operation ν)) :
    (m.run ops).length = ops.length := by
  induction ops generalizing m with
  | nil => rfl
  | cons op ops ih => exact congrArg (· + 1) (ih (m.report op).2)

theorem drop_run (m : LiveMap ν) (ops ops' : List (Operation ν)) :
    (m.run (ops ++ ops')).drop ops.length = (m.after ops).run ops' := by
  rw [run_append, ← length_run m ops, List.drop_left]

theorem run_with_delivered (m : LiveMap ν) (es : List (Event ν)) (ops : List (Operation ν)) :
    { m with delivered := es }.run ops = m.run ops := by
  cases ops <;> rfl

variable {m : LiveMap ν}

theorem path_stepTurns (n : Nat) (m : LiveMap ν) (r : Rota) :
    Path m ((stepTurns n m r).map .turn) (m.steps n r) := by
  induction n generalizing m r with
  | zero => exact .nil
  | succ n ih =>
    rw [steps_succ, stepTurns]
    split
    · next hn => exact .cons (orderly_of_nextTurn? hn) (ih _ _)
    · exact .nil

theorem path_settle (m : LiveMap ν) : Path m m.settleMoves m.settle := path_stepTurns _ m _

theorem path_stop (m : LiveMap ν) : Path m m.stopMoves m.stop :=
  .cons trivial ((path_settle m.leave).append (.single trivial))

theorem path_advance (h : m.isAtRest = true) {clock : Nat} (hle : m.clock ≤ clock)
    (ht : ∀ t, m.nextTimer? = some t → clock ≤ t) :
    Path m (m.advanceMoves clock) (m.advanceTo clock) :=
  .cons ⟨h, hle, ht⟩ (path_settle _)

namespace Sound

theorem advanceTo (h : m.Sound) (clock : Nat) : (m.advanceTo clock).Sound := (h.clock clock).settle

theorem isAtRest_advanceTo (h : m.Sound) (clock : Nat) : (m.advanceTo clock).isAtRest = true :=
  (h.clock clock).isAtRest_settle

theorem isAtRest_sleepUntil (h : m.Sound) (target : Nat) :
    (m.sleepUntil target).isAtRest = true := by
  fun_induction LiveMap.sleepUntil target m with
  | case1 m t _ _ ih => exact ih (h.advanceTo t)
  | case2 m => exact h.isAtRest_advanceTo target
  | case3 m => exact h.isAtRest_advanceTo target

theorem path_sleepUntil (h : m.Sound) (hr : m.isAtRest = true) {target : Nat}
    (hle : m.clock ≤ target) : Path m (m.sleepMoves target) (m.sleepUntil target) := by
  fun_induction LiveMap.sleepUntil target m with
  | case1 m t ht hlt ih =>
    have hjump := path_advance hr (Nat.le_of_lt hlt.1) fun t' ht' => by
      rw [ht] at ht'
      cases ht'
      exact Nat.le_refl t
    have hrest := ih (h.advanceTo t) (h.isAtRest_advanceTo t) (by simpa using hlt.2)
    rw [sleepMoves, ht]
    simp only [hlt, and_self, ↓reduceIte]
    exact hjump.append hrest
  | case2 m t ht hnot =>
    -- The timer is still to come, so it must be the target that comes before it.
    have hlt := clock_lt_nextTimer hr ht
    rw [sleepMoves, ht]
    simp only [hnot, ↓reduceIte]
    refine path_advance hr hle fun t' ht' => ?_
    rw [ht] at ht'
    cases ht'
    omega
  | case3 m ht =>
    rw [sleepMoves, ht]
    exact path_advance hr hle fun t' ht' => by
      rw [ht] at ht'
      cases ht'

theorem path_apply (h : m.Sound) (op : Operation ν) : Path m (m.moves op) (m.apply op).1 := by
  cases op with
  | call c => exact .single trivial
  | settle => exact path_settle m
  | sleep ms =>
    have hle : m.settle.clock ≤ m.clock + ms := by
      rw [clock_settle]
      exact Nat.le_add_right _ _
    exact (path_settle m).append (h.settle.path_sleepUntil h.isAtRest_settle hle)
  | stop => exact path_stop m
  | stopTwice => exact .cons trivial (path_stop m.leave)
  | restart => exact (path_stop m).append (.single trivial)
  | drop => exact .single trivial

theorem move (h : m.Sound) {mv : Move ν} (hl : m.Lawful mv) : (m.move mv).Sound := by
  cases mv with
  | call c => exact h.call c
  | turn t => exact h.turn hl
  | wait clock => exact h.clock clock
  | leave => exact h.leave
  | prune => exact h.prune
  | report => exact h.with_callback m.callback? []

theorem follow (h : m.Sound) {mvs : List (Move ν)} {m' : LiveMap ν} (hp : Path m mvs m') :
    m'.Sound := by
  induction hp with
  | nil => exact h
  | cons hl _ ih => exact ih (h.move hl)

theorem apply (h : m.Sound) (op : Operation ν) : (m.apply op).1.Sound := h.follow (h.path_apply op)

theorem report (h : m.Sound) (op : Operation ν) : (m.report op).2.Sound :=
  (h.with_callback m.callback? []).apply op

/-- The history of a run leads where the run leads. -/
theorem path_history (h : m.Sound) (ops : List (Operation ν)) :
    Path m (m.history ops) (m.after ops) := by
  induction ops generalizing m with
  | nil => exact .nil
  | cons op ops ih =>
    have hop := (h.with_callback m.callback? []).path_apply op
    exact .cons trivial (hop.append (ih (h.report op)))

theorem after (h : m.Sound) (ops : List (Operation ν)) : (m.after ops).Sound :=
  h.follow (h.path_history ops)

end Sound

section

variable {settings : Settings} {callback? : Option (Callback ν)} {hasRuntime : Bool}

theorem problem?_eq_none_iff :
    settings.problem? = none ↔ 0 < settings.queueCapacity ∧ 0 < settings.idlePoll := by
  unfold Settings.problem?
  split
  · simp_all
  · next hq =>
    split
    · simp_all
    · next hp => simp [Nat.pos_of_ne_zero hq, Nat.pos_of_ne_zero hp]

theorem open?_eq_ok_iff :
    open? settings callback? hasRuntime = .ok m ↔
      settings.problem? = none ∧ hasRuntime = true ∧
        (callback?.bind fun _ => Outbox.refusal? settings.queueCapacity) = none ∧
        { settings, callback? : LiveMap ν }.start = m := by
  unfold open?
  cases settings.problem? with
  | some p => simp
  | none =>
    cases hasRuntime with
    | false => simp
    | true => cases callback?.bind fun _ => Outbox.refusal? settings.queueCapacity <;> simp

theorem sound_of_open? (h : open? settings callback? hasRuntime = .ok m) : m.Sound := by
  obtain ⟨hproblem, -, -, rfl⟩ := open?_eq_ok_iff.1 h
  obtain ⟨hq, hp⟩ := problem?_eq_none_iff.1 hproblem
  have hempty : ({ settings, callback? } : LiveMap ν).Sound :=
    ⟨hp, hq, Table.consistent_empty, by simp, by simp⟩
  exact hempty.start

end

end ExpiringMap.LiveMap
