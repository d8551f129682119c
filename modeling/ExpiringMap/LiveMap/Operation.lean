import ExpiringMap.LiveMap.Rota

/-!
The operations on a live map, those that wait among them. The clock moves only while the map
sleeps, and sweepers and workers get their turns only while an operation waits.
-/

namespace ExpiringMap

/-- What an operation answers, the clock and the contents afterwards, and what was delivered
meanwhile. A map that has been dropped has no contents. -/
structure Report (ν : Type) where
  clock : Nat
  answer : Answer ν
  statistics? : Option Statistics
  events : List (Event ν)

namespace LiveMap

variable {ν : Type}

inductive Operation (ν : Type) where
  | call (c : Call ν)
  | settle
  | sleep (ms : Nat)
  | stop
  /-- Two stops at the same time, waiting for both. -/
  | stopTwice
  | restart
  /-- Gives the map up, and waits for nobody. -/
  | drop

/-- The next millisecond at which the timer of a sweeper runs out. -/
def nextTimer? (m : LiveMap ν) : Option Nat := (m.sweepers.filterMap (·.timerMillis?)).min?

theorem clock_call (m : LiveMap ν) (c : Call ν) : (m.call c).1.clock = m.clock := by
  cases c <;> first | rfl | (simp only [call, start]; split <;> rfl)

theorem clock_callAll (m : LiveMap ν) (cs : List (Call ν)) :
    (m.callAll cs).1.clock = m.clock := by
  induction cs generalizing m with
  | nil => rfl
  | cons c cs ih => simp [callAll, ih, clock_call]

theorem clock_deliver (m : LiveMap ν) (x : Expired ν) : (m.deliver x).clock = m.clock := by
  unfold deliver
  split
  · rfl
  · simp [clock_callAll]

theorem clock_turn? {m m' : LiveMap ν} {t : Turn} (h : m.turn? t = some m') :
    m'.clock = m.clock := by
  cases t <;> simp only [turn?, Option.bind_eq_bind, Option.pure_def, Option.bind_eq_some_iff,
    Option.some.injEq] at h
  · obtain ⟨_, -, _, -, rfl⟩ := h
    rfl
  · obtain ⟨_, -, _, -, rfl⟩ := h
    split <;> simp [clock_deliver, setSweeper, loseWorker]
  · obtain ⟨_, -, _, -, rfl⟩ := h
    rfl
  · obtain ⟨_, -, _, -, rfl⟩ := h
    rfl

theorem clock_steps (n : Nat) (m : LiveMap ν) (r : Rota) : (m.steps n r).clock = m.clock := by
  induction n generalizing m r with
  | zero => rfl
  | succ n ih =>
    simp only [steps]
    split
    · next h =>
      obtain ⟨⟨t, _⟩, -, ht⟩ := List.exists_of_findSome?_eq_some h
      obtain ⟨_, hm, he⟩ := Option.map_eq_some_iff.1 ht
      cases he
      rw [ih, clock_turn? hm]
    · rfl

@[simp] theorem clock_settle (m : LiveMap ν) : m.settle.clock = m.clock := clock_steps _ m _

def advanceTo (m : LiveMap ν) (clock : Nat) : LiveMap ν := { m with clock }.settle

@[simp] theorem clock_advanceTo (m : LiveMap ν) (clock : Nat) :
    (m.advanceTo clock).clock = clock := clock_settle _

/-- Lets time pass until `target`, stopping at every timer on the way. -/
def sleepUntil (target : Nat) (m : LiveMap ν) : LiveMap ν :=
  match m.nextTimer? with
  | some t =>
    if m.clock < t ∧ t ≤ target then (m.advanceTo t).sleepUntil target else m.advanceTo target
  | none => m.advanceTo target
termination_by target - m.clock
decreasing_by simp only [clock_advanceTo]; omega

def sleep (m : LiveMap ν) (ms : Nat) : LiveMap ν := m.settle.sleepUntil (m.clock + ms)

/-- Forgets the sweepers that have nothing left to do. -/
def prune (m : LiveMap ν) : LiveMap ν :=
  { m with sweepers := m.sweepers.filter (!·.isFinished) }

def stop (m : LiveMap ν) : LiveMap ν := m.leave.settle.prune

def apply (m : LiveMap ν) : Operation ν → LiveMap ν × Answer ν
  | .call c => m.call c
  | .settle => (m.settle, .done)
  | .sleep ms => (m.sleep ms, .done)
  | .stop => (m.stop, .done)
  | .stopTwice => (m.leave.stop, .done)
  | .restart => (m.stop.start, .done)
  | .drop => (m.leave, .done)

def report (m : LiveMap ν) (op : Operation ν) : Report ν × LiveMap ν :=
  let r := { m with delivered := [] }.apply op
  let statistics? := match op with
    | .drop => none
    | _ => some r.1.table.statistics
  ({ clock := r.1.clock, answer := r.2, statistics?
     events := Event.listing m.settings.workers r.1.delivered }, r.1)

def run (m : LiveMap ν) : List (Operation ν) → List (Report ν)
  | [] => []
  | op :: ops =>
    let r := m.report op
    r.1 :: r.2.run ops

end LiveMap

end ExpiringMap
