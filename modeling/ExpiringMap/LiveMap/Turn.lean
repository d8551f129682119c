import ExpiringMap.LiveMap.Basic

/-!
The turns that sweepers and workers take while the clock stands still. A turn that cannot be taken
is `none`, so any order of turns is a sequence of `turn?`s.
-/

namespace ExpiringMap.LiveMap

variable {ν : Type}

def deliver (m : LiveMap ν) (x : Expired ν) : LiveMap ν :=
  match m.callback? with
  | none => m
  | some c =>
    let r := { m with callback? := some (c.spend x.key) }.callAll ((c.script? x.key).getD [])
    let rearmed := r.1.callAll (c.rearmCall? x.key x.value).toList
    { rearmed.1 with
      delivered := rearmed.1.delivered ++
        [{ time := m.clock, key := x.key, value := x.value, due := x.due,
           script? := (c.script? x.key).map fun _ => r.2 }] }

def endsWorker (m : LiveMap ν) (k : Key) : Bool := m.callback?.any (·.faults.endsWorker k)

inductive Turn where
  | hand (i : Nat)
  /-- A worker of a sweeper takes the oldest item and runs its callback. Both are one turn: nobody
  else has one before the callback has returned. -/
  | work (i : Nat)
  | look (i : Nat)
  | release (i : Nat) (r : Release)
  deriving DecidableEq

def setSweeper (m : LiveMap ν) (i : Nat) (s : Sweeper ν) : LiveMap ν :=
  { m with sweepers := m.sweepers.set i s }

def loseWorker (m : LiveMap ν) (i : Nat) : LiveMap ν :=
  { m with sweepers := m.sweepers.modify i (·.loseWorker) }

def turn? (m : LiveMap ν) : Turn → Option (LiveMap ν)
  | .hand i => do
    let s ← (← m.sweepers[i]?).hand?
    return m.setSweeper i s
  | .work i => do
    let (x, s) ← (← m.sweepers[i]?).take?
    let m := (m.setSweeper i s).deliver x
    return if m.endsWorker x.key then m.loseWorker i else m
  | .look i => do
    let (watched, s) ← (← m.sweepers[i]?).look? m.now m.settings.idlePoll m.watched
    return { m with watched }.setSweeper i s
  | .release i r => do
    let (watched, s) ← (← m.sweepers[i]?).release? m.now m.watched r
    return { m with watched }.setSweeper i s

def canTake (m : LiveMap ν) (t : Turn) : Bool := (m.turn? t).isSome

inductive Agent where
  | sweeper (i : Nat)
  /-- The worker of a sweeper whose place it is to take the next item. -/
  | worker (i : Nat)
  deriving DecidableEq

def Agent.turns : Agent → List Turn
  | .sweeper i => [.hand i, .look i, .release i .leave, .release i .wake, .release i .timer]
  | .worker i => [.work i]

def agents (m : LiveMap ν) : List Agent :=
  (List.range m.sweepers.length).flatMap fun i => [.sweeper i, .worker i]

def turns (m : LiveMap ν) : List Turn := m.agents.flatMap Agent.turns

def canGo (m : LiveMap ν) (a : Agent) : Bool := a.turns.any m.canTake

/-- Nobody can take a turn before the clock moves. -/
def isAtRest (m : LiveMap ν) : Bool := !m.agents.any m.canGo

/-- A bound for the turns that can be taken before the clock moves. An entry that is due is taken
out, handed over, delivered and answered by at most one wake; a call in a script adds at most one
entry that is due or one sweeper. -/
def turnsLeft (m : LiveMap ν) : Nat :=
  6 * (m.callback?.map (·.scriptedCalls)).getD 0 + 5 * m.table.dueCount m.now +
    2 * m.watched.permit.toNat + Sweeper.turnsLeft m.now m.sweepers

end ExpiringMap.LiveMap
