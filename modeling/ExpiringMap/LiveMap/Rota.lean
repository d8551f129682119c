import ExpiringMap.LiveMap.Turn

/-!
Who comes next. Sweepers and workers share one thread, and get it in the order in which they could
first go on. Whoever has it keeps it for a stint: until there is nothing to do, or until the
allowance is used up. Those who used it up rest until the others have nothing left to do, or until
the round is over. `settle` lets a map come to rest in this order.
-/

namespace ExpiringMap

open LiveMap (Agent Turn)

structure Rota where
  holder? : Option Agent := none
  allowance : Nat := 0
  line : List Agent := []
  /-- Who has used up an allowance, and goes to the end of the line when it is empty or the round
  is over. -/
  resting : List Agent := []
  stints : Nat := 0

namespace Rota

def stintAllowance : Nat := 128

def roundLength : Nat := 61

/-- What a turn takes off the allowance. A worker pays for its place at the outbox and for the item;
a sweeper pays for what it hands over and for a timer. -/
def cost : Turn → Nat
  | .hand _ => 1
  | .work _ => 2
  | .release _ .timer => 1
  | .look _ | .release _ _ => 0

def has (r : Rota) (a : Agent) : Bool :=
  r.holder? = some a ∨ a ∈ r.line ∨ a ∈ r.resting

def rest (r : Rota) : Rota :=
  { r with holder? := none, resting := r.resting ++ r.holder?.toList }

def next? (r : Rota) : Option Rota :=
  let r := if r.line.isEmpty ∨ r.stints = roundLength then
      { r with line := r.line ++ r.resting, resting := [], stints := 0 }
    else r
  match r.line with
  | [] => none
  | a :: line =>
    some { r with holder? := some a, allowance := stintAllowance, line, stints := r.stints + 1 }

/-- The rotas that come about by giving the thread on, up to `n` times. -/
def following : Nat → Rota → List Rota
  | 0, _ => []
  | n + 1, r => match r.next? with
    | some r => r :: following n r
    | none => []

def holderTurns (r : Rota) : List Turn := (r.holder?.map Agent.turns).getD []

end Rota

namespace LiveMap

variable {ν : Type}

/-- Whether the holder has used up its allowance. To look at the table is free. -/
def isSpent (m : LiveMap ν) (r : Rota) : Bool :=
  r.allowance = 0 && match r.holder? with
    | some (.worker _) => true
    | some (.sweeper i) => m.sweepers[i]?.any (!·.isLooking)
    | none => false

/-- Puts everyone in line who can go on and is not on the rota. -/
def enrol (m : LiveMap ν) (r : Rota) : Rota :=
  m.agents.foldl
    (fun r a => if !r.has a && m.canGo a then { r with line := r.line ++ [a] } else r) r

/-- The rota at first. The workers of a sweeper that has not looked yet come before it, and have one
stint each in which there is nothing to do. -/
def rota (m : LiveMap ν) : Rota :=
  let idle := m.sweepers.foldl (fun n s => if s.isLooking then n + s.workers else n) 0
  m.enrol { stints := idle % Rota.roundLength }

/-- The turns to try, in order, with the rota on which each is taken. At the end stand all turns, so
that a map with nothing to try is at rest. -/
def proposals (m : LiveMap ν) (r : Rota) : List (Turn × Rota) :=
  let r := if m.isSpent r then r.rest else r
  let rotas := r :: r.following (r.line.length + r.resting.length)
  rotas.flatMap (fun r => r.holderTurns.map (·, r)) ++ m.turns.map (·, r)

/-- The rota after a turn that leads to `m'`. A worker among several ends its stint with one item:
it passes its place on before it runs the callback, so the next worker is in line behind a sweeper
that the room in the outbox lets go on, and before a sweeper that the callback wakes. -/
def rotaAfter (m : LiveMap ν) (r : Rota) (t : Turn) (m' : LiveMap ν) : Rota :=
  let r := { r with allowance := r.allowance - Rota.cost t }
  match t with
  | .work i =>
    match m.sweepers[i]?.bind fun s => s.take?.map fun x => (s.workers, x.2) with
    | some (workers, s) =>
      let r := (m.setSweeper i s).enrol r
      m'.enrol <| if 1 < workers then
        { r with holder? := none, line := r.line ++ [.worker i] } else r
    | none => m'.enrol r
  | _ => m'.enrol r

def step? (m : LiveMap ν) (r : Rota) : Option (LiveMap ν × Rota) :=
  (m.proposals r).findSome? fun (t, r) => (m.turn? t).map fun m' => (m', m.rotaAfter r t m')

def steps : Nat → LiveMap ν → Rota → LiveMap ν
  | 0, m, _ => m
  | n + 1, m, r => match m.step? r with
    | some (m, r) => steps n m r
    | none => m

/-- Lets sweepers and workers go on until nothing is left to do now. -/
def settle (m : LiveMap ν) : LiveMap ν := m.steps m.turnsLeft m.rota

end LiveMap

end ExpiringMap
