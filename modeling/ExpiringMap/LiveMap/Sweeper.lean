import ExpiringMap.LiveMap.Watched
import ExpiringMap.Outbox.Basic

/-!
A sweeper takes what is due out of a watched table, hands it over to its outbox item by item, and
waits for the next entry to end, for a wake permit, or for word to leave. Each function here is one
turn, which nothing interrupts.
-/

namespace ExpiringMap

inductive Phase (ν : Type) where
  | looking
  | handing (item : Expired ν) (rest : List (Expired ν))
  | waiting (alarm? : Option Instant)
  | done

def Phase.ofItems {ν : Type} : List (Expired ν) → Phase ν
  | [] => .looking
  | x :: xs => .handing x xs

structure Sweeper (ν : Type) where
  phase : Phase ν := .looking
  leaving : Bool := false
  /-- Where expired entries go, if anyone is to be told of them. -/
  outbox? : Option (Outbox (Expired ν)) := none

inductive Release where
  | leave
  | wake
  | timer
  deriving DecidableEq

namespace Sweeper

variable {ν : Type}

/-- How long to wait when nothing is due: until the next entry ends, or for `idlePoll` if none
does and the clock holds that instant. -/
def alarm? (t : Table ν) (now : Instant) (idlePoll : Span) : Option Instant :=
  t.nextDue?.or (now.later? idlePoll)

/-- Looks at the table: leaves if told to, takes what is due, or waits if nothing is. What is due
is dropped if there is no outbox. -/
def look? (now : Instant) (idlePoll : Span) (w : Watched ν) (s : Sweeper ν) :
    Option (Watched ν × Sweeper ν) :=
  match s.phase with
  | .looking =>
    if s.leaving then some (w, { s with phase := .done })
    else
      let r := w.table.takeDue now
      let phase := match r.1, s.outbox? with
        | [], _ => .waiting (alarm? r.2 now idlePoll)
        | _ :: _, none => .looking
        | x :: xs, some _ => .handing x xs
      some ({ w with table := r.2 }, { s with phase })
  | _ => none

/-- Hands one item over. The turn does not come while the outbox is full; if it is closed, the rest
is dropped and so is the outbox. -/
def hand? (s : Sweeper ν) : Option (Sweeper ν) :=
  match s.phase with
  | .handing x rest =>
    match s.outbox? with
    | none => some { s with phase := .looking }
    | some o =>
      match o.offer x with
      | .accepted o => some { s with phase := .ofItems rest, outbox? := some o }
      | .full => none
      | .closed => some { s with phase := .looking, outbox? := none }
  | _ => none

def release? (now : Instant) (w : Watched ν) (s : Sweeper ν) :
    Release → Option (Watched ν × Sweeper ν)
  | .leave =>
    match s.phase with
    | .waiting _ => if s.leaving then some (w, { s with phase := .done }) else none
    | _ => none
  | .wake =>
    match s.phase with
    | .waiting _ =>
      if w.permit then some ({ w with permit := false }, { s with phase := .looking }) else none
    | _ => none
  | .timer =>
    match s.phase with
    | .waiting (some t) => if t ≤ now then some (w, { s with phase := .looking }) else none
    | _ => none

def take? (s : Sweeper ν) : Option (Expired ν × Sweeper ν) :=
  s.outbox?.bind fun o => o.take?.map fun (x, o) => (x, { s with outbox? := some o })

def workers (s : Sweeper ν) : Nat :=
  match s.outbox? with
  | some o => o.workers
  | none => 0

def loseWorker (s : Sweeper ν) : Sweeper ν := { s with outbox? := s.outbox?.map (·.loseWorker) }

def leave (s : Sweeper ν) : Sweeper ν := { s with leaving := true }

/-- The millisecond at which the timer of a waiting sweeper runs out. -/
def timerMillis? (s : Sweeper ν) : Option Nat :=
  match s.phase with
  | .waiting (some t) => some (Instant.ceilMillis t).toNat
  | _ => none

def queued (s : Sweeper ν) : List (Expired ν) :=
  match s.outbox? with
  | some o => o.queued
  | none => []

def batch (s : Sweeper ν) : List (Expired ν) :=
  match s.phase with
  | .handing x rest => x :: rest
  | _ => []

def isLooking (s : Sweeper ν) : Bool :=
  match s.phase with
  | .looking => true
  | _ => false

/-- Whether it has left and everything it handed over is delivered. -/
def isFinished (s : Sweeper ν) : Bool :=
  match s.phase with
  | .done => s.queued.isEmpty
  | _ => false

def phaseTurns (now : Instant) (s : Sweeper ν) : Nat :=
  match s.phase with
  | .looking | .handing .. => 1
  | .waiting alarm? => if s.leaving ∨ alarm?.any (· ≤ now) then 2 else 0
  | .done => 0

/-- A bound for the turns that sweepers and what they have taken out still call for. -/
def turnsLeft (now : Instant) : List (Sweeper ν) → Nat
  | [] => 0
  | s :: rest =>
    4 * s.batch.length + 3 * s.queued.length + s.phaseTurns now + turnsLeft now rest

end Sweeper

end ExpiringMap
