import ExpiringMap.LiveMap.Callback
import ExpiringMap.LiveMap.Event
import ExpiringMap.LiveMap.Sweeper
import ExpiringMap.Settings

/-!
A live map is a watched table, the sweepers that clear it, and a clock. At most one sweeper has not
been told to leave; the map runs while there is one.
-/

namespace ExpiringMap

structure LiveMap (ν : Type) where
  settings : Settings
  callback? : Option (Callback ν) := none
  /-- Whole milliseconds since the start of the run. -/
  clock : Nat := 0
  watched : Watched ν := {}
  sweepers : List (Sweeper ν) := []
  /-- The deliveries made so far, oldest first. -/
  delivered : List (Event ν) := []

namespace LiveMap

variable {ν : Type}

def now (m : LiveMap ν) : Instant := Instant.ofMillis m.clock

def table (m : LiveMap ν) : Table ν := m.watched.table

def isRunning (m : LiveMap ν) : Bool := m.sweepers.any (!·.leaving)

/-- A sweeper at its start, with all its workers if there is a callback. -/
def newSweeper (m : LiveMap ν) : Sweeper ν where
  outbox? := m.callback?.map fun _ =>
    { capacity := m.settings.queueCapacity, workers := m.settings.workerCount }

def start (m : LiveMap ν) : LiveMap ν :=
  if m.isRunning then m else { m with sweepers := m.sweepers ++ [m.newSweeper] }

/-- Tells every sweeper to leave, and does not wait for any. -/
def leave (m : LiveMap ν) : LiveMap ν := { m with sweepers := m.sweepers.map (·.leave) }

def describe (m : LiveMap ν) : String :=
  "TimedMap \x7b listener: " ++ toString m.callback?.isSome ++ ", config: " ++ m.settings.text ++
    ", .. \x7d"

inductive OpenError where
  | invalid (p : Settings.Problem)
  | noRuntime
  | queueRefused (r : Outbox.Refusal)
  deriving DecidableEq

def OpenError.message : OpenError → String
  | invalid p => p.message
  | noRuntime =>
    "no Tokio runtime available; construct and start the map from within a runtime"
  | queueRefused r => r.message

/-- A new map, running. Its sweeper has had no turn yet. The settings are checked first; a queue is
made only if there is a callback. -/
def open? (settings : Settings) (callback? : Option (Callback ν)) (hasRuntime : Bool) :
    Except OpenError (LiveMap ν) :=
  match settings.problem? with
  | some p => .error (.invalid p)
  | none =>
    if !hasRuntime then .error .noRuntime
    else match callback?.bind fun _ => Outbox.refusal? settings.queueCapacity with
      | some r => .error (.queueRefused r)
      | none => .ok { settings, callback? : LiveMap ν }.start

def call (m : LiveMap ν) : Call ν → LiveMap ν × Answer ν
  | .put k v => ({ m with watched := m.watched.put k v }, .done)
  | .putUntil k v deadline => ({ m with watched := m.watched.putUntil k v deadline }, .done)
  | .putFor k v ttl =>
    ({ m with watched := m.watched.putUntil k v (Deadline.ofSpan m.now ttl) }, .done)
  | .erase k => let r := m.watched.erase k; ({ m with watched := r.1 }, .flag r.2)
  | .eraseMany ks => let r := m.watched.eraseMany ks; ({ m with watched := r.1 }, .count r.2)
  | .clear => ({ m with watched := m.watched.clear }, .done)
  | .keep k => let r := m.watched.keep k; ({ m with watched := r.1 }, .flag r.2)
  | .reschedule k deadline =>
    let r := m.watched.reschedule k deadline m.now; ({ m with watched := r.1 }, .flag r.2)
  | .get k => (m, .entry (m.table.get? k))
  | .getMany ks => (m, .values (m.table.getMany ks))
  | .contains k => (m, .flag (m.table.contains k))
  | .size => (m, .count m.table.size)
  | .isEmpty => (m, .flag m.table.isEmpty)
  | .keys => (m, .keys m.table.keys)
  | .values => (m, .values m.table.values)
  | .statistics => (m, .statistics m.table.statistics)
  | .timeLeft k => (m, .timeLeft (m.table.timeLeft k m.now))
  | .visit v => (m, .visited (m.table.visit v))
  | .start => (m.start, .done)
  | .isRunning => (m, .flag m.isRunning)
  | .describe => (m, .text m.describe)

def callAll (m : LiveMap ν) : List (Call ν) → LiveMap ν × List (Answer ν)
  | [] => (m, [])
  | c :: cs =>
    let first := m.call c
    let r := first.1.callAll cs
    (r.1, first.2 :: r.2)

end LiveMap

end ExpiringMap
