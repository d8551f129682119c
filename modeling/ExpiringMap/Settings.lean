import ExpiringMap.Basic

namespace ExpiringMap

structure Settings where
  /-- How many workers deliver expired entries, zero for the usual number. -/
  workers : Nat := 4
  queueCapacity : Nat := 1024
  /-- How long the sweeper waits when no entry ends. -/
  idlePoll : Span := Span.second
  deriving DecidableEq

namespace Settings

inductive Problem where
  | noQueue
  | noIdlePoll
  deriving DecidableEq

def Problem.message : Problem → String
  | noQueue => "invalid configuration: queue_capacity must be greater than 0"
  | noIdlePoll => "invalid configuration: idle_poll must be greater than 0"

def problem? (s : Settings) : Option Problem :=
  if s.queueCapacity = 0 then some .noQueue
  else if s.idlePoll = 0 then some .noIdlePoll
  else none

def usualWorkers : Nat := 4

def workerCount (s : Settings) : Nat := if s.workers = 0 then usualWorkers else s.workers

def text (s : Settings) : String :=
  "ReaperConfig \x7b workers: " ++ toString s.workers ++
    ", queue_capacity: " ++ toString s.queueCapacity ++
    ", idle_poll: " ++ s.idlePoll.text ++ " \x7d"

theorem workerCount_pos (s : Settings) : 0 < s.workerCount := by
  unfold workerCount usualWorkers
  split <;> omega

end Settings

end ExpiringMap
