import ExpiringMap.LiveMap.Call
import ExpiringMap.Outbox.Basic

namespace ExpiringMap

/-- Puts an expired entry in again, with its next value if it has one. -/
structure Rearm (ν : Type) where
  next? : ν → Option ν
  ttl : Span

/-- Counts values up to `max`, as far as they are integers. -/
def Rearm.counting {ν : Type} (toInt? : ν → Option Int) (ofInt : Int → ν) (max : Int)
    (ttl : Span) : Rearm ν where
  next? v := match toInt? v with
    | some n => if n < max then some (ofInt (n + 1)) else none
    | none => none
  ttl

/-- What is run for each expired entry. It may call the map back, put the entry in again, and go
wrong, in this order. -/
structure Callback (ν : Type) where
  /-- The calls to make when a key is delivered for the first time. -/
  scripts : List (Key × List (Call ν)) := []
  rearm? : Option (Rearm ν) := none
  faults : Faults := {}

namespace Callback

variable {ν : Type}

def script? (c : Callback ν) (k : Key) : Option (List (Call ν)) := c.scripts.lookup k

/-- Gives up the script of a key, which runs once. -/
def spend (c : Callback ν) (k : Key) : Callback ν :=
  { c with scripts := c.scripts.eraseP (·.1 == k) }

def scriptedCalls (c : Callback ν) : Nat := (c.scripts.flatMap (·.2)).length

def rearmCall? (c : Callback ν) (k : Key) (v : ν) : Option (Call ν) :=
  c.rearm?.bind fun r => (r.next? v).map fun v => .putFor k v r.ttl

end Callback

end ExpiringMap
