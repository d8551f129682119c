import ExpiringMap.Table.Reads

namespace ExpiringMap

open Std

/-- The calls that return at once. -/
inductive Call (ν : Type) where
  | put (k : Key) (v : ν)
  | putUntil (k : Key) (v : ν) (deadline : Deadline)
  | putFor (k : Key) (v : ν) (ttl : Span)
  | erase (k : Key)
  | eraseMany (ks : List Key)
  | clear
  | keep (k : Key)
  | reschedule (k : Key) (deadline : Deadline)
  | get (k : Key)
  | getMany (ks : List Key)
  | contains (k : Key)
  | size
  | isEmpty
  | keys
  | values
  | statistics
  | timeLeft (k : Key)
  | visit (v : Visitor)
  | start
  | isRunning
  | describe

inductive Answer (ν : Type) where
  | done
  | flag (b : Bool)
  | count (n : Nat)
  | entry (e? : Option (ν × Deadline))
  | values (vs : ExtTreeMap Key ν)
  | keys (ks : List Key)
  | statistics (s : Statistics)
  | timeLeft (left? : Option (Option Span))
  | visited (v : Visit ν)
  | text (s : String)

end ExpiringMap
