import ExpiringMap.Table.Basic

namespace ExpiringMap

open Std

/-- A visitor is shown entries one by one. It stops after an entry once it has seen `limit?` of
them, and fails at the entry whose number is `failAt?`. -/
structure Visitor where
  limit? : Option Nat := none
  failAt? : Option Nat := none

inductive Visit (ν : Type) where
  /-- Every entry, by key, if there was no limit. -/
  | all (entries : List (Key × ν))
  /-- How many entries were seen under a limit. -/
  | seen (count : Nat)
  | failed

namespace Visitor

variable {ν : Type}

/-- The entries shown after `seen` earlier ones, unless the visitor fails. -/
def walk (v : Visitor) (seen : Nat) : List (Key × ν) → Option (List (Key × ν))
  | [] => some []
  | e :: rest =>
    if v.failAt? = some (seen + 1) then none
    else if v.limit?.any (· ≤ seen + 1) then some [e]
    else (v.walk (seen + 1) rest).map (e :: ·)

def visit (v : Visitor) (entries : List (Key × ν)) : Visit ν :=
  match v.walk 0 entries, v.limit? with
  | none, _ => .failed
  | some shown, none => .all (Key.sortBy (·.1) shown)
  | some shown, some _ => .seen shown.length

end Visitor

namespace Table

variable {ν : Type}

def get? (t : Table ν) (k : Key) : Option (ν × Deadline) :=
  (t.find? k).map fun (_, item) => (item.payload.value, item.deadline)

def contains (t : Table ν) (k : Key) : Bool := t.index.contains k

def getMany (t : Table ν) (ks : List Key) : ExtTreeMap Key ν :=
  ks.foldl (fun found k => match t.get? k with
    | some (v, _) => found.insert k v
    | none => found) ∅

def keys (t : Table ν) : List Key := t.index.keys

/-- Every entry, oldest first. -/
def entries (t : Table ν) : List (Key × ν) :=
  t.agenda.items.toList.map fun (_, item) => (item.payload.key, item.payload.value)

def values (t : Table ν) : ExtTreeMap Key ν := ExtTreeMap.ofList t.entries

def visit (t : Table ν) (v : Visitor) : Visit ν := v.visit t.entries

/-- The time left to `k` at `now`, inner `none` if it never ends. -/
def timeLeft (t : Table ν) (k : Key) (now : Instant) : Option (Option Span) :=
  (t.get? k).map fun (_, deadline) => deadline.timeLeft now

def dueCount (t : Table ν) (now : Instant) : Nat :=
  t.agenda.items.toList.countP (·.2.deadline.hasPassed now)

end Table

end ExpiringMap
