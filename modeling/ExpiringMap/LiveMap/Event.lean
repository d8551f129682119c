import ExpiringMap.LiveMap.Call

/-!
The deliveries that callbacks saw, and the order in which they are listed. With several workers the
order of deliveries is nobody's to know, so they are listed by time, end and key. A single worker
delivers in the order of the agenda, which leaves open only the order of entries that end together.
-/

namespace ExpiringMap

structure Event (ν : Type) where
  time : Nat
  key : Key
  value : ν
  due : Instant
  /-- What the calls of a script answered, if one was run. -/
  script? : Option (List (Answer ν)) := none

namespace Event

variable {ν : Type}

def notAfter (a b : Event ν) : Bool :=
  a.time < b.time ||
    a.time == b.time && (a.due < b.due || a.due == b.due && a.key ≤ b.key)

def together (a b : Event ν) : Bool := a.time == b.time && a.due == b.due

/-- Sorts each run of neighbours that belong together by key. -/
def sortRuns (es : List (Event ν)) : List (Event ν) :=
  (es.splitBy together).flatMap (Key.sortBy Event.key)

def listing (workers : Nat) (es : List (Event ν)) : List (Event ν) :=
  if workers = 1 then sortRuns es else es.mergeSort notAfter

end Event

end ExpiringMap
