import ExpiringMap.Table.Reads

namespace ExpiringMap

/-- A table that a sweeper watches. Whoever puts an entry first on the agenda leaves a wake permit;
a second permit before the first is used adds nothing. -/
structure Watched (ν : Type) where
  table : Table ν := {}
  permit : Bool := false

namespace Watched

variable {ν : Type}

def note (w : Watched ν) : Standing → Watched ν
  | .first => { w with permit := true }
  | .behind => w

def put (w : Watched ν) (k : Key) (v : ν) : Watched ν := { w with table := w.table.put k v }

def putUntil (w : Watched ν) (k : Key) (v : ν) (deadline : Deadline) : Watched ν :=
  let r := w.table.putUntil k v deadline
  { w with table := r.1 }.note r.2

def erase (w : Watched ν) (k : Key) : Watched ν × Bool :=
  let r := w.table.erase k
  ({ w with table := r.1 }, r.2)

def eraseMany (w : Watched ν) (ks : List Key) : Watched ν × Nat :=
  let r := w.table.eraseMany ks
  ({ w with table := r.1 }, r.2)

def clear (w : Watched ν) : Watched ν := { w with table := w.table.clear }

def keep (w : Watched ν) (k : Key) : Watched ν × Bool :=
  let r := w.table.keep k
  ({ w with table := r.1 }, r.2)

def reschedule (w : Watched ν) (k : Key) (deadline : Deadline) (now : Instant) :
    Watched ν × Bool :=
  let r := w.table.reschedule k deadline now
  ({ w with table := r.1 }.note r.2.2, r.2.1)

end Watched

end ExpiringMap
