import ExpiringMap.Basic

/-!
An outbox is a bounded queue and the workers that empty it. A worker takes the oldest item and
delivers it, and delivering some items ends the worker. With the last worker the outbox closes:
what is queued is lost, and nothing is taken in any more.
-/

namespace ExpiringMap

/-- How callbacks go wrong. One that fails is survived by its worker, and so ends nobody. -/
structure Faults where
  failing : List Key := []
  fatal : List Key := []

def Faults.endsWorker (f : Faults) (k : Key) : Bool := f.fatal.contains k && !f.failing.contains k

structure Outbox (α : Type) where
  capacity : Nat
  workers : Nat
  queued : List α := []

namespace Outbox

variable {α : Type}

inductive Refusal where
  | noRoom
  | tooLarge
  deriving DecidableEq

def maxCapacity : Nat := Nat.pow 2 61 - 1

def Refusal.message : Refusal → String
  | noRoom => "mpsc bounded channel requires buffer > 0"
  | tooLarge =>
    "a semaphore may not have more than MAX_PERMITS permits (" ++ toString maxCapacity ++ ")"

def refusal? (capacity : Nat) : Option Refusal :=
  if capacity = 0 then some .noRoom
  else if maxCapacity < capacity then some .tooLarge
  else none

inductive Offer (α : Type) where
  | closed
  | full
  | accepted (o : Outbox α)

def offer (o : Outbox α) (x : α) : Offer α :=
  if o.workers = 0 then .closed
  else if o.capacity ≤ o.queued.length then .full
  else .accepted { o with queued := o.queued ++ [x] }

def take? (o : Outbox α) : Option (α × Outbox α) :=
  match o.workers, o.queued with
  | _ + 1, x :: xs => some (x, { o with queued := xs })
  | _, _ => none

def loseWorker (o : Outbox α) : Outbox α :=
  { o with workers := o.workers - 1, queued := if o.workers ≤ 1 then [] else o.queued }

/-- A worker takes the oldest item and delivers it; `fatal` items end the worker. -/
def work? (fatal : α → Bool) (o : Outbox α) : Option (α × Outbox α) :=
  o.take?.map fun (x, o) => (x, if fatal x then o.loseWorker else o)

theorem length_loseWorker (o : Outbox α) : o.loseWorker.queued.length ≤ o.queued.length := by
  unfold loseWorker
  split <;> simp

theorem length_take? {o o' : Outbox α} {x : α} (h : o.take? = some (x, o')) :
    o'.queued.length + 1 = o.queued.length := by
  unfold take? at h
  grind

theorem length_work? {fatal : α → Bool} {o o' : Outbox α} {x : α}
    (h : o.work? fatal = some (x, o')) : o'.queued.length < o.queued.length := by
  simp only [work?, Option.map_eq_some_iff, Prod.exists] at h
  obtain ⟨y, p, hp, h⟩ := h
  have := length_take? hp
  have := length_loseWorker p
  grind

/-- Workers deliver until nothing is left to do; the items delivered, in queue order. -/
def drain (fatal : α → Bool) (o : Outbox α) : List α × Outbox α :=
  match _h : o.work? fatal with
  | some (x, o') =>
    let r := o'.drain fatal
    (x :: r.1, r.2)
  | none => ([], o)
termination_by o.queued.length
decreasing_by exact length_work? _h

end Outbox

end ExpiringMap
