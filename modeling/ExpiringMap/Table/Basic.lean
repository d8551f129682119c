import ExpiringMap.Agenda.Basic

/-!
A table binds keys to values, each with a deadline. Entries have ids that are never used twice; the
index finds an entry's id by its key, and the entries that end at an instant stand on the agenda.
Every change is counted where it is made.
-/

namespace ExpiringMap

open Std

structure Entry (ν : Type) where
  key : Key
  value : ν

/-- What has been counted so far. An entry becomes permanent when it is added so or made so. -/
structure Tally where
  added : Nat := 0
  removed : Nat := 0
  expired : Nat := 0
  permanent : Nat := 0
  deriving DecidableEq

structure Statistics extends Tally where
  current : Nat
  deriving DecidableEq

inductive Standing where
  | first
  | behind
  deriving DecidableEq

/-- An entry that has ended and is in no table any more. -/
structure Expired (ν : Type) where
  key : Key
  value : ν
  due : Instant
  deriving DecidableEq

structure Table (ν : Type) where
  agenda : Agenda Nat (Entry ν) := {}
  index : ExtTreeMap Key Nat := ∅
  fresh : Nat := 0
  tally : Tally := {}

namespace Table

variable {ν : Type}

def find? (t : Table ν) (k : Key) : Option (Nat × Item (Entry ν)) :=
  t.index[k]?.bind fun id => t.agenda.items[id]?.map (id, ·)

def size (t : Table ν) : Nat := t.index.size

def isEmpty (t : Table ν) : Bool := t.index.isEmpty

/-- The number of entries that end at an instant. -/
def temporarySize (t : Table ν) : Nat := t.agenda.size

def statistics (t : Table ν) : Statistics := { t.tally with current := t.size }

def nextDue? (t : Table ν) : Option Instant := t.agenda.root?.bind (·.2.deadline.instant?)

def standing (t : Table ν) (id : Nat) : Standing :=
  if t.agenda.slots[0]? = some id then .first else .behind

/-- Adds an entry under a fresh id, off the agenda. -/
def add (t : Table ν) (k : Key) (v : ν) (deadline : Deadline) : Table ν :=
  { agenda := t.agenda.insert t.fresh { payload := ⟨k, v⟩, deadline }
    index := t.index.insert k t.fresh
    fresh := t.fresh + 1
    tally := { t.tally with added := t.tally.added + 1 } }

def countPermanent (t : Table ν) : Table ν :=
  { t with tally := { t.tally with permanent := t.tally.permanent + 1 } }

def countRemoved (t : Table ν) : Table ν :=
  { t with tally := { t.tally with removed := t.tally.removed + 1 } }

def countExpired (t : Table ν) : Table ν :=
  { t with tally := { t.tally with expired := t.tally.expired + 1 } }

def onAgenda (t : Table ν) (f : Agenda Nat (Entry ν) → Agenda Nat (Entry ν)) : Table ν :=
  { t with agenda := f t.agenda }

/-- Takes an entry out of the table, uncounted. -/
def discard (t : Table ν) (id : Nat) (k : Key) : Table ν :=
  { t with agenda := (t.agenda.unschedule id).forget id, index := t.index.erase k }

/-- Takes an entry off the agenda and counts it as permanent, if it is on it. -/
def pin (t : Table ν) (id : Nat) : Table ν :=
  if t.agenda.isScheduled id then (t.onAgenda (·.unschedule id)).countPermanent else t

def put (t : Table ν) (k : Key) (v : ν) : Table ν :=
  match t.find? k with
  | some (id, _) =>
    (t.pin id).onAgenda (·.modify id ({ · with payload := ⟨k, v⟩, deadline := .never }))
  | none => (t.add k v .never).countPermanent

def schedule (t : Table ν) (id : Nat) : Table ν × Standing :=
  let scheduled := t.onAgenda (·.schedule id)
  (scheduled, scheduled.standing id)

def putUntil (t : Table ν) (k : Key) (v : ν) (deadline : Deadline) : Table ν × Standing :=
  match deadline, t.find? k with
  | .never, _ => (t.put k v, .behind)
  | .due _, some (id, _) =>
    (t.onAgenda (·.modify id ({ · with payload := ⟨k, v⟩, deadline }))).schedule id
  | .due _, none => (t.add k v deadline).schedule t.fresh

def erase (t : Table ν) (k : Key) : Table ν × Bool :=
  match t.find? k with
  | some (id, _) => ((t.discard id k).countRemoved, true)
  | none => (t, false)

def eraseMany (t : Table ν) : List Key → Table ν × Nat
  | [] => (t, 0)
  | k :: ks =>
    let r := (t.erase k).1.eraseMany ks
    (r.1, r.2 + (t.erase k).2.toNat)

/-- Drops every entry, uncounted. -/
def clear (t : Table ν) : Table ν := { t with agenda := {}, index := ∅ }

def keep (t : Table ν) (k : Key) : Table ν × Bool :=
  match t.find? k with
  | some (id, _) =>
    (if t.agenda.isScheduled id then
      (t.pin id).onAgenda (·.modify id ({ · with deadline := .never }))
    else t, true)
  | none => (t, false)

/-- Changes when `k` ends, and answers whether it is there afterwards and where it stands. A key
that would end by `now` is removed on the spot. -/
def reschedule (t : Table ν) (k : Key) (deadline : Deadline) (now : Instant) :
    Table ν × Bool × Standing :=
  match t.find? k, deadline with
  | none, _ => (t, false, .behind)
  | some _, .never => ((t.keep k).1, (t.keep k).2, .behind)
  | some (id, _), .due _ =>
    if deadline.hasPassed now then ((t.discard id k).countRemoved, false, .behind)
    else
      let r := (t.onAgenda (·.modify id ({ · with deadline }))).schedule id
      (r.1, true, r.2)

def expireRoot (t : Table ν) (id : Nat) (k : Key) : Table ν :=
  { t with agenda := (t.agenda.eraseAt 0).forget id, index := t.index.erase k }.countExpired

/-- Takes out every entry that has ended by `now`, in the order of the agenda. -/
def takeDue (t : Table ν) (now : Instant) : List (Expired ν) × Table ν :=
  match _h : t.agenda.root? with
  | some (id, ⟨⟨k, v⟩, .due end_, _⟩) =>
    if end_ ≤ now then
      let r := (t.expireRoot id k).takeDue now
      (⟨k, v, end_⟩ :: r.1, r.2)
    else ([], t)
  | _ => ([], t)
termination_by t.agenda.size
decreasing_by
  have := Agenda.size_pos_of_root? _h
  simp only [expireRoot, countExpired, Agenda.size_forget, Agenda.size_eraseAt this]
  omega

end Table

end ExpiringMap
