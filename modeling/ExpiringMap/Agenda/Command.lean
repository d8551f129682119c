import ExpiringMap.Agenda.Basic

namespace ExpiringMap.Agenda

open Std

variable {ι : Type} [Ord ι] [TransOrd ι]

/-- A mistake of the caller, which is answered for and changes nothing. -/
inductive Misuse where
  | alreadyScheduled
  | outOfBounds (slot : Nat)
  deriving DecidableEq

def Misuse.message : Misuse → String
  | alreadyScheduled => "id already tracked"
  | outOfBounds slot => "heap position " ++ toString slot ++ " out of bounds"

inductive Command (ι : Type) where
  | push (id : ι) (deadline : Deadline)
  | pop
  | eraseAt (slot : Nat)
  | erase (id : ι)
  /-- Changes the deadline of an item, and its place if it is on the agenda. -/
  | reschedule (id : ι) (deadline : Deadline)
  | resift (slot : Nat)
  | root
  | clear

inductive Reply (ι : Type) where
  | done
  | id (id? : Option ι)
  | notScheduled
  | misuse (m : Misuse)
  deriving DecidableEq

/-- Sets the deadline of an item and leaves its place. -/
def setDeadline (a : Agenda ι Unit) (id : ι) (deadline : Deadline) : Agenda ι Unit :=
  a.modify id ({ · with deadline })

def apply (a : Agenda ι Unit) : Command ι → Reply ι × Agenda ι Unit
  | .push id deadline =>
    if a.isScheduled id then (.misuse .alreadyScheduled, a)
    else (.done, (a.insert id { payload := (), deadline }).push id)
  | .pop => (.id a.slots[0]?, a.eraseAt 0)
  | .eraseAt slot =>
    if a.size = 0 then (.id none, a)
    else match a.slots[slot]? with
      | some id => (.id (some id), a.eraseAt slot)
      | none => (.misuse (.outOfBounds slot), a)
  | .erase id =>
    match a.positionOf? id with
    | some slot => (.id a.slots[slot]?, a.eraseAt slot)
    | none => (.notScheduled, a)
  | .reschedule id deadline =>
    let b := a.setDeadline id deadline
    match a.positionOf? id with
    | some slot => (.done, b.resift slot)
    | none => (.notScheduled, b)
  | .resift slot =>
    if slot < a.size then (.done, a.resift slot) else (.misuse (.outOfBounds slot), a)
  | .root => (.id a.slots[0]?, a)
  | .clear => (.done, {})

def after (commands : List (Command ι)) : Agenda ι Unit :=
  commands.foldl (fun a c => (a.apply c).2) {}

end ExpiringMap.Agenda
