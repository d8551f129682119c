import ExpiringMap.Deadline
import Std.Data.ExtTreeMap

/-!
An agenda orders the items of a table by deadline, earliest first. It is a binary heap of ids laid
out in an array, and each item on it records the slot that its id stands in, so an item can be
taken from the middle or moved after its deadline has changed. An item that is off the agenda
records no slot.

Only a strictly earlier item moves past another, so items of equal deadline stay as they are.
-/

namespace ExpiringMap

open Std

structure Item (α : Type) where
  payload : α
  deadline : Deadline
  position : Option Nat := none

/-- The items by id, on the agenda or off it, and the ids that are on it in heap layout. -/
structure Agenda (ι α : Type) [Ord ι] where
  items : ExtTreeMap ι (Item α) := ∅
  slots : Array ι := #[]

namespace Agenda

variable {ι α : Type} [Ord ι] [TransOrd ι]

def size (a : Agenda ι α) : Nat := a.slots.size

def itemAt? (a : Agenda ι α) (i : Nat) : Option (Item α) := a.slots[i]?.bind (a.items[·]?)

/-- The id that ends first, with its item. -/
def root? (a : Agenda ι α) : Option (ι × Item α) :=
  a.slots[0]?.bind fun id => a.items[id]?.map (id, ·)

def earlier (a : Agenda ι α) (i j : Nat) : Bool :=
  match a.itemAt? i, a.itemAt? j with
  | some x, some y => x.deadline.before y.deadline
  | _, _ => false

def setPosition (a : Agenda ι α) (id : ι) (position : Option Nat) : Agenda ι α :=
  { a with items := a.items.modify id ({ · with position }) }

def record (a : Agenda ι α) (i : Nat) : Agenda ι α :=
  match a.slots[i]? with
  | some id => a.setPosition id i
  | none => a

def swap (a : Agenda ι α) (i j : Nat) : Agenda ι α :=
  ({ a with slots := a.slots.swapIfInBounds i j }.record i).record j

@[simp] theorem slots_setPosition (a : Agenda ι α) (id : ι) (p : Option Nat) :
    (a.setPosition id p).slots = a.slots := rfl

@[simp] theorem slots_record (a : Agenda ι α) (i : Nat) : (a.record i).slots = a.slots := by
  unfold record; split <;> rfl

@[simp] theorem slots_swap (a : Agenda ι α) (i j : Nat) :
    (a.swap i j).slots = a.slots.swapIfInBounds i j := by
  simp [swap]

def parent (i : Nat) : Nat := (i - 1) / 2

/-- Moves slot `i` up past every later parent. -/
def siftUp (a : Agenda ι α) (i : Nat) : Agenda ι α :=
  if 0 < i ∧ a.earlier i (parent i) then (a.swap i (parent i)).siftUp (parent i) else a
termination_by i
decreasing_by simp only [parent]; omega

/-- The child of slot `i` that ends first, the left one of two equals. -/
def earlierChild? (a : Agenda ι α) (i : Nat) : Option Nat :=
  if 2 * i + 1 < a.size then
    some (if 2 * i + 2 < a.size ∧ a.earlier (2 * i + 2) (2 * i + 1) then 2 * i + 2 else 2 * i + 1)
  else none

theorem earlierChild?_bounds {a : Agenda ι α} {i c : Nat} (h : a.earlierChild? i = some c) :
    i < c ∧ c < a.size := by
  unfold earlierChild? at h
  grind

/-- Moves slot `i` down past every earlier child, and answers where it came to rest. -/
def siftDown (a : Agenda ι α) (i : Nat) : Agenda ι α × Nat :=
  match _h : a.earlierChild? i with
  | some c => if a.earlier c i then (a.swap i c).siftDown c else (a, i)
  | none => (a, i)
termination_by a.size - i
decreasing_by
  have := earlierChild?_bounds _h
  simp only [size, slots_swap, Array.size_swapIfInBounds] at this ⊢
  omega

/-- Puts slot `i` where its deadline belongs when all other slots are in order: down, and up only
if it did not go down. -/
def resift (a : Agenda ι α) (i : Nat) : Agenda ι α :=
  let r := a.siftDown i
  if r.2 = i then r.1.siftUp i else r.1

@[simp] theorem size_siftUp (a : Agenda ι α) (i : Nat) : (a.siftUp i).size = a.size := by
  fun_induction siftUp a i with
  | case1 a i h ih => simpa [size] using ih
  | case2 => rfl

@[simp] theorem size_siftDown (a : Agenda ι α) (i : Nat) : (a.siftDown i).1.size = a.size := by
  fun_induction siftDown a i with
  | case1 a i c h hc ih => simpa [size] using ih
  | case2 => rfl
  | case3 => rfl

@[simp] theorem size_resift (a : Agenda ι α) (i : Nat) : (a.resift i).size = a.size := by
  simp only [resift]
  split <;> simp

/-- Takes an id that is off the agenda onto it. -/
def push (a : Agenda ι α) (id : ι) : Agenda ι α :=
  ({ a with slots := a.slots.push id }.setPosition id a.size).siftUp a.size

def dropLast (a : Agenda ι α) : Agenda ι α :=
  match a.slots.back? with
  | some id => { a with slots := a.slots.pop }.setPosition id none
  | none => a

/-- Takes the id in slot `i` off the agenda; the last slot fills the gap. -/
def eraseAt (a : Agenda ι α) (i : Nat) : Agenda ι α :=
  if i < a.size then
    let b := (a.swap i (a.size - 1)).dropLast
    if i < b.size then b.resift i else b
  else a

@[simp] theorem size_dropLast (a : Agenda ι α) : a.dropLast.size = a.size - 1 := by
  unfold dropLast
  split
  · simp [size]
  · next h => simp [Array.back?_eq_none_iff] at h; simp [size, h]

theorem size_eraseAt {a : Agenda ι α} {i : Nat} (h : i < a.size) :
    (a.eraseAt i).size = a.size - 1 := by
  have hs : (a.swap i (a.size - 1)).size = a.size := by simp [size]
  simp only [eraseAt, h, ↓reduceIte]
  split <;> simp [hs]

def positionOf? (a : Agenda ι α) (id : ι) : Option Nat := a.items[id]?.bind (·.position)

def isScheduled (a : Agenda ι α) (id : ι) : Bool := (a.positionOf? id).isSome

/-- Takes `id` onto the agenda, or moves it to where its deadline belongs now. -/
def schedule (a : Agenda ι α) (id : ι) : Agenda ι α :=
  match a.positionOf? id with
  | some i => a.resift i
  | none => a.push id

def unschedule (a : Agenda ι α) (id : ι) : Agenda ι α :=
  match a.positionOf? id with
  | some i => a.eraseAt i
  | none => a

def insert (a : Agenda ι α) (id : ι) (item : Item α) : Agenda ι α :=
  { a with items := a.items.insert id item }

def modify (a : Agenda ι α) (id : ι) (f : Item α → Item α) : Agenda ι α :=
  { a with items := a.items.modify id f }

/-- Drops the item of an id that is off the agenda. -/
def forget (a : Agenda ι α) (id : ι) : Agenda ι α :=
  { a with items := a.items.erase id }

@[simp] theorem size_forget (a : Agenda ι α) (id : ι) : (a.forget id).size = a.size := rfl

theorem size_pos_of_root? {a : Agenda ι α} {r : ι × Item α} (h : a.root? = some r) :
    0 < a.size := by
  unfold root? at h
  obtain ⟨id, hid, -⟩ := Option.bind_eq_some_iff.1 h
  exact (Array.getElem?_eq_some_iff.1 hid).1

end Agenda

end ExpiringMap
