import ExpiringMap.Proofs.Agenda.Operations

namespace ExpiringMap.Agenda

open Std (TransOrd LawfulEqOrd)

/-- What an operation on an agenda takes for granted and may not find. A check goes the way of its
operation and stops at the first of these. -/
inductive Fault where
  | alreadyScheduled
  | outOfBounds (slot : Nat)
  /-- An id came out of the slot of another. -/
  | outOfStep
  | noItem
  deriving DecidableEq

def demand (p : Bool) (fault : Fault) : Except Fault Unit := if p then .ok () else .error fault

theorem demand_of {p : Bool} (h : p = true) (fault : Fault) : demand p fault = .ok () := if_pos h

variable {ι α : Type} [Ord ι] [TransOrd ι]

def lookUp (a : Agenda ι α) (id : ι) : Except Fault (Item α) :=
  match a.items[id]? with
  | some x => .ok x
  | none => .error .noItem

def lookUpAt (a : Agenda ι α) (i : Nat) : Except Fault (Item α) :=
  match a.slots[i]? with
  | some id => a.lookUp id
  | none => .error (.outOfBounds i)

def checkEarlier (a : Agenda ι α) (i j : Nat) : Except Fault Unit := do
  let _ ← a.lookUpAt i
  let _ ← a.lookUpAt j

/-- Both slots are there, and after the exchange both ids have an item to record the slot. -/
def checkSwap (a : Agenda ι α) (i j : Nat) : Except Fault Unit := do
  a.checkEarlier i j
  { a with slots := a.slots.swapIfInBounds i j }.checkEarlier i j

def checkSiftUp (a : Agenda ι α) (i : Nat) : Except Fault Unit :=
  if 0 < i then do
    a.checkEarlier i (parent i)
    if a.earlier i (parent i) then do
      a.checkSwap i (parent i)
      (a.swap i (parent i)).checkSiftUp (parent i)
    else .ok ()
  else .ok ()
termination_by i
decreasing_by simp only [parent]; omega

def checkEarlierChild (a : Agenda ι α) (i : Nat) : Except Fault Unit :=
  if 2 * i + 2 < a.size then a.checkEarlier (2 * i + 2) (2 * i + 1) else .ok ()

def checkSiftDown (a : Agenda ι α) (i : Nat) : Except Fault Unit :=
  match _h : a.earlierChild? i with
  | some c => do
    a.checkEarlierChild i
    a.checkEarlier c i
    if a.earlier c i then do
      a.checkSwap i c
      (a.swap i c).checkSiftDown c
    else .ok ()
  | none => .ok ()
termination_by a.size - i
decreasing_by
  have := earlierChild?_bounds _h
  simp only [size, slots_swap, Array.size_swapIfInBounds] at this ⊢
  omega

def checkResift (a : Agenda ι α) (i : Nat) : Except Fault Unit := do
  demand (i < a.size) (.outOfBounds i)
  a.checkSiftDown i
  if (a.siftDown i).2 = i then (a.siftDown i).1.checkSiftUp i else .ok ()

def checkPush (a : Agenda ι α) (id : ι) : Except Fault Unit := do
  let x ← a.lookUp id
  demand x.position.isNone .alreadyScheduled
  (a.append id).checkSiftUp a.size

def checkEraseAt (a : Agenda ι α) (i : Nat) : Except Fault Unit := do
  demand (i < a.size) (.outOfBounds i)
  a.checkSwap i (a.size - 1)
  let b := (a.swap i (a.size - 1)).dropLast
  if i < b.size then b.checkResift i else .ok ()

def checkSchedule (a : Agenda ι α) (id : ι) : Except Fault Unit := do
  let x ← a.lookUp id
  match x.position with
  | some i => a.checkResift i
  | none => a.checkPush id

/-- What comes out of the slot that an item records is its id. -/
def checkUnschedule [DecidableEq ι] (a : Agenda ι α) (id : ι) : Except Fault Unit := do
  let x ← a.lookUp id
  match x.position with
  | some i =>
    a.checkEraseAt i
    demand (a.slots[i]? = some id) .outOfStep
  | none => .ok ()

theorem lookUp_eq_ok {a : Agenda ι α} {id : ι} (h : (a.content? id).isSome) :
    ∃ x, a.lookUp id = .ok x ∧ a.positionOf? id = x.position := by
  rw [isSome_content?, Option.isSome_iff_exists] at h
  obtain ⟨x, hx⟩ := h
  exact ⟨x, by simp [lookUp, hx], by simp [positionOf?, hx]⟩

theorem Linked.checkEarlier {a : Agenda ι α} (h : a.Linked) {i j : Nat} (hi : i < a.size)
    (hj : j < a.size) : a.checkEarlier i j = .ok () := by
  have hat (k : Nat) (hk : k < a.size) : ∃ x, a.lookUpAt k = .ok x := by
    have hs : a.slots[k]? = some a.slots[k] := Array.getElem?_eq_getElem hk
    obtain ⟨x, hx, -⟩ := lookUp_eq_ok (h.isSome_content? hs)
    exact ⟨x, by rw [lookUpAt, hs]; exact hx⟩
  obtain ⟨x, hx⟩ := hat i hi
  obtain ⟨y, hy⟩ := hat j hj
  rw [Agenda.checkEarlier, hx, hy]
  rfl

theorem Linked.checkEarlierChild {a : Agenda ι α} (h : a.Linked) (i : Nat) :
    a.checkEarlierChild i = .ok () := by
  unfold Agenda.checkEarlierChild
  split
  · exact h.checkEarlier (by omega) (by omega)
  · rfl

theorem Linked.checkSwap {a : Agenda ι α} (h : a.Linked) {i j : Nat} (hi : i < a.size)
    (hj : j < a.size) : a.checkSwap i j = .ok () := by
  set b : Agenda ι α := { a with slots := a.slots.swapIfInBounds i j } with hb
  have hat (k : Nat) (hk : k < a.size) : ∃ x, b.lookUpAt k = .ok x := by
    have hk' : Equiv.swap i j k < a.size := by
      rw [Equiv.swap_apply_def]
      split_ifs <;> assumption
    have hs : b.slots[k]? = some a.slots[Equiv.swap i j k] := by
      rw [hb, ← slots_swap, getElem?_slots_swap a hi hj]
      exact Array.getElem?_eq_getElem hk'
    obtain ⟨x, hx, -⟩ := lookUp_eq_ok (h.isSome_content? (Array.getElem?_eq_getElem hk'))
    exact ⟨x, by rw [lookUpAt, hs]; exact hx⟩
  obtain ⟨x, hx⟩ := hat i hi
  obtain ⟨y, hy⟩ := hat j hj
  have hafter : b.checkEarlier i j = .ok () := by
    rw [Agenda.checkEarlier, hx, hy]
    rfl
  rw [Agenda.checkSwap, h.checkEarlier hi hj]
  exact hafter

variable [LawfulEqOrd ι]

theorem Linked.checkSiftUp {a : Agenda ι α} (h : a.Linked) {i : Nat} (hi : i < a.size) :
    a.checkSiftUp i = .ok () := by
  fun_induction Agenda.checkSiftUp a i with
  | case1 a i hpos ih =>
    have hp := Nat.lt_trans (parent_lt hpos) hi
    have hs := h.rearranged_swap hi hp
    rw [h.checkEarlier hi hp, h.checkSwap hi hp]
    change (if _ then _ else _) = _
    split
    · exact ih hs.linked (hs.size_eq ▸ hp)
    · rfl
  | case2 => rfl

theorem Linked.checkSiftDown {a : Agenda ι α} (h : a.Linked) {i : Nat} (hi : i < a.size) :
    a.checkSiftDown i = .ok () := by
  fun_induction Agenda.checkSiftDown a i with
  | case1 a i c hc ih =>
    have hcn := (earlierChild?_bounds hc).2
    have hs := h.rearranged_swap hi hcn
    rw [h.checkEarlierChild, h.checkEarlier hcn hi, h.checkSwap hi hcn]
    change (if _ then _ else _) = _
    split
    · exact ih hs.linked (hs.size_eq ▸ hcn)
    · rfl
  | case2 => rfl

theorem Linked.checkResift {a : Agenda ι α} (h : a.Linked) {i : Nat} (hi : i < a.size) :
    a.checkResift i = .ok () := by
  have hd := h.rearranged_siftDown hi
  rw [Agenda.checkResift, demand_of (by simpa using hi), h.checkSiftDown hi]
  change (if _ then _ else _) = _
  split
  · exact hd.linked.checkSiftUp (hd.size_eq ▸ hi)
  · rfl

theorem Linked.checkPush {a : Agenda ι α} (h : a.Linked) {id : ι} (hid : (a.content? id).isSome)
    (hoff : a.positionOf? id = none) : a.checkPush id = .ok () := by
  obtain ⟨x, hx, hp⟩ := lookUp_eq_ok hid
  rw [hoff] at hp
  rw [Agenda.checkPush, hx]
  change (do demand x.position.isNone _; _) = _
  rw [demand_of (by rw [← hp]; rfl)]
  exact (h.append hid hoff).checkSiftUp (by simp)

theorem Linked.checkEraseAt {a : Agenda ι α} (h : a.Linked) {i : Nat} (hi : i < a.size) :
    a.checkEraseAt i = .ok () := by
  have hlt : a.size - 1 < a.size := by omega
  have hs := h.rearranged_swap hi hlt
  have hlast : (a.swap i (a.size - 1)).slots[(a.swap i (a.size - 1)).size - 1]? =
      some a.slots[i] := by
    rw [hs.size_eq, getElem?_slots_swap a hi hlt, Equiv.swap_apply_right]
    exact Array.getElem?_eq_getElem hi
  have hd := hs.linked.dropLast (by rw [hs.size_eq]; omega) hlast
  rw [Agenda.checkEraseAt, demand_of (by simpa using hi), h.checkSwap hi hlt]
  change (if _ then _ else _) = _
  split
  · next hib => exact hd.checkResift hib
  · rfl

theorem Linked.checkSchedule {a : Agenda ι α} (h : a.Linked) {id : ι}
    (hid : (a.content? id).isSome) : a.checkSchedule id = .ok () := by
  obtain ⟨x, hx, hp⟩ := lookUp_eq_ok hid
  rw [Agenda.checkSchedule, hx]
  change (match x.position with | some i => a.checkResift i | none => a.checkPush id) = _
  rw [← hp]
  split
  · next i hi => exact h.checkResift (h.lt_size hi)
  · next hoff => exact h.checkPush hid hoff

theorem Linked.checkUnschedule [DecidableEq ι] {a : Agenda ι α} (h : a.Linked) {id : ι}
    (hid : (a.content? id).isSome) : a.checkUnschedule id = .ok () := by
  obtain ⟨x, hx, hp⟩ := lookUp_eq_ok hid
  rw [Agenda.checkUnschedule, hx]
  change (match x.position with | some i => _ | none => _) = _
  rw [← hp]
  split
  · next i hi =>
    rw [h.checkEraseAt (h.lt_size hi)]
    exact demand_of (by simpa using (h i id).2 hi) _
  · rfl

end ExpiringMap.Agenda
