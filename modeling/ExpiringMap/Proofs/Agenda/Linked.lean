import ExpiringMap.Agenda.Basic
import Mathlib.Data.List.Nodup
import Mathlib.Logic.Equiv.Basic

/-!
An agenda keeps each id on it in two places: in a slot, and as the position of the item. The two
agree while no operation is under way, and a swap of two slots keeps them in step. What an item
holds apart from its position is its content, and no rearrangement touches it.
-/

namespace ExpiringMap.Agenda

open Std (ExtTreeMap TransOrd LawfulEqOrd)

variable {ι α : Type} [Ord ι] [TransOrd ι]

/-- Payload and deadline of an id, without its position. -/
def content? (a : Agenda ι α) (id : ι) : Option (α × Deadline) :=
  a.items[id]?.map fun x => (x.payload, x.deadline)

/-- The id in a slot is the one that records the slot, and the other way round. -/
def Linked (a : Agenda ι α) : Prop := ∀ i id, a.slots[i]? = some id ↔ a.positionOf? id = some i

theorem isSome_content? (a : Agenda ι α) (id : ι) :
    (a.content? id).isSome = a.items[id]?.isSome := by
  simp [content?]

theorem root?_eq_some_iff {a : Agenda ι α} {id : ι} {x : Item α} :
    a.root? = some (id, x) ↔ a.slots[0]? = some id ∧ a.items[id]? = some x := by
  simp only [root?, Option.bind_eq_some_iff, Option.map_eq_some_iff, Prod.mk.injEq]
  constructor
  · rintro ⟨_, hid, _, hx, rfl, rfl⟩
    exact ⟨hid, hx⟩
  · rintro ⟨hid, hx⟩
    exact ⟨id, hid, x, hx, rfl, rfl⟩

theorem content?_of_root? {a : Agenda ι α} {id : ι} {x : Item α} (h : a.root? = some (id, x)) :
    a.content? id = some (x.payload, x.deadline) := by
  simp [content?, (root?_eq_some_iff.1 h).2]

theorem isSome_content?_of_positionOf? {a : Agenda ι α} {id : ι} {i : Nat}
    (h : a.positionOf? id = some i) : (a.content? id).isSome := by
  obtain ⟨x, hx, -⟩ := Option.bind_eq_some_iff.1 h
  simp [content?, hx]

theorem Linked.isSome_content? {a : Agenda ι α} (h : a.Linked) {i : Nat} {id : ι}
    (hi : a.slots[i]? = some id) : (a.content? id).isSome :=
  isSome_content?_of_positionOf? ((h i id).1 hi)

theorem Linked.lt_size {a : Agenda ι α} (h : a.Linked) {i : Nat} {id : ι}
    (hi : a.positionOf? id = some i) : i < a.size :=
  (Array.getElem?_eq_some_iff.1 ((h i id).2 hi)).1

theorem Linked.slot_inj {a : Agenda ι α} (h : a.Linked) {i j : Nat} {id : ι}
    (hi : a.slots[i]? = some id) (hj : a.slots[j]? = some id) : i = j := by
  rw [h] at hi hj
  exact Option.some.inj (hi.symm.trans hj)

theorem Linked.nodup_slots {a : Agenda ι α} (h : a.Linked) : a.slots.toList.Nodup := by
  rw [List.nodup_iff_injective_get]
  intro i j hij
  rw [List.get_eq_getElem, List.get_eq_getElem, Array.getElem_toList, Array.getElem_toList] at hij
  have hi : a.slots[i.1]? = some a.slots[i.1] := Array.getElem?_eq_getElem _
  have hj : a.slots[j.1]? = some a.slots[j.1] := Array.getElem?_eq_getElem _
  rw [← hij] at hj
  exact Fin.ext (h.slot_inj hi hj)

theorem getElem?_slots_swap (a : Agenda ι α) {i j : Nat} (hi : i < a.size) (hj : j < a.size)
    (k : Nat) : (a.swap i j).slots[k]? = a.slots[Equiv.swap i j k]? := by
  rw [size] at hi hj
  rw [slots_swap, Array.swapIfInBounds_def, dif_pos hi, dif_pos hj, Array.getElem?_swap]
  by_cases hkj : j = k
  · rw [if_pos hkj, ← hkj, Equiv.swap_apply_right, Array.getElem?_eq_getElem hi]
  · by_cases hki : i = k
    · rw [if_neg hkj, if_pos hki, ← hki, Equiv.swap_apply_left, Array.getElem?_eq_getElem hj]
    · rw [if_neg hkj, if_neg hki, Equiv.swap_apply_of_ne_of_ne (Ne.symm hki) (Ne.symm hkj)]

theorem positionOf?_setPosition_self {a : Agenda ι α} {id : ι} (p : Option Nat)
    (h : (a.content? id).isSome) : (a.setPosition id p).positionOf? id = p := by
  rw [Agenda.isSome_content?, Option.isSome_iff_exists] at h
  obtain ⟨x, hx⟩ := h
  simp [positionOf?, setPosition, hx]

theorem swap_eq_setPosition (a : Agenda ι α) {i j : Nat} {x y : ι} (hx : a.slots[i]? = some x)
    (hy : a.slots[j]? = some y) :
    a.swap i j = (({ a with slots := a.slots.swapIfInBounds i j } : Agenda ι α).setPosition y
      i).setPosition x j := by
  have hi := (Array.getElem?_eq_some_iff.1 hx).1
  have hj := (Array.getElem?_eq_some_iff.1 hy).1
  have hat (k : Nat) : (a.slots.swapIfInBounds i j)[k]? = a.slots[Equiv.swap i j k]? := by
    rw [← slots_swap, getElem?_slots_swap a hi hj]
  have hati : (a.slots.swapIfInBounds i j)[i]? = some y := by
    rw [hat, Equiv.swap_apply_left, hy]
  have hatj : (a.slots.swapIfInBounds i j)[j]? = some x := by
    rw [hat, Equiv.swap_apply_right, hx]
  simp only [swap, record, slots_setPosition, hati, hatj]

variable [LawfulEqOrd ι]

@[simp] theorem content?_setPosition (a : Agenda ι α) (id j : ι) (p : Option Nat) :
    (a.setPosition id p).content? j = a.content? j := by
  simp only [content?, setPosition, ExtTreeMap.getElem?_modify]
  split
  · next h =>
    rw [Std.compare_eq_iff_eq] at h
    simp [h, Function.comp_def]
  · rfl

@[simp] theorem content?_record (a : Agenda ι α) (i : Nat) (j : ι) :
    (a.record i).content? j = a.content? j := by
  unfold record
  split
  · exact content?_setPosition _ _ _ _
  · rfl

@[simp] theorem content?_swap (a : Agenda ι α) (i k : Nat) (j : ι) :
    (a.swap i k).content? j = a.content? j := by
  simp only [swap, content?_record]
  rfl

theorem positionOf?_setPosition_of_ne (a : Agenda ι α) {id j : ι} (p : Option Nat) (h : j ≠ id) :
    (a.setPosition id p).positionOf? j = a.positionOf? j := by
  simp [positionOf?, setPosition, ExtTreeMap.getElem?_modify, h.symm]

/-- Every position goes where the swap takes its slot. -/
theorem positionOf?_swap {a : Agenda ι α} (h : a.Linked) {i j : Nat} (hi : i < a.size)
    (hj : j < a.size) (id : ι) :
    (a.swap i j).positionOf? id = (a.positionOf? id).map (Equiv.swap i j) := by
  obtain ⟨x, hx⟩ : ∃ x, a.slots[i]? = some x := ⟨_, Array.getElem?_eq_getElem hi⟩
  obtain ⟨y, hy⟩ : ∃ y, a.slots[j]? = some y := ⟨_, Array.getElem?_eq_getElem hj⟩
  rw [swap_eq_setPosition a hx hy]
  -- Only the ids in the two slots are given new positions, `x` last.
  by_cases hidx : id = x
  · subst hidx
    rw [(h i id).1 hx, positionOf?_setPosition_self, Option.map_some, Equiv.swap_apply_left]
    rw [content?_setPosition]
    exact h.isSome_content? hx
  rw [positionOf?_setPosition_of_ne _ _ hidx]
  by_cases hidy : id = y
  · subst hidy
    rw [(h j id).1 hy, positionOf?_setPosition_self, Option.map_some, Equiv.swap_apply_right]
    exact h.isSome_content? hy
  rw [positionOf?_setPosition_of_ne _ _ hidy]
  change a.positionOf? id = _
  cases hp : a.positionOf? id with
  | none => rfl
  | some k =>
    have hk := (h k id).2 hp
    have hki : k ≠ i := by
      rintro rfl
      exact hidx (Option.some.inj (hk.symm.trans hx))
    have hkj : k ≠ j := by
      rintro rfl
      exact hidy (Option.some.inj (hk.symm.trans hy))
    rw [Option.map_some, Equiv.swap_apply_of_ne_of_ne hki hkj]

theorem Linked.swap {a : Agenda ι α} (h : a.Linked) {i j : Nat} (hi : i < a.size)
    (hj : j < a.size) : (a.swap i j).Linked := by
  intro k id
  rw [getElem?_slots_swap a hi hj, positionOf?_swap h hi hj, h, Option.map_eq_some_iff]
  constructor
  · intro hk
    exact ⟨_, hk, Equiv.swap_apply_self i j k⟩
  · rintro ⟨l, hl, rfl⟩
    rwa [Equiv.swap_apply_self]

end ExpiringMap.Agenda
