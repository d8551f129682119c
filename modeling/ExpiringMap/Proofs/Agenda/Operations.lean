import ExpiringMap.Proofs.Agenda.Sift
import Mathlib.Tactic.Set

namespace ExpiringMap.Agenda

open Std (ExtTreeMap TransOrd LawfulEqOrd)

variable {ι α : Type} [Ord ι] [TransOrd ι]

structure Consistent (a : Agenda ι α) : Prop where
  linked : a.Linked
  inOrder : InOrder a.endAt a.size

/-- A consistent agenda with the given content and the given ids on it. -/
structure Holds (a : Agenda ι α) (content : ι → Option (α × Deadline)) (scheduled : ι → Prop) :
    Prop where
  consistent : a.Consistent
  content?_eq : ∀ id, a.content? id = content id
  isScheduled_iff : ∀ id, a.isScheduled id = true ↔ scheduled id

theorem Consistent.holds {a : Agenda ι α} (h : a.Consistent) :
    a.Holds a.content? (a.isScheduled ·) := ⟨h, fun _ => rfl, fun _ => Iff.rfl⟩

theorem Rearranged.holds {a b : Agenda ι α} (hr : Rearranged a b) (ho : InOrder b.endAt b.size) :
    b.Holds a.content? (a.isScheduled ·) where
  consistent := ⟨hr.linked, ho⟩
  content?_eq := hr.content?_eq
  isScheduled_iff id := by rw [hr.isScheduled_eq]

theorem isScheduled_iff {a : Agenda ι α} {id : ι} :
    a.isScheduled id = true ↔ ∃ i, a.positionOf? id = some i := Option.isSome_iff_exists

theorem isScheduled_eq_false_iff {a : Agenda ι α} {id : ι} :
    a.isScheduled id = false ↔ a.positionOf? id = none := by
  simp [isScheduled]

theorem isScheduled_congr {a b : Agenda ι α} {id : ι} (h : b.positionOf? id = a.positionOf? id) :
    b.isScheduled id = a.isScheduled id := by
  rw [isScheduled, h, isScheduled]

theorem content?_modify_self (a : Agenda ι α) (id : ι) {f : Item α → Item α}
    {g : α × Deadline → α × Deadline}
    (hg : ∀ x, ((f x).payload, (f x).deadline) = g (x.payload, x.deadline)) :
    (a.modify id f).content? id = (a.content? id).map g := by
  simp [content?, modify, Function.comp_def, hg]

theorem positionOf?_eq_none_of_content?_eq_none {a : Agenda ι α} {id : ι}
    (h : a.content? id = none) : a.positionOf? id = none := by
  simp only [content?, Option.map_eq_none_iff] at h
  simp [positionOf?, h]

theorem positionOf?_of_root? {a : Agenda ι α} (h : a.Linked) {id : ι} {x : Item α}
    (hr : a.root? = some (id, x)) : a.positionOf? id = some 0 :=
  (h 0 id).1 (root?_eq_some_iff.1 hr).1

theorem consistent_empty : ({} : Agenda ι α).Consistent where
  linked i id := by simp [positionOf?]
  inOrder j _ hj := by simp [size] at hj

/-- What is off the agenda may come and go. -/
theorem Consistent.of_off {a b : Agenda ι α} (h : a.Consistent) {id : ι} (hs : b.slots = a.slots)
    (hc : ∀ j, j ≠ id → b.content? j = a.content? j)
    (hp : ∀ j, b.positionOf? j = a.positionOf? j) (hoff : a.positionOf? id = none) :
    b.Consistent where
  linked i j := by rw [hs, hp, h.linked]
  inOrder := by
    rw [size, hs]
    apply h.inOrder.mono le_rfl
    intro i _
    rw [endAt_eq, endAt_eq, hs]
    cases hi : a.slots[i]? with
    | none => rfl
    | some j =>
      rw [Option.bind_some, Option.bind_some, hc]
      rintro rfl
      rw [h.linked, hoff] at hi
      cases hi

def append (a : Agenda ι α) (id : ι) : Agenda ι α :=
  { a with slots := a.slots.push id }.setPosition id a.size

theorem push_eq (a : Agenda ι α) (id : ι) : a.push id = (a.append id).siftUp a.size := rfl

@[simp] theorem size_append (a : Agenda ι α) (id : ι) : (a.append id).size = a.size + 1 := by
  simp [append, size]

theorem positionOf?_append_self {a : Agenda ι α} {id : ι} (hid : (a.content? id).isSome) :
    (a.append id).positionOf? id = some a.size := by
  unfold append
  exact positionOf?_setPosition_self _ hid

theorem getElem?_slots_append (a : Agenda ι α) (id : ι) (i : Nat) :
    (a.append id).slots[i]? = if i = a.size then some id else a.slots[i]? := by
  rw [append, slots_setPosition, Array.getElem?_push]
  rfl

theorem dropLast_eq {a : Agenda ι α} {id : ι} (h : a.slots[a.size - 1]? = some id) :
    a.dropLast = ({ a with slots := a.slots.pop } : Agenda ι α).setPosition id none := by
  have hb : a.slots.back? = some id := by rw [Array.back?_eq_getElem?, ← h, size]
  simp [dropLast, hb]

theorem getElem?_slots_dropLast (a : Agenda ι α) (i : Nat) :
    a.dropLast.slots[i]? = if i < a.size - 1 then a.slots[i]? else none := by
  have hs : a.dropLast.slots = a.slots.pop := by
    unfold dropLast
    split
    · rfl
    · next hb => simp_all [Array.back?_eq_none_iff]
  rw [hs, Array.getElem?_pop]
  rfl

theorem positionOf?_dropLast_self {a : Agenda ι α} {id : ι} (h : a.slots[a.size - 1]? = some id)
    (hid : (a.content? id).isSome) : a.dropLast.positionOf? id = none := by
  rw [dropLast_eq h]
  exact positionOf?_setPosition_self _ hid

/-- A removal before it resifts: the last slot has filled the gap at slot `i`. -/
def fillGap (a : Agenda ι α) (i : Nat) : Agenda ι α := (a.swap i (a.size - 1)).dropLast

@[simp] theorem size_fillGap (a : Agenda ι α) (i : Nat) : (a.fillGap i).size = a.size - 1 := by
  rw [fillGap, size_dropLast]
  simp [size]

theorem eraseAt_eq {a : Agenda ι α} {i : Nat} (hi : i < a.size) :
    a.eraseAt i = if i < (a.fillGap i).size then (a.fillGap i).resift i else a.fillGap i :=
  if_pos hi

variable [LawfulEqOrd ι]

theorem positionOf?_append_of_ne (a : Agenda ι α) {id j : ι} (hj : j ≠ id) :
    (a.append id).positionOf? j = a.positionOf? j := by
  unfold append
  exact positionOf?_setPosition_of_ne _ _ hj

@[simp] theorem content?_append (a : Agenda ι α) (id j : ι) :
    (a.append id).content? j = a.content? j := by
  unfold append
  exact content?_setPosition _ _ _ _

theorem Linked.append {a : Agenda ι α} (h : a.Linked) {id : ι} (hid : (a.content? id).isSome)
    (hoff : a.positionOf? id = none) : (a.append id).Linked := by
  intro i j
  rw [getElem?_slots_append]
  by_cases hj : j = id
  · subst hj
    rw [positionOf?_append_self hid, Option.some.injEq]
    split
    · next hi => simp [hi]
    · next hi =>
      rw [h, hoff]
      simp [eq_comm, hi]
  · rw [positionOf?_append_of_ne a hj, ← h]
    split
    · next hi =>
      subst hi
      rw [Option.some.injEq]
      constructor
      · intro he
        exact absurd he.symm hj
      · intro hs
        exact absurd (Array.getElem?_eq_some_iff.1 hs).1 (lt_irrefl _)
    · rfl

theorem endAt_append_of_lt (a : Agenda ι α) (id : ι) {i : Nat} (hi : i < a.size) :
    (a.append id).endAt i = a.endAt i := by
  have hc : (a.append id).content? = a.content? := funext fun j => content?_append a id j
  rw [endAt_eq, endAt_eq, getElem?_slots_append, if_neg hi.ne, hc]

theorem Consistent.push {a : Agenda ι α} (h : a.Consistent) {id : ι}
    (hid : (a.content? id).isSome) (hoff : a.positionOf? id = none) :
    (a.push id).Holds a.content? fun j => j = id ∨ a.isScheduled j = true := by
  have hl := h.linked.append hid hoff
  have hlast : a.size < (a.append id).size := by simp
  have hr := hl.rearranged_siftUp hlast
  rw [push_eq]
  refine ⟨⟨hr.linked, hl.inOrder_siftUp hlast ⟨?_, ?_⟩ ?_⟩, ?_, ?_⟩
  · intro j hj hjn hjl _
    rw [size_append] at hjn
    have hp := parent_lt hj
    rw [endAt_append_of_lt a id (i := j) (by omega), endAt_append_of_lt a id (by omega)]
    exact h.inOrder j hj (by omega)
  · intro _ j hj hjn hpj
    rw [size_append] at hjn
    have hp := parent_lt hj
    omega
  · intro j hj hjn hpj
    rw [size_append] at hjn
    have hp := parent_lt hj
    omega
  · intro j
    rw [hr.content?_eq, content?_append]
  · intro j
    rw [hr.isScheduled_eq]
    by_cases hj : j = id
    · subst hj
      simp [isScheduled, positionOf?_append_self hid]
    · simp [isScheduled, positionOf?_append_of_ne a hj, hj]

theorem positionOf?_dropLast_of_ne {a : Agenda ι α} {id j : ι}
    (h : a.slots[a.size - 1]? = some id) (hj : j ≠ id) :
    a.dropLast.positionOf? j = a.positionOf? j := by
  rw [dropLast_eq h, positionOf?_setPosition_of_ne _ _ hj]
  rfl

@[simp] theorem content?_dropLast (a : Agenda ι α) (j : ι) :
    a.dropLast.content? j = a.content? j := by
  unfold dropLast
  split
  · rw [content?_setPosition]
    rfl
  · rfl

theorem Linked.dropLast {a : Agenda ι α} (h : a.Linked) (hpos : 0 < a.size) {id : ι}
    (hlast : a.slots[a.size - 1]? = some id) : a.dropLast.Linked := by
  intro i j
  rw [getElem?_slots_dropLast]
  by_cases hj : j = id
  · subst hj
    rw [positionOf?_dropLast_self hlast (h.isSome_content? hlast)]
    split
    · next hi =>
      constructor
      · intro hs
        exact absurd (h.slot_inj hs hlast) hi.ne
      · intro hs
        cases hs
    · simp
  · rw [positionOf?_dropLast_of_ne hlast hj, ← h]
    split
    · rfl
    · next hi =>
      constructor
      · intro hs
        cases hs
      · intro hs
        have hil : i = a.size - 1 := by
          have := (Array.getElem?_eq_some_iff.1 hs).1
          rw [← size] at this
          omega
        rw [hil, hlast] at hs
        exact absurd (Option.some.inj hs).symm hj

theorem endAt_dropLast_of_lt (a : Agenda ι α) {i : Nat} (hi : i < a.size - 1) :
    a.dropLast.endAt i = a.endAt i := by
  have hc : a.dropLast.content? = a.content? := funext fun j => content?_dropLast a j
  rw [endAt_eq, endAt_eq, getElem?_slots_dropLast, if_pos hi, hc]

/-- `b` is without `id`, which stood in slot `i` of `a`, and has the last slot there instead. -/
structure FillsGap (a b : Agenda ι α) (i : Nat) (id : ι) : Prop where
  linked : b.Linked
  content?_eq : ∀ j, b.content? j = a.content? j
  isScheduled_iff : ∀ j, b.isScheduled j = true ↔ j ≠ id ∧ a.isScheduled j = true
  endAt_eq : ∀ j, j < b.size → j ≠ i → b.endAt j = a.endAt j

theorem Linked.fillGap {a : Agenda ι α} (h : a.Linked) {i : Nat} {id : ι}
    (hi : a.slots[i]? = some id) : FillsGap a (a.fillGap i) i id := by
  have hin : i < a.size := (Array.getElem?_eq_some_iff.1 hi).1
  have hlt : a.size - 1 < a.size := by omega
  have hs := h.rearranged_swap hin hlt
  have hlast : (a.swap i (a.size - 1)).slots[(a.swap i (a.size - 1)).size - 1]? = some id := by
    rw [hs.size_eq, getElem?_slots_swap a hin hlt, Equiv.swap_apply_right]
    exact hi
  refine ⟨hs.linked.dropLast (by rw [hs.size_eq]; omega) hlast, ?_, ?_, ?_⟩
  · intro j
    rw [Agenda.fillGap, content?_dropLast, hs.content?_eq]
  · intro j
    rw [← hs.isScheduled_eq j]
    by_cases hj : j = id
    · subst hj
      have hoff := positionOf?_dropLast_self hlast (hs.linked.isSome_content? hlast)
      simp [isScheduled, Agenda.fillGap, hoff]
    · simp [isScheduled, Agenda.fillGap, positionOf?_dropLast_of_ne hlast hj, hj]
  · intro j hj hji
    rw [size_fillGap] at hj
    rw [Agenda.fillGap, endAt_dropLast_of_lt _ (by rwa [hs.size_eq]), endAt_swap a hin hlt,
      Function.comp_apply, Equiv.swap_apply_of_ne_of_ne hji hj.ne]

theorem Consistent.eraseAt {a : Agenda ι α} (h : a.Consistent) {i : Nat} {id : ι}
    (hi : a.positionOf? id = some i) :
    (a.eraseAt i).Holds a.content? fun j => j ≠ id ∧ a.isScheduled j = true := by
  have hg := h.linked.fillGap ((h.linked i id).2 hi)
  have hsize := size_fillGap a i
  rw [eraseAt_eq (h.linked.lt_size hi)]
  split
  · next hib =>
    have hr := hg.linked.rearranged_resift hib
    have ho : InOrder a.endAt (a.fillGap i).size := h.inOrder.mono (by omega) fun _ _ => rfl
    refine ⟨⟨hr.linked, hg.linked.inOrder_resift hib (ho.relabel hib hg.endAt_eq)⟩, ?_, ?_⟩
    · intro j
      rw [hr.content?_eq, hg.content?_eq]
    · intro j
      rw [hr.isScheduled_eq, hg.isScheduled_iff]
  · next hib =>
    have ho := h.inOrder.mono (by omega) fun j hj => hg.endAt_eq j hj (by omega)
    exact ⟨⟨hg.linked, ho⟩, hg.content?_eq, hg.isScheduled_iff⟩

theorem Consistent.unschedule {a : Agenda ι α} (h : a.Consistent) (id : ι) :
    (a.unschedule id).Holds a.content? fun j => j ≠ id ∧ a.isScheduled j = true := by
  unfold Agenda.unschedule
  split
  · next i hi => exact h.eraseAt hi
  · next hoff =>
    refine ⟨h, fun _ => rfl, fun j => ⟨fun hj => ⟨?_, hj⟩, And.right⟩⟩
    rintro rfl
    rw [isScheduled, hoff] at hj
    cases hj

/-- Consistent, but `id` may stand in the wrong place if it is on the agenda. -/
structure ConsistentBut (a : Agenda ι α) (id : ι) : Prop where
  linked : a.Linked
  inOrderBut : ∀ i, a.positionOf? id = some i → InOrderBut a.endAt a.size i
  inOrder : a.positionOf? id = none → InOrder a.endAt a.size

theorem ConsistentBut.schedule {a : Agenda ι α} {id : ι} (h : a.ConsistentBut id)
    (hid : (a.content? id).isSome) :
    (a.schedule id).Holds a.content? fun j => j = id ∨ a.isScheduled j = true := by
  unfold Agenda.schedule
  split
  · next i hi =>
    have hin := h.linked.lt_size hi
    have hr := h.linked.rearranged_resift hin
    refine ⟨⟨hr.linked, h.linked.inOrder_resift hin (h.inOrderBut i hi)⟩, hr.content?_eq, ?_⟩
    intro j
    rw [hr.isScheduled_eq]
    refine ⟨.inr, fun hj => hj.elim ?_ fun hj => hj⟩
    rintro rfl
    exact isScheduled_iff.2 ⟨i, hi⟩
  · next hoff => exact Consistent.push ⟨h.linked, h.inOrder hoff⟩ hid hoff

theorem positionOf?_modify (a : Agenda ι α) (id : ι) {f : Item α → Item α}
    (hf : ∀ x, (f x).position = x.position) (j : ι) :
    (a.modify id f).positionOf? j = a.positionOf? j := by
  by_cases hj : j = id
  · subst hj
    simp [positionOf?, modify, Option.bind_map, hf]
  · simp [positionOf?, modify, ExtTreeMap.getElem?_modify, Ne.symm hj]

theorem content?_modify_of_ne (a : Agenda ι α) {id j : ι} (f : Item α → Item α) (hj : j ≠ id) :
    (a.modify id f).content? j = a.content? j := by
  simp [content?, modify, ExtTreeMap.getElem?_modify, hj.symm]

theorem endAt_modify_of_ne (a : Agenda ι α) {id : ι} (f : Item α → Item α) {i : Nat}
    (hi : a.slots[i]? ≠ some id) : (a.modify id f).endAt i = a.endAt i := by
  rw [endAt_eq, endAt_eq]
  change ((a.slots[i]?.bind _).elim _ _) = _
  cases hs : a.slots[i]? with
  | none => rfl
  | some j =>
    rw [hs] at hi
    simp [content?_modify_of_ne a f fun he => hi (congrArg some he)]

theorem Consistent.modify {a : Agenda ι α} (h : a.Consistent) (id : ι) {f : Item α → Item α}
    (hf : ∀ x, (f x).position = x.position) : (a.modify id f).ConsistentBut id where
  linked i j := by
    rw [positionOf?_modify a id hf]
    exact h.linked i j
  inOrderBut i hi := by
    rw [positionOf?_modify a id hf] at hi
    apply h.inOrder.relabel (h.linked.lt_size hi)
    intro j _ hji
    apply endAt_modify_of_ne
    intro hj
    exact hji (h.linked.slot_inj hj ((h.linked i id).2 hi))
  inOrder hoff := by
    rw [positionOf?_modify a id hf] at hoff
    apply h.inOrder.mono le_rfl
    intro j _
    apply endAt_modify_of_ne
    intro hj
    rw [h.linked, hoff] at hj
    cases hj

theorem content?_insert_self (a : Agenda ι α) (id : ι) (x : Item α) :
    (a.insert id x).content? id = some (x.payload, x.deadline) := by
  simp [content?, insert]

theorem content?_insert_of_ne (a : Agenda ι α) {id j : ι} (x : Item α) (hj : j ≠ id) :
    (a.insert id x).content? j = a.content? j := by
  simp [content?, insert, ExtTreeMap.getElem?_insert, hj.symm]

theorem content?_forget_self (a : Agenda ι α) (id : ι) : (a.forget id).content? id = none := by
  simp [content?, forget]

theorem content?_forget_of_ne (a : Agenda ι α) {id j : ι} (hj : j ≠ id) :
    (a.forget id).content? j = a.content? j := by
  simp [content?, forget, ExtTreeMap.getElem?_erase, hj.symm]

theorem Consistent.insert {a : Agenda ι α} (h : a.Consistent) {id : ι} {x : Item α}
    (hoff : a.positionOf? id = none) (hx : x.position = none) :
    (a.insert id x).Consistent ∧ ∀ j, (a.insert id x).positionOf? j = a.positionOf? j := by
  have hp (j : ι) : (a.insert id x).positionOf? j = a.positionOf? j := by
    by_cases hj : j = id
    · subst hj
      rw [hoff]
      simp [positionOf?, Agenda.insert, hx]
    · simp [positionOf?, Agenda.insert, ExtTreeMap.getElem?_insert, Ne.symm hj]
  exact ⟨h.of_off rfl (fun j hj => content?_insert_of_ne a x hj) hp hoff, hp⟩

theorem Consistent.forget {a : Agenda ι α} (h : a.Consistent) {id : ι}
    (hoff : a.positionOf? id = none) :
    (a.forget id).Consistent ∧ ∀ j, (a.forget id).positionOf? j = a.positionOf? j := by
  have hp (j : ι) : (a.forget id).positionOf? j = a.positionOf? j := by
    by_cases hj : j = id
    · subst hj
      rw [hoff]
      simp [positionOf?, Agenda.forget]
    · simp [positionOf?, Agenda.forget, ExtTreeMap.getElem?_erase, Ne.symm hj]
  exact ⟨h.of_off rfl (fun j hj => content?_forget_of_ne a hj) hp hoff, hp⟩

/-- `b` is `a` but for one id, which has the content `c` in `b` and is on it or not. -/
structure Touches (a b : Agenda ι α) (id : ι) (c : Option (α × Deadline)) (scheduled : Prop) :
    Prop where
  consistent : b.Consistent
  content?_self : b.content? id = c
  content?_of_ne : ∀ j, j ≠ id → b.content? j = a.content? j
  isScheduled_self : b.isScheduled id = true ↔ scheduled
  isScheduled_of_ne : ∀ j, j ≠ id → b.isScheduled j = a.isScheduled j

theorem Consistent.insert_touches {a : Agenda ι α} (h : a.Consistent) {id : ι} {x : Item α}
    (hid : a.content? id = none) (hx : x.position = none) :
    Touches a (a.insert id x) id (some (x.payload, x.deadline)) False := by
  have hoff := positionOf?_eq_none_of_content?_eq_none hid
  obtain ⟨hc, hp⟩ := h.insert hoff hx
  refine ⟨hc, content?_insert_self a id x, fun j hj => content?_insert_of_ne a x hj, ?_,
    fun j _ => isScheduled_congr (hp j)⟩
  simp [isScheduled, hp, hoff]

theorem Consistent.insert_schedule_touches {a : Agenda ι α} (h : a.Consistent) {id : ι}
    {x : Item α} (hid : a.content? id = none) (hx : x.position = none) :
    Touches a ((a.insert id x).schedule id) id (some (x.payload, x.deadline)) True := by
  have hi := h.insert_touches hid hx
  have hoff : (a.insert id x).positionOf? id = none :=
    isScheduled_eq_false_iff.1 (Bool.eq_false_iff.2 hi.isScheduled_self.1)
  have hp := hi.consistent.push (by rw [hi.content?_self]; rfl) hoff
  rw [schedule, hoff]
  refine ⟨hp.consistent, ?_, ?_, ?_, ?_⟩
  · rw [hp.content?_eq, hi.content?_self]
  · intro j hj
    rw [hp.content?_eq, hi.content?_of_ne j hj]
  · simp [hp.isScheduled_iff]
  · intro j hj
    rw [Bool.eq_iff_iff, hp.isScheduled_iff, ← hi.isScheduled_of_ne j hj]
    simp [hj]

theorem Consistent.modify_schedule_touches {a : Agenda ι α} (h : a.Consistent) (id : ι)
    {f : Item α → Item α} {g : α × Deadline → α × Deadline}
    (hf : ∀ x, (f x).position = x.position)
    (hg : ∀ x, ((f x).payload, (f x).deadline) = g (x.payload, x.deadline))
    (hid : (a.content? id).isSome) :
    Touches a ((a.modify id f).schedule id) id ((a.content? id).map g) True := by
  have hc : (a.modify id f).content? id = (a.content? id).map g := content?_modify_self a id hg
  have hs := (h.modify id hf).schedule (by rw [hc, Option.isSome_map]; exact hid)
  refine ⟨hs.consistent, ?_, ?_, ?_, ?_⟩
  · rw [hs.content?_eq, hc]
  · intro j hj
    rw [hs.content?_eq, content?_modify_of_ne a f hj]
  · simp [hs.isScheduled_iff]
  · intro j hj
    rw [Bool.eq_iff_iff, hs.isScheduled_iff, ← isScheduled_congr (positionOf?_modify a id hf j)]
    simp [hj]

theorem Consistent.unschedule_off {a : Agenda ι α} (h : a.Consistent) (id : ι) :
    (a.unschedule id).positionOf? id = none := by
  rw [← isScheduled_eq_false_iff, Bool.eq_false_iff, ne_eq, (h.unschedule id).isScheduled_iff]
  exact fun hid => hid.1 rfl

theorem Consistent.unschedule_modify_touches {a : Agenda ι α} (h : a.Consistent) (id : ι)
    {f : Item α → Item α} {g : α × Deadline → α × Deadline}
    (hf : ∀ x, (f x).position = x.position)
    (hg : ∀ x, ((f x).payload, (f x).deadline) = g (x.payload, x.deadline)) :
    Touches a ((a.unschedule id).modify id f) id ((a.content? id).map g) False := by
  have hu := h.unschedule id
  have hm := hu.consistent.modify id hf
  have hoff : ((a.unschedule id).modify id f).positionOf? id = none := by
    rw [positionOf?_modify _ id hf, h.unschedule_off]
  refine ⟨⟨hm.linked, hm.inOrder hoff⟩, ?_, ?_, by simp [isScheduled, hoff], ?_⟩
  · rw [content?_modify_self _ id hg, hu.content?_eq]
  · intro j hj
    rw [content?_modify_of_ne _ f hj, hu.content?_eq]
  · intro j hj
    rw [isScheduled_congr (positionOf?_modify _ id hf j), Bool.eq_iff_iff, hu.isScheduled_iff]
    simp [hj]

theorem Consistent.unschedule_forget_touches {a : Agenda ι α} (h : a.Consistent) (id : ι) :
    Touches a ((a.unschedule id).forget id) id none False := by
  have hu := h.unschedule id
  obtain ⟨hc, hp⟩ := hu.consistent.forget (h.unschedule_off id)
  refine ⟨hc, content?_forget_self _ id, ?_, by simp [isScheduled, hp, h.unschedule_off id], ?_⟩
  · intro j hj
    rw [content?_forget_of_ne _ hj, hu.content?_eq]
  · intro j hj
    rw [isScheduled_congr (hp j), Bool.eq_iff_iff, hu.isScheduled_iff]
    simp [hj]

end ExpiringMap.Agenda
