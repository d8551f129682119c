import ExpiringMap.Proofs.Agenda.History

/-!
An agenda as a priority queue that lets go of any id. What is pending is kept by a ledger that goes
by commands and replies alone, and popping until nothing is left lists what the ledger holds,
earliest first, wherever the slots were before.
-/

namespace ExpiringMap.Agenda

open Std (ExtTreeMap TransOrd LawfulEqOrd)

variable {ι α : Type} [Ord ι] [TransOrd ι]

/-- The ids on the agenda, with their deadlines. -/
def pending (a : Agenda ι α) : ExtTreeMap ι Deadline :=
  a.items.filterMap fun _ x => x.position.map fun _ => x.deadline

/-- What is pending after a command that got the given reply. -/
def entered (p : ExtTreeMap ι Deadline) : Command ι → Reply ι → ExtTreeMap ι Deadline
  | .push id d, .done | .reschedule id d, .done => p.insert id d
  | .pop, .id (some id) | .eraseAt _, .id (some id) | .erase _, .id (some id) => p.erase id
  | .clear, _ => ∅
  | _, _ => p

/-- What is pending after a sequence of commands to `a`, of which `p` was pending. -/
def ledger (a : Agenda ι Unit) (p : ExtTreeMap ι Deadline) : List (Command ι) →
    ExtTreeMap ι Deadline
  | [] => p
  | c :: cs => (a.apply c).2.ledger (entered p c (a.apply c).1) cs

/-- The ids that pops answer with until nothing is left. -/
def popAll (a : Agenda ι Unit) : List ι :=
  match _h : a.apply .pop with
  | (.id (some id), b) => id :: b.popAll
  | _ => []
termination_by a.size
decreasing_by
  obtain ⟨hid, rfl⟩ := Prod.mk.inj _h
  have hlt : 0 < a.size := (Array.getElem?_eq_some_iff.1 (Reply.id.inj hid)).1
  rw [size_eraseAt hlt]
  omega

/-- The ids of a ledger, each once, the earlier ones first. -/
structure Lists (p : ExtTreeMap ι Deadline) (ids : List ι) : Prop where
  nodup : ids.Nodup
  mem_iff : ∀ id, id ∈ ids ↔ id ∈ p
  ascending : ids.Pairwise fun i j => ∀ d e, p[i]? = some d → p[j]? = some e → d ≤ e

/-- The operations of a priority queue. Each of them is about one id, and leaves the deadline of
every id, but for the one that is moved. -/
structure Queues (a : Agenda ι Unit) : Prop where
  push : ∀ id, (a.content? id).isSome → a.isScheduled id = false →
    Touches a (a.push id) id (a.content? id) True
  eraseAt : ∀ slot, slot < a.size → ∃ id, a.slots[slot]? = some id ∧
    (a.apply (.eraseAt slot)).1 = .id (some id) ∧
    (a.swap slot (a.size - 1)).slots.back? = some id ∧
    Touches a (a.apply (.eraseAt slot)).2 id (a.content? id) False
  pop : 0 < a.size → ∃ (id : ι) (d : Deadline), (a.apply .pop).1 = .id (some id) ∧
    a.pending[id]? = some d ∧ (∀ (j : ι) (e : Deadline), a.pending[j]? = some e → d ≤ e) ∧
    Touches a (a.apply .pop).2 id (a.content? id) False
  pop_nothing : a.size = 0 → a.apply .pop = (.id none, a)
  reschedule : ∀ id slot d, a.positionOf? id = some slot →
    a.apply (.reschedule id d) = (.done, (a.setDeadline id d).resift slot) ∧
    Touches a ((a.setDeadline id d).resift slot) id (some ((), d)) True
  resift : ∀ slot, slot < a.size → (a.resift slot).Holds a.content? (a.isScheduled ·)

theorem popAll_of_root {a : Agenda ι Unit} {id : ι} (h : a.slots[0]? = some id) :
    a.popAll = id :: (a.eraseAt 0).popAll := by
  rw [popAll]
  split
  · next hp =>
    simp only [apply, h, Prod.mk.injEq, Reply.id.injEq, Option.some.injEq] at hp
    rw [hp.1, hp.2]
  · next hp => exact (hp id _ (Prod.ext (congrArg Reply.id h) rfl)).elim

theorem popAll_of_empty {a : Agenda ι Unit} (h : a.slots[0]? = none) : a.popAll = [] := by
  rw [popAll]
  split
  · next hp => simp [apply, h] at hp
  · rfl

theorem getElem?_pending (a : Agenda ι α) (id : ι) :
    a.pending[id]? = if a.isScheduled id then (a.content? id).map (·.2) else none := by
  rw [pending, ExtTreeMap.getElem?_filterMap, isScheduled, positionOf?, content?]
  cases a.items[id]? with
  | none => rfl
  | some x => cases h : x.position <;> simp [h]

theorem mem_pending_iff {a : Agenda ι α} {id : ι} : id ∈ a.pending ↔ a.isScheduled id = true := by
  rw [ExtTreeMap.mem_iff_isSome_getElem?, getElem?_pending]
  by_cases h : a.isScheduled id = true
  · rw [if_pos h, Option.isSome_map]
    obtain ⟨i, hi⟩ := isScheduled_iff.1 h
    exact iff_of_true (isSome_content?_of_positionOf? hi) h
  · rw [if_neg h]
    exact iff_of_false Bool.false_ne_true h

theorem Consistent.root_le_pending {a : Agenda ι α} (h : a.Consistent) {r : ι} {d : Deadline}
    (hr : a.slots[0]? = some r) (hd : a.pending[r]? = some d) {id : ι} {e : Deadline}
    (he : a.pending[id]? = some e) : d ≤ e := by
  have hend {i : Nat} {j : ι} {f : Deadline} (hi : a.slots[i]? = some j)
      (hf : a.pending[j]? = some f) : a.endAt i = f := by
    rw [getElem?_pending, isScheduled_iff.2 ⟨i, (h.linked i j).1 hi⟩, if_pos rfl,
      Option.map_eq_some_iff] at hf
    obtain ⟨⟨x, g⟩, hx, rfl⟩ := hf
    exact endAt_of_content? hi hx
  obtain ⟨i, hi⟩ := isScheduled_iff.1
    (mem_pending_iff.1 (ExtTreeMap.mem_iff_isSome_getElem?.2 (by rw [he]; rfl)))
  rw [← hend hr hd, ← hend ((h.linked i id).2 hi) he]
  exact h.inOrder.root_le (h.linked.lt_size hi)

theorem Touches.trans {a b c : Agenda ι α} {id : ι} {x y : Option (α × Deadline)} {s t : Prop}
    (hab : Touches a b id x s) (hbc : Touches b c id y t) : Touches a c id y t where
  consistent := hbc.consistent
  content?_self := hbc.content?_self
  content?_of_ne j hj := (hbc.content?_of_ne j hj).trans (hab.content?_of_ne j hj)
  isScheduled_self := hbc.isScheduled_self
  isScheduled_of_ne j hj := (hbc.isScheduled_of_ne j hj).trans (hab.isScheduled_of_ne j hj)

theorem back?_swap {a : Agenda ι α} {i : Nat} {id : ι} (hi : a.slots[i]? = some id) :
    (a.swap i (a.size - 1)).slots.back? = some id := by
  have hin : i < a.size := (Array.getElem?_eq_some_iff.1 hi).1
  have hlt : a.size - 1 < a.size := by omega
  have hsize : (a.swap i (a.size - 1)).slots.size = a.size := by simp [size]
  rw [Array.back?_eq_getElem?, hsize, getElem?_slots_swap a hin hlt, Equiv.swap_apply_right, hi]

variable [LawfulEqOrd ι]

theorem pending_congr {a b : Agenda ι α} (hs : ∀ id, b.isScheduled id = a.isScheduled id)
    (hc : ∀ id, a.isScheduled id = true → b.content? id = a.content? id) :
    b.pending = a.pending := by
  apply ExtTreeMap.ext_getElem?
  intro id
  rw [getElem?_pending, getElem?_pending, hs]
  split
  · next hid => rw [hc id hid]
  · rfl

namespace Touches

variable {a b : Agenda ι α} {id : ι}

theorem pending_of_on {v : α} {d : Deadline} (h : Touches a b id (some (v, d)) True) :
    b.pending = a.pending.insert id d := by
  apply ExtTreeMap.ext_getElem?
  intro j
  by_cases hj : j = id
  · rw [hj, ExtTreeMap.getElem?_insert_self, getElem?_pending, h.isScheduled_self.2 trivial,
      h.content?_self]
    rfl
  · rw [ExtTreeMap.getElem?_insert, if_neg (mt Std.compare_eq_iff_eq.1 (Ne.symm hj)),
      getElem?_pending, h.isScheduled_of_ne j hj, h.content?_of_ne j hj, getElem?_pending]

theorem pending_of_off {x : Option (α × Deadline)} (h : Touches a b id x False) :
    b.pending = a.pending.erase id := by
  apply ExtTreeMap.ext_getElem?
  intro j
  by_cases hj : j = id
  · rw [hj, ExtTreeMap.getElem?_erase_self, getElem?_pending, if_neg h.isScheduled_self.1]
  · rw [ExtTreeMap.getElem?_erase, if_neg (mt Std.compare_eq_iff_eq.1 (Ne.symm hj)),
      getElem?_pending, h.isScheduled_of_ne j hj, h.content?_of_ne j hj, getElem?_pending]

end Touches

namespace Consistent

section

variable {a : Agenda ι α} (h : a.Consistent)

include h

theorem push_touches {id : ι} (hid : (a.content? id).isSome) (hoff : a.positionOf? id = none) :
    Touches a (a.push id) id (a.content? id) True := by
  have hp := h.push hid hoff
  refine ⟨hp.consistent, hp.content?_eq id, fun j _ => hp.content?_eq j, ?_, fun j hj => ?_⟩
  · rw [hp.isScheduled_iff]
    exact iff_of_true (.inl rfl) trivial
  · rw [Bool.eq_iff_iff, hp.isScheduled_iff]
    exact or_iff_right hj

theorem eraseAt_touches {i : Nat} {id : ι} (hi : a.slots[i]? = some id) :
    Touches a (a.eraseAt i) id (a.content? id) False := by
  have he := h.eraseAt ((h.linked i id).1 hi)
  refine ⟨he.consistent, he.content?_eq id, fun j _ => he.content?_eq j, ?_, fun j hj => ?_⟩
  · rw [he.isScheduled_iff]
    exact iff_of_false (fun hne => hne.1 rfl) not_false
  · rw [Bool.eq_iff_iff, he.isScheduled_iff]
    exact and_iff_right hj

theorem insert_off_touches {id : ι} {x : Item α} (hoff : a.positionOf? id = none)
    (hx : x.position = none) :
    Touches a (a.insert id x) id (some (x.payload, x.deadline)) False := by
  obtain ⟨hc, hp⟩ := h.insert hoff hx
  refine ⟨hc, content?_insert_self a id x, fun j hj => content?_insert_of_ne a x hj, ?_,
    fun j _ => isScheduled_congr (hp j)⟩
  simp [isScheduled, hp, hoff]

theorem resift_holds {i : Nat} (hi : i < a.size) :
    (a.resift i).Holds a.content? (a.isScheduled ·) :=
  (h.linked.rearranged_resift hi).holds
    (h.linked.inOrder_resift hi (h.inOrder.relabel hi fun _ _ _ => rfl))

end

section

variable {a : Agenda ι Unit} (h : a.Consistent)

include h

theorem resift_setDeadline_touches {id : ι} {i : Nat} (hi : a.positionOf? id = some i)
    (d : Deadline) : Touches a ((a.setDeadline id d).resift i) id (some ((), d)) True := by
  have hid := isSome_content?_of_positionOf? hi
  have ht := h.modify_schedule_touches id (f := fun x => { x with deadline := d })
    (g := fun e => (e.1, d)) (fun _ => rfl) (fun _ => rfl) hid
  obtain ⟨⟨⟨⟩, e⟩, hx⟩ := Option.isSome_iff_exists.1 hid
  have hp := positionOf?_modify a id (f := fun x => { x with deadline := d }) fun _ => rfl
  rw [schedule, hp, hi, hx] at ht
  exact ht

theorem queues : a.Queues where
  push id hid hoff := h.push_touches hid (isScheduled_eq_false_iff.1 hoff)
  eraseAt slot hlt := by
    have hs : a.slots[slot]? = some a.slots[slot] := Array.getElem?_eq_getElem hlt
    have ha : a.apply (.eraseAt slot) = (.id (some a.slots[slot]), a.eraseAt slot) := by
      simp only [Agenda.apply, hs]
      exact if_neg (Nat.ne_zero_of_lt hlt)
    rw [ha]
    exact ⟨_, hs, rfl, back?_swap hs, h.eraseAt_touches hs⟩
  pop hpos := by
    have hs : a.slots[0]? = some a.slots[0] := Array.getElem?_eq_getElem hpos
    have hm : a.slots[0] ∈ a.pending :=
      mem_pending_iff.2 (isScheduled_iff.2 ⟨0, (h.linked 0 _).1 hs⟩)
    obtain ⟨d, hd⟩ := Option.isSome_iff_exists.1 (ExtTreeMap.mem_iff_isSome_getElem?.1 hm)
    exact ⟨_, d, congrArg Reply.id hs, hd, fun j e => h.root_le_pending hs hd,
      h.eraseAt_touches hs⟩
  pop_nothing hz := by
    have hs : a.slots[0]? = none := Array.getElem?_eq_none hz.le
    simp [Agenda.apply, hs, Agenda.eraseAt, hz]
  reschedule id slot d hi := by
    refine ⟨?_, h.resift_setDeadline_touches hi d⟩
    simp [Agenda.apply, hi]
  resift slot := h.resift_holds

/-- The ledger tells what is pending. -/
theorem pending_apply (c : Command ι) :
    (a.apply c).2.pending = entered a.pending c (a.apply c).1 := by
  have hgone {i : Nat} (hi : a.slots[i]? = none) : a.eraseAt i = a :=
    if_neg (Array.getElem?_eq_none_iff.1 hi).not_gt
  cases c with
  | push id d =>
    simp only [Agenda.apply]
    split
    · rfl
    · next hs =>
      -- The item is put down off the agenda first, and only then is its id pushed.
      have hoff := isScheduled_eq_false_iff.1 (Bool.eq_false_iff.2 hs)
      have hi := h.insert_off_touches (x := { payload := (), deadline := d }) hoff rfl
      have hp := hi.consistent.push_touches (by rw [hi.content?_self]; rfl)
        (isScheduled_eq_false_iff.1 (Bool.eq_false_iff.2 hi.isScheduled_self.1))
      rw [hi.content?_self] at hp
      exact (hi.trans hp).pending_of_on
  | pop =>
    simp only [Agenda.apply]
    cases hs : a.slots[0]? with
    | none => rw [hgone hs]; rfl
    | some id => exact (h.eraseAt_touches hs).pending_of_off
  | eraseAt slot =>
    simp only [Agenda.apply]
    split
    · rfl
    · split
      · next hs => exact (h.eraseAt_touches hs).pending_of_off
      · rfl
  | erase id =>
    simp only [Agenda.apply]
    split
    · next i hi =>
      have hs := (h.linked i id).2 hi
      rw [hs]
      exact (h.eraseAt_touches hs).pending_of_off
    · rfl
  | reschedule id d =>
    simp only [Agenda.apply]
    split
    · next hi => exact (h.resift_setDeadline_touches hi d).pending_of_on
    · next hoff =>
      have hp := positionOf?_modify a id (f := fun x => { x with deadline := d }) fun _ => rfl
      refine pending_congr (fun j => isScheduled_congr (hp j)) fun j hj => ?_
      apply content?_modify_of_ne
      rintro rfl
      rw [isScheduled_eq_false_iff.2 hoff] at hj
      cases hj
  | resift slot =>
    simp only [Agenda.apply]
    split
    · next hlt =>
      have hr := h.linked.rearranged_resift hlt
      exact pending_congr hr.isScheduled_eq fun id _ => hr.content?_eq id
    · rfl
  | root => rfl
  | clear =>
    apply ExtTreeMap.ext_getElem?
    intro j
    simp [getElem?_pending, Agenda.apply, isScheduled, positionOf?, entered]

theorem pending_foldl_apply (cs : List (Command ι)) :
    (cs.foldl (fun a c => (a.apply c).2) a).pending = a.ledger a.pending cs := by
  induction cs generalizing a with
  | nil => rfl
  | cons c cs ih => rw [List.foldl_cons, ih (h.apply c), ledger, h.pending_apply]

theorem lists_popAll : Lists a.pending a.popAll := by
  -- By the number of slots: what the first pop leaves is consistent again, and one slot shorter.
  induction hn : a.size generalizing a with
  | zero =>
    have hs : a.slots[0]? = none := Array.getElem?_eq_none hn.le
    rw [popAll_of_empty hs]
    refine ⟨.nil, fun id => ?_, .nil⟩
    rw [mem_pending_iff, isScheduled_iff]
    refine iff_of_false List.not_mem_nil fun ⟨i, hi⟩ => ?_
    exact absurd (h.linked.lt_size hi) (hn ▸ Nat.not_lt_zero i)
  | succ n ih =>
    have hpos : 0 < a.size := hn ▸ n.succ_pos
    obtain ⟨r, hr⟩ : ∃ r, a.slots[0]? = some r := ⟨_, Array.getElem?_eq_getElem hpos⟩
    have ht := h.eraseAt_touches hr
    obtain ⟨hnodup, hmem, hasc⟩ := ih ht.consistent (by rw [size_eraseAt hpos, hn]; rfl)
    rw [ht.pending_of_off] at hmem hasc
    have hleft {id : ι} (hid : id ∈ (a.eraseAt 0).popAll) : r ≠ id ∧ id ∈ a.pending := by
      have he := (hmem id).1 hid
      rw [ExtTreeMap.mem_erase] at he
      exact ⟨fun hrid => he.1 (Std.compare_eq_iff_eq.2 hrid), he.2⟩
    rw [popAll_of_root hr]
    refine ⟨List.nodup_cons.2 ⟨fun hm => (hleft hm).1 rfl, hnodup⟩, fun id => ?_,
      List.pairwise_cons.2 ⟨fun id _ d e hd he => h.root_le_pending hr hd he, ?_⟩⟩
    · rw [List.mem_cons, hmem, ExtTreeMap.mem_erase]
      by_cases hid : id = r
      · rw [hid]
        refine iff_of_true (.inl rfl) ?_
        exact mem_pending_iff.2 (isScheduled_iff.2 ⟨0, (h.linked 0 r).1 hr⟩)
      · simp [hid, Ne.symm hid]
    · apply hasc.imp_of_mem
      intro i j hi hj hle d e hd he
      apply hle d e
      · simpa [ExtTreeMap.getElem?_erase, (hleft hi).1] using hd
      · simpa [ExtTreeMap.getElem?_erase, (hleft hj).1] using he

end

end Consistent

/-- A consistent agenda is a priority queue that lets go of any id: each operation is about the one
id that it names or answers with, and whatever commands come, popping until nothing is left lists
what has come and not gone, each id once, in the order of the deadlines that they have by then. -/
theorem queues_by_deadline {a : Agenda ι Unit} (h : a.Consistent) :
    a.Queues ∧ ∀ cs : List (Command ι),
      Lists (a.ledger a.pending cs) (cs.foldl (fun a c => (a.apply c).2) a).popAll := by
  refine ⟨h.queues, fun cs => ?_⟩
  rw [← h.pending_foldl_apply cs]
  exact (h.foldl_apply cs).lists_popAll

/-- Five ids, one of them taken from the middle and one moved to the end. -/
def shuffled : List (Command Nat) :=
  [.push 1 (.due 50), .push 2 (.due 40), .push 3 (.due 30), .push 4 (.due 20), .push 5 (.due 10),
    .eraseAt 2, .reschedule 5 .never]

theorem queues_by_deadline_shuffled :
    (after shuffled).slots = #[4, 1, 3, 5] ∧
      Lists ((after shuffled).ledger (after shuffled).pending [.pop, .erase 5])
        ([.pop, .erase 5].foldl (fun a c => (a.apply c).2) (after shuffled)).popAll :=
  ⟨by decide +kernel, (queues_by_deadline (consistent_after shuffled)).2 _⟩

example : (after shuffled).popAll = [4, 3, 1, 5] := by cbv

end ExpiringMap.Agenda
