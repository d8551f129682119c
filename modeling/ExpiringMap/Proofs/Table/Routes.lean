import ExpiringMap.Proofs.Table.Balance

/-!
Ways to write that mean the same leave the same table, down to the slots of the agenda, the ids and
the counters. Each way has its own code, so what they share is that the entry of a key holds that
key, and that an entry is off the agenda only if it never ends.
-/

namespace ExpiringMap

open Std (ExtTreeMap)

namespace Agenda

variable {ι α : Type} [Ord ι] [Std.TransOrd ι] [Std.LawfulEqOrd ι]

theorem modify_congr (a : Agenda ι α) (id : ι) {f g : Item α → Item α}
    (h : ∀ x, a.items[id]? = some x → f x = g x) : a.modify id f = a.modify id g := by
  have hitems : a.items.modify id f = a.items.modify id g := by
    apply ExtTreeMap.ext_getElem?
    intro j
    rw [ExtTreeMap.getElem?_modify, ExtTreeMap.getElem?_modify]
    split
    · cases hx : a.items[id]? with
      | none => rfl
      | some x => rw [Option.map_some, Option.map_some, h x hx]
    · rfl
  rw [modify, modify, hitems]

theorem modify_payload {a : Agenda ι α} {id : ι} {x : α} {d : Deadline}
    (h : a.content? id = some (x, d)) (e : Deadline) :
    a.modify id ({ · with payload := x, deadline := e }) =
      a.modify id ({ · with deadline := e }) := by
  apply modify_congr
  intro y hy
  rw [content?, hy, Option.map_some, Option.some.injEq, Prod.mk.injEq] at h
  rw [h.1]

theorem modify_deadline {a : Agenda ι α} {id : ι} {x : α} {d : Deadline}
    (h : a.content? id = some (x, d)) : a.modify id ({ · with deadline := d }) = a := by
  have hitems : a.items.modify id ({ · with deadline := d }) = a.items := by
    apply ExtTreeMap.ext_getElem?
    intro j
    by_cases hj : id = j
    · subst hj
      rw [ExtTreeMap.getElem?_modify_self]
      obtain ⟨y, hy, he⟩ := Option.map_eq_some_iff.1 h
      rw [hy, Option.map_some, ← (Prod.mk.inj he).2]
    · rw [ExtTreeMap.getElem?_modify, if_neg (mt Std.compare_eq_iff_eq.1 hj)]
  rw [modify, hitems]

end Agenda

namespace Deadline

variable {now : Instant} {ttl : Span}

theorem ofSpan_eq_never (h : ttl = 0 ∨ Instant.horizon ≤ now + ttl) : ofSpan now ttl = never := by
  unfold ofSpan Instant.later?
  split
  · rfl
  · next hz => rw [if_neg (h.resolve_left hz).not_gt]

theorem ofSpan_eq_due (hz : ttl ≠ 0) (h : now + ttl < Instant.horizon) :
    ofSpan now ttl = due (now + ttl) := by
  rw [ofSpan, if_neg hz, Instant.later?, if_pos h]

end Deadline

namespace Table

variable {ν : Type}

/-- Ways to write at one key and one instant that come to the same. -/
structure RoutesMeet (t : Table ν) (k : Key) (now : Instant) : Prop where
  /-- No time at all, and more than the clock holds, are a life without end. -/
  endless : ∀ (v : ν) (ttl : Span), ttl = 0 ∨ Instant.horizon ≤ now + ttl →
    t.putUntil k v (.ofSpan now ttl) = (t.put k v, .behind)
  /-- Any other time ends at its instant, which has not passed. -/
  timed : ∀ (v : ν) (ttl : Span), ttl ≠ 0 → now + ttl < Instant.horizon →
    t.putUntil k v (.ofSpan now ttl) = t.putUntil k v (.due (now + ttl)) ∧
      (Deadline.due (now + ttl)).hasPassed now = false
  keep : ∀ v d, t.get? k = some (v, d) → t.keep k = (t.put k v, true)
  reschedule_never : ∀ v d, t.get? k = some (v, d) →
    t.reschedule k .never now = (t.put k v, true, .behind)
  reschedule_later : ∀ v d e, t.get? k = some (v, d) → now < e →
    t.reschedule k (.due e) now = ((t.putUntil k v (.due e)).1, true, (t.putUntil k v (.due e)).2)
  reschedule_past : ∀ v d e, t.get? k = some (v, d) → e ≤ now →
    t.reschedule k (.due e) now = ((t.erase k).1, false, .behind)
  keep_keep : (t.keep k).1.keep k = t.keep k
  absent : t.get? k = none → t.Unmoved k

namespace Consistent

variable {t : Table ν} (h : t.Consistent)

include h

theorem exists_find? {k : Key} {v : ν} {d : Deadline} (hk : t.get? k = some (v, d)) :
    ∃ id x, t.find? k = some (id, x) ∧ t.agenda.content? id = some (⟨k, v⟩, d) := by
  obtain ⟨id, hid, hc⟩ := h.get?_eq_some_iff.1 hk
  obtain ⟨x, hx, -⟩ := Option.map_eq_some_iff.1 hc
  exact ⟨id, x, find?_eq_some_iff.2 ⟨hid, hx⟩, hc⟩

theorem isScheduled_eq_false {id : Nat} {e : Entry ν}
    (hc : t.agenda.content? id = some (e, .never)) : t.agenda.isScheduled id = false :=
  Bool.eq_false_iff.2 fun hs => (h.scheduled id _ _ hc).1 hs rfl

theorem keep_eq_self {k : Key} {v : ν} (hk : t.get? k = some (v, .never)) :
    t.keep k = (t, true) := by
  obtain ⟨id, x, hf, hc⟩ := h.exists_find? hk
  simp [Table.keep, hf, h.isScheduled_eq_false hc]

theorem keep_eq_put {k : Key} {v : ν} {d : Deadline} (hk : t.get? k = some (v, d)) :
    t.keep k = (t.put k v, true) := by
  obtain ⟨id, x, hf, hc⟩ := h.exists_find? hk
  have hp : (t.pin id).agenda.content? id = some (⟨k, v⟩, d) := by
    rw [agenda_pin, (h.agenda.unschedule id).content?_eq, hc]
  simp only [Table.keep, Table.put, hf, onAgenda, Agenda.modify_payload hp]
  -- Only one of the two asks whether the entry is on the agenda.
  split
  · rfl
  · next hoff =>
    -- What is off the agenda never ends, so there is nothing to write and nothing to count.
    have hd : d = .never := by
      rw [h.scheduled id _ _ hc] at hoff
      exact not_not.1 hoff
    rw [← hd, Agenda.modify_deadline hp, pin, if_neg hoff]

theorem reschedule_eq_putUntil {k : Key} {v : ν} {d : Deadline} (hk : t.get? k = some (v, d))
    {e now : Instant} (he : now < e) :
    t.reschedule k (.due e) now =
      ((t.putUntil k v (.due e)).1, true, (t.putUntil k v (.due e)).2) := by
  obtain ⟨id, x, hf, hc⟩ := h.exists_find? hk
  have hlive : ¬ (Deadline.due e).hasPassed now = true :=
    mt (Deadline.hasPassed_due now e).1 he.not_ge
  simp only [Table.reschedule, Table.putUntil, hf, if_neg hlive, onAgenda,
    Agenda.modify_payload hc]

theorem keep_keep (k : Key) : (t.keep k).1.keep k = t.keep k := by
  cases hk : t.get? k with
  | none =>
    have hu := (unmoved_of_absent hk).keep
    rw [hu, hu]
  | some p =>
    obtain ⟨v, d⟩ := p
    have hb := h.keep k
    rw [hk] at hb
    have hkept : (t.keep k).1.get? k = some (v, .never) := by
      rw [hb.get?_eq, Function.update_self]
      rfl
    rw [hb.consistent.keep_eq_self hkept, h.keep_eq_put hk]

theorem routesMeet (k : Key) (now : Instant) : t.RoutesMeet k now where
  endless v ttl hz := by
    rw [Deadline.ofSpan_eq_never hz]
    rfl
  timed v ttl hz hlt := by
    refine ⟨by rw [Deadline.ofSpan_eq_due hz hlt], ?_⟩
    rw [← Deadline.ofSpan_eq_due hz hlt, Deadline.hasPassed_ofSpan]
  keep v d hk := h.keep_eq_put hk
  reschedule_never v d hk := by
    obtain ⟨id, x, hf, -⟩ := h.exists_find? hk
    simp only [Table.reschedule, hf, h.keep_eq_put hk]
  reschedule_later v d e hk he := h.reschedule_eq_putUntil hk he
  reschedule_past v d e hk he := by
    obtain ⟨id, x, hf, -⟩ := h.exists_find? hk
    have hpassed : (Deadline.due e).hasPassed now = true := (Deadline.hasPassed_due now e).2 he
    simp only [Table.reschedule, Table.erase, hf, if_pos hpassed]
  keep_keep := h.keep_keep k
  absent hk := unmoved_of_absent hk

end Consistent

end Table

end ExpiringMap
