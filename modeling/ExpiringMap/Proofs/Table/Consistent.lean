import ExpiringMap.Proofs.Agenda.Operations
import ExpiringMap.Table.Command
import Mathlib.Logic.Function.Basic

namespace ExpiringMap.Table

variable {ν : Type}

structure Consistent (t : Table ν) : Prop where
  agenda : t.agenda.Consistent
  /-- A key is indexed by the id of its entry, and every entry is indexed by its key. -/
  index : ∀ k id, t.index[k]? = some id ↔ ∃ v d, t.agenda.content? id = some (⟨k, v⟩, d)
  /-- What ends at an instant is on the agenda, and nothing else. -/
  scheduled : ∀ id e d, t.agenda.content? id = some (e, d) →
    (t.agenda.isScheduled id = true ↔ d ≠ .never)
  fresh : ∀ id, (t.agenda.content? id).isSome → id < t.fresh

/-- A consistent table in which each key is bound as `g` says. -/
structure Binds (t : Table ν) (g : Key → Option (ν × Deadline)) : Prop where
  consistent : t.Consistent
  get?_eq : ∀ k, t.get? k = g k

theorem get?_eq (t : Table ν) (k : Key) :
    t.get? k = t.index[k]?.bind fun id => (t.agenda.content? id).map fun c => (c.1.value, c.2) := by
  simp [get?, find?, Agenda.content?, Option.map_bind, Function.comp_def]

theorem find?_eq_some_iff {t : Table ν} {k : Key} {id : Nat} {x : Item (Entry ν)} :
    t.find? k = some (id, x) ↔ t.index[k]? = some id ∧ t.agenda.items[id]? = some x := by
  simp only [find?, Option.bind_eq_some_iff, Option.map_eq_some_iff, Prod.mk.injEq]
  constructor
  · rintro ⟨_, hk, _, hx, rfl, rfl⟩
    exact ⟨hk, hx⟩
  · rintro ⟨hk, hx⟩
    exact ⟨id, hk, x, hx, rfl, rfl⟩

theorem find?_eq_none_iff {t : Table ν} {k : Key} : t.find? k = none ↔ t.get? k = none := by
  simp [get?]

theorem Binds.congr {t t' : Table ν} {g : Key → Option (ν × Deadline)} (h : t.Binds g)
    (ha : t'.agenda = t.agenda) (hi : t'.index = t.index) (hf : t'.fresh = t.fresh) :
    t'.Binds g := by
  obtain ⟨⟨hagenda, hindex, hscheduled, hfresh⟩, hget⟩ := h
  refine ⟨⟨ha ▸ hagenda, ?_, ?_, ?_⟩, ?_⟩
  · rwa [ha, hi]
  · rwa [ha]
  · rwa [ha, hf]
  · intro k
    rw [← hget k, Table.get?_eq t', Table.get?_eq t, ha, hi]

theorem agenda_pin (t : Table ν) (id : Nat) : (t.pin id).agenda = t.agenda.unschedule id := by
  unfold pin
  split
  · rfl
  · next hoff =>
    rw [Bool.not_eq_true, Agenda.isScheduled_eq_false_iff] at hoff
    simp [Agenda.unschedule, hoff]

@[simp] theorem index_pin (t : Table ν) (id : Nat) : (t.pin id).index = t.index := by
  unfold pin
  split <;> rfl

@[simp] theorem fresh_pin (t : Table ν) (id : Nat) : (t.pin id).fresh = t.fresh := by
  unfold pin
  split <;> rfl

namespace Consistent

variable {t : Table ν} (h : t.Consistent)

include h

theorem get?_of_content? {k : Key} {id : Nat} {v : ν} {d : Deadline}
    (hc : t.agenda.content? id = some (⟨k, v⟩, d)) : t.get? k = some (v, d) := by
  simp [get?_eq, (h.index k id).2 ⟨v, d, hc⟩, hc]

theorem get?_eq_some_iff {k : Key} {v : ν} {d : Deadline} :
    t.get? k = some (v, d) ↔
      ∃ id, t.index[k]? = some id ∧ t.agenda.content? id = some (⟨k, v⟩, d) := by
  constructor
  · intro hk
    rw [get?_eq, Option.bind_eq_some_iff] at hk
    obtain ⟨id, hid, hk⟩ := hk
    obtain ⟨v', d', hc⟩ := (h.index k id).1 hid
    rw [hc, Option.map_some, Option.some.injEq, Prod.mk.injEq] at hk
    obtain ⟨rfl, rfl⟩ := hk
    exact ⟨id, hid, hc⟩
  · rintro ⟨id, -, hc⟩
    exact h.get?_of_content? hc

theorem get?_eq_none_iff {k : Key} : t.get? k = none ↔ t.index[k]? = none := by
  constructor
  · intro hk
    cases hid : t.index[k]? with
    | none => rfl
    | some id =>
      obtain ⟨v, d, hc⟩ := (h.index k id).1 hid
      rw [h.get?_of_content? hc] at hk
      cases hk
  · intro hk
    simp [get?_eq, hk]

theorem content?_of_find? {k : Key} {id : Nat} {x : Item (Entry ν)}
    (hk : t.find? k = some (id, x)) :
    t.index[k]? = some id ∧ t.agenda.content? id = some (⟨k, x.payload.value⟩, x.deadline) := by
  obtain ⟨hid, hx⟩ := find?_eq_some_iff.1 hk
  obtain ⟨v, d, hc⟩ := (h.index k id).1 hid
  simp only [Agenda.content?, hx, Option.map_some, Option.some.injEq, Prod.mk.injEq] at hc
  refine ⟨hid, ?_⟩
  simp [Agenda.content?, hx, hc]

end Consistent

/-- `t'` is `t` with the entry `id` of the key `k` changed, added or taken out. -/
structure Rebinds (t t' : Table ν) (k : Key) (id : Nat) (e : Option (ν × Deadline)) : Prop where
  agenda : t.agenda.Touches t'.agenda id (e.map fun b => (⟨k, b.1⟩, b.2))
    (∃ b, e = some b ∧ b.2 ≠ .never)
  index_self : t'.index[k]? = e.map fun _ => id
  index_of_ne : ∀ j, j ≠ k → t'.index[j]? = t.index[j]?
  fresh_le : t.fresh ≤ t'.fresh
  lt_fresh : id < t'.fresh

namespace Rebinds

variable {t t' : Table ν} {k : Key} {id : Nat} {e : Option (ν × Deadline)}

/-- The index of `t'` names its entries, if `id` was an entry of no other key, and `k` had no other
entry. -/
theorem index_iff (hr : Rebinds t t' k id e) (h : t.Consistent)
    (hold : ∀ c, t.agenda.content? id = some c → c.1.key = k)
    (hin : ∀ j, t.index[k]? = some j → j = id) (j : Key) (i : Nat) :
    t'.index[j]? = some i ↔ ∃ v d, t'.agenda.content? i = some (⟨j, v⟩, d) := by
  by_cases hj : j = k
  · subst hj
    rw [hr.index_self]
    by_cases hi : i = id
    · subst hi
      rw [hr.agenda.content?_self]
      cases e <;> simp
    · rw [hr.agenda.content?_of_ne i hi, ← h.index j i]
      constructor
      · intro he
        obtain ⟨_, -, rfl⟩ := Option.map_eq_some_iff.1 he
        exact absurd rfl hi
      · intro he
        exact absurd (hin i he) hi
  · rw [hr.index_of_ne j hj]
    by_cases hi : i = id
    · -- On the old side `id` has no key but `k`, and on the new side it has none or `k`.
      subst hi
      rw [hr.agenda.content?_self, h.index]
      constructor
      · rintro ⟨v, d, hc⟩
        exact absurd (hold _ hc) hj
      · rintro ⟨v, d, hc⟩
        obtain ⟨_, -, hc⟩ := Option.map_eq_some_iff.1 hc
        cases hc
        exact absurd rfl hj
    · rw [hr.agenda.content?_of_ne i hi, h.index]

theorem scheduled (hr : Rebinds t t' k id e) (h : t.Consistent) {i : Nat} {x : Entry ν}
    {d : Deadline} (hc : t'.agenda.content? i = some (x, d)) :
    t'.agenda.isScheduled i = true ↔ d ≠ .never := by
  by_cases hi : i = id
  · subst hi
    rw [hr.agenda.content?_self] at hc
    obtain ⟨b, rfl, hc⟩ := Option.map_eq_some_iff.1 hc
    cases hc
    rw [hr.agenda.isScheduled_self]
    simp
  · rw [hr.agenda.content?_of_ne i hi] at hc
    rw [hr.agenda.isScheduled_of_ne i hi]
    exact h.scheduled i x d hc

theorem lt_fresh_of_isSome (hr : Rebinds t t' k id e) (h : t.Consistent) {i : Nat}
    (hc : (t'.agenda.content? i).isSome) : i < t'.fresh := by
  by_cases hi : i = id
  · exact hi ▸ hr.lt_fresh
  · rw [hr.agenda.content?_of_ne i hi] at hc
    exact (h.fresh i hc).trans_le hr.fresh_le

theorem get?_eq (hr : Rebinds t t' k id e) (h : t.Consistent)
    (hold : ∀ c, t.agenda.content? id = some c → c.1.key = k) (j : Key) :
    t'.get? j = Function.update t.get? k e j := by
  by_cases hj : j = k
  · subst hj
    rw [Function.update_self, Table.get?_eq, hr.index_self]
    cases e <;> simp [hr.agenda.content?_self]
  · rw [Function.update_of_ne hj, Table.get?_eq, Table.get?_eq, hr.index_of_ne j hj]
    cases hi : t.index[j]? with
    | none => rfl
    | some i =>
      have hne : i ≠ id := by
        intro hid
        subst hid
        obtain ⟨v, d, hc⟩ := (h.index j i).1 hi
        exact hj (hold _ hc)
      rw [Option.bind_some, Option.bind_some, hr.agenda.content?_of_ne i hne]

end Rebinds

theorem Consistent.binds_of_rebinds {t t' : Table ν} (h : t.Consistent) {k : Key} {id : Nat}
    {e : Option (ν × Deadline)} (hr : Rebinds t t' k id e)
    (hold : ∀ c, t.agenda.content? id = some c → c.1.key = k)
    (hin : ∀ j, t.index[k]? = some j → j = id) :
    t'.Binds (Function.update t.get? k e) where
  consistent :=
    ⟨hr.agenda.consistent, hr.index_iff h hold hin, fun _ _ _ hc => hr.scheduled h hc,
      fun _ hc => hr.lt_fresh_of_isSome h hc⟩
  get?_eq := hr.get?_eq h hold

namespace Consistent

variable {t : Table ν} (h : t.Consistent)

include h

theorem binds_of_present {t' : Table ν} {k : Key} {id : Nat} {e : Option (ν × Deadline)}
    (hk : t.index[k]? = some id) (hr : Rebinds t t' k id e) :
    t'.Binds (Function.update t.get? k e) := by
  apply h.binds_of_rebinds hr
  · intro c' hc'
    obtain ⟨v, d, hkc⟩ := (h.index k id).1 hk
    rw [hkc] at hc'
    cases hc'
    rfl
  · intro j hj
    rw [hk] at hj
    exact (Option.some.inj hj).symm

theorem content?_fresh : t.agenda.content? t.fresh = none := by
  by_contra hc
  exact lt_irrefl _ (h.fresh t.fresh (Option.isSome_iff_ne_none.2 hc))

theorem binds_of_absent {t' : Table ν} {k : Key} {e : Option (ν × Deadline)}
    (hk : t.get? k = none) (hr : Rebinds t t' k t.fresh e) :
    t'.Binds (Function.update t.get? k e) := by
  apply h.binds_of_rebinds hr
  · intro c hc
    rw [h.content?_fresh] at hc
    cases hc
  · intro j hj
    rw [h.get?_eq_none_iff.1 hk] at hj
    cases hj

theorem lt_fresh {k : Key} {id : Nat} (hk : t.index[k]? = some id) : id < t.fresh := by
  obtain ⟨v, d, hc⟩ := (h.index k id).1 hk
  exact h.fresh id (by rw [hc]; rfl)

theorem binds_update {k : Key} (hk : t.get? k = none) :
    t.Binds (Function.update t.get? k none) where
  consistent := h
  get?_eq j := by rw [← hk, Function.update_eq_self]

end Consistent

theorem consistent_empty : ({} : Table ν).Consistent where
  agenda := Agenda.consistent_empty
  index := by simp [Agenda.content?]
  scheduled := by simp [Agenda.content?]
  fresh := by simp [Agenda.content?]

theorem binds_clear (t : Table ν) : t.clear.Binds fun _ => none where
  consistent :=
    { agenda := Agenda.consistent_empty
      index := by simp [clear, Agenda.content?]
      scheduled := by simp [clear, Agenda.content?]
      fresh := by simp [clear, Agenda.content?] }
  get?_eq := by simp [clear, get?_eq]

end ExpiringMap.Table
