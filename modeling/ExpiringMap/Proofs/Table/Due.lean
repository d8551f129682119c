import ExpiringMap.Proofs.Table.Operations

namespace ExpiringMap.Table

variable {ν : Type} {t t' : Table ν}

namespace Consistent

variable (h : t.Consistent)

include h

/-- The first entry on the agenda ends at an instant, and no other entry ends before it. -/
theorem root?_spec {id : Nat} {x : Item (Entry ν)} (hr : t.agenda.root? = some (id, x)) :
    ∃ k v e, x.payload = ⟨k, v⟩ ∧ x.deadline = .due e ∧ t.index[k]? = some id ∧
      t.get? k = some (v, .due e) ∧ ∀ k' v' d, t.get? k' = some (v', d) → .due e ≤ d := by
  have hid := (Agenda.root?_eq_some_iff.1 hr).1
  have hc := Agenda.content?_of_root? hr
  have hs : t.agenda.isScheduled id = true :=
    Agenda.isScheduled_iff.2 ⟨0, (h.agenda.linked 0 id).1 hid⟩
  obtain ⟨e, he⟩ := Deadline.ne_never_iff.1 ((h.scheduled id _ _ hc).1 hs)
  have hc' : t.agenda.content? id = some (⟨x.payload.key, x.payload.value⟩, .due e) := by
    rw [hc, he]
  have hend : t.agenda.endAt 0 = .due e := Agenda.endAt_of_content? hid hc'
  refine ⟨_, _, e, rfl, he, (h.index _ id).2 ⟨_, _, hc'⟩, h.get?_of_content? hc', ?_⟩
  intro k' v' d hk'
  by_cases hd : d = .never
  · exact hd ▸ Deadline.le_never _
  · obtain ⟨j, -, hj⟩ := h.get?_eq_some_iff.1 hk'
    obtain ⟨i, hi⟩ := Agenda.isScheduled_iff.1 ((h.scheduled j _ _ hj).2 hd)
    rw [← hend, ← Agenda.endAt_of_content? ((h.agenda.linked i j).2 hi) hj]
    exact h.agenda.inOrder.root_le (h.agenda.linked.lt_size hi)

theorem never_of_root?_eq_none (hr : t.agenda.root? = none) {k : Key} {v : ν} {d : Deadline}
    (hk : t.get? k = some (v, d)) : d = .never := by
  by_contra hd
  obtain ⟨j, -, hj⟩ := h.get?_eq_some_iff.1 hk
  obtain ⟨i, hi⟩ := Agenda.isScheduled_iff.1 ((h.scheduled j _ _ hj).2 hd)
  obtain ⟨x, hx⟩ := h.agenda.linked.exists_itemAt? (Nat.zero_lt_of_lt (h.agenda.linked.lt_size hi))
  obtain ⟨id, hid, hx⟩ := Option.bind_eq_some_iff.1 hx
  simp [Agenda.root?, hid, hx] at hr

theorem agenda_expireRoot {id : Nat} {x : Item (Entry ν)} (hr : t.agenda.root? = some (id, x))
    (k : Key) : (t.expireRoot id k).agenda = (t.discard id k).agenda := by
  have hpos := Agenda.positionOf?_of_root? h.agenda.linked hr
  simp [Table.expireRoot, countExpired, Table.discard, Agenda.unschedule, hpos]

theorem expireRoot {id : Nat} {x : Item (Entry ν)} (hr : t.agenda.root? = some (id, x)) :
    (t.expireRoot id x.payload.key).Binds (Function.update t.get? x.payload.key none) := by
  obtain ⟨k, v, e, hp, -, hid, -⟩ := h.root?_spec hr
  rw [hp]
  exact (h.discard hid).congr (h.agenda_expireRoot hr k) rfl rfl

theorem nextDue?_eq_some_iff {e : Instant} :
    t.nextDue? = some e ↔ (∃ k v, t.get? k = some (v, .due e)) ∧
      ∀ k v d, t.get? k = some (v, d) → .due e ≤ d := by
  cases hr : t.agenda.root? with
  | none =>
    simp only [nextDue?, hr, Option.bind_none, reduceCtorEq, false_iff, not_and]
    intro hk
    obtain ⟨k, v, hk⟩ := hk
    exact absurd (h.never_of_root?_eq_none hr hk) (by simp)
  | some r =>
    obtain ⟨k, v, e', -, hd, -, hk, hmin⟩ := h.root?_spec hr
    simp only [nextDue?, hr, Option.bind_some, hd, Deadline.instant?, Option.some.injEq]
    constructor
    · intro he
      exact he ▸ ⟨⟨k, v, hk⟩, hmin⟩
    · intro he
      obtain ⟨⟨k', v', hk'⟩, hmin'⟩ := he
      have hle := hmin _ _ _ hk'
      have hge := hmin' _ _ _ hk
      rw [Deadline.due_le_due] at hle hge
      exact Int.le_antisymm hle hge

theorem nextDue?_eq_none_iff :
    t.nextDue? = none ↔ ∀ k v d, t.get? k = some (v, d) → d = .never := by
  cases hr : t.agenda.root? with
  | none =>
    simp only [nextDue?, hr, Option.bind_none, true_iff]
    intro k v d hk
    exact h.never_of_root?_eq_none hr hk
  | some r =>
    obtain ⟨k, v, e, -, hd, -, hk, -⟩ := h.root?_spec hr
    simp only [nextDue?, hr, Option.bind_some, hd, Deadline.instant?, reduceCtorEq, false_iff]
    intro hall
    exact absurd (hall _ _ _ hk) (by simp)

end Consistent

/-- `xs` are the entries of `t` that have ended by `now`, each once and in the order of their ends,
and `t'` is left without them. -/
structure Drains (t : Table ν) (now : Instant) (xs : List (Expired ν)) (t' : Table ν) : Prop where
  binds : t'.Binds fun k => (t.get? k).filter fun b => !b.2.hasPassed now
  nodup : (xs.map (·.key)).Nodup
  mem_iff : ∀ x, x ∈ xs ↔ t.get? x.key = some (x.value, .due x.due) ∧ x.due ≤ now
  sorted : xs.Pairwise (·.due ≤ ·.due)

theorem Consistent.drains_nil (h : t.Consistent) {now : Instant}
    (hnone : ∀ k v d, t.get? k = some (v, d) → d.hasPassed now = false) : Drains t now [] t where
  binds := by
    refine ⟨h, fun k => ?_⟩
    cases hk : t.get? k with
    | none => rfl
    | some b => simp [Option.filter, hnone k b.1 b.2 hk]
  nodup := by simp
  mem_iff x := by
    rw [← Deadline.hasPassed_due]
    constructor
    · simp
    · intro hx
      rw [hnone _ _ _ hx.1] at hx
      simp at hx
  sorted := by simp

/-- The entry that ends first is taken out, and what has ended besides from what is left. -/
theorem Drains.cons {t₁ : Table ν} {now : Instant} {xs : List (Expired ν)} {k : Key} {v : ν}
    {e : Instant} (hk : t.get? k = some (v, .due e)) (hdue : e ≤ now)
    (hfirst : ∀ j w d, t.get? j = some (w, d) → .due e ≤ d)
    (hget : ∀ j, t₁.get? j = if j = k then none else t.get? j) (hd : Drains t₁ now xs t') :
    Drains t now (⟨k, v, e⟩ :: xs) t' where
  binds := by
    refine ⟨hd.binds.consistent, fun j => ?_⟩
    rw [hd.binds.get?_eq, hget]
    split
    · next hj =>
      subst hj
      simp [hk, Option.filter, Deadline.hasPassed_due, hdue]
    · rfl
  nodup := by
    rw [List.map_cons, List.nodup_cons]
    refine ⟨fun hmem => ?_, hd.nodup⟩
    obtain ⟨x, hx, hxk⟩ := List.mem_map.1 hmem
    have hx := ((hd.mem_iff x).1 hx).1
    simp [hget, hxk] at hx
  mem_iff x := by
    rw [List.mem_cons, hd.mem_iff, hget]
    constructor
    · intro hx
      rcases hx with rfl | ⟨hx, hxe⟩
      · exact ⟨hk, hdue⟩
      · split at hx
        · cases hx
        · exact ⟨hx, hxe⟩
    · intro hx
      by_cases hxk : x.key = k
      · left
        rw [hxk, hk] at hx
        obtain ⟨_, _, _⟩ := x
        simp_all
      · exact .inr ⟨by rw [if_neg hxk]; exact hx.1, hx.2⟩
  sorted := by
    rw [List.pairwise_cons]
    refine ⟨fun x hx => ?_, hd.sorted⟩
    have hx := ((hd.mem_iff x).1 hx).1
    rw [hget] at hx
    split at hx
    · cases hx
    · exact (Deadline.due_le_due _ _).1 (hfirst _ _ _ hx)

theorem Consistent.takeDue (h : t.Consistent) (now : Instant) :
    Drains t now (t.takeDue now).1 (t.takeDue now).2 := by
  fun_induction Table.takeDue t now with
  | case1 t id k v e _ hr hdue r ih =>
    obtain ⟨_, _, _, hp, he, -, hk, hmin⟩ := h.root?_spec hr
    cases hp
    cases he
    have hb := h.expireRoot hr
    have hget (j : Key) : (t.expireRoot id k).get? j = if j = k then none else t.get? j := by
      rw [hb.get?_eq, Function.update_apply]
    exact (ih hb.consistent).cons hk hdue hmin hget
  | case2 t id k v e _ hr hdue =>
    -- The entry that ends first has not ended yet, so none has.
    apply h.drains_nil
    intro k' v' d hk'
    obtain ⟨_, _, _, -, he, -, -, hmin⟩ := h.root?_spec hr
    cases he
    rw [Bool.eq_false_iff, ne_eq, Deadline.hasPassed_iff]
    intro hd
    exact hdue ((Deadline.due_le_due _ _).1 ((hmin _ _ _ hk').trans hd))
  | case3 t hroot =>
    apply h.drains_nil
    intro k' v' d hk'
    cases hr : t.agenda.root? with
    | none => rw [h.never_of_root?_eq_none hr hk', Deadline.hasPassed_never]
    | some r =>
      obtain ⟨k, v, e, hp, hd, -⟩ := h.root?_spec hr
      obtain ⟨id, ⟨_, _, _⟩⟩ := r
      subst hp hd
      exact absurd hr (hroot _ _ _ _ _)

end ExpiringMap.Table
