import ExpiringMap.Proofs.Table.History

namespace ExpiringMap

namespace Tally

instance : Add Tally where
  add a b :=
    { added := a.added + b.added, removed := a.removed + b.removed,
      expired := a.expired + b.expired, permanent := a.permanent + b.permanent }

variable (a b : Tally)

@[simp] theorem added_add : (a + b).added = a.added + b.added := rfl

@[simp] theorem removed_add : (a + b).removed = a.removed + b.removed := rfl

@[simp] theorem expired_add : (a + b).expired = a.expired + b.expired := rfl

@[simp] theorem permanent_add : (a + b).permanent = a.permanent + b.permanent := rfl

@[simp] theorem add_zero : a + {} = a := rfl

theorem add_assoc (c : Tally) : a + b + c = a + (b + c) := by
  change Tally.mk _ _ _ _ = Tally.mk _ _ _ _
  simp [Nat.add_assoc]

/-- What is counted when a key whose entry ended as `old?` says is bound until `deadline`. -/
def ofBinding (old? : Option Deadline) (deadline : Deadline) : Tally where
  added := if old? = none then 1 else 0
  permanent := if deadline = .never ∧ old? ≠ some .never then 1 else 0

/-- What is counted when the deadline of a key, if it is there, is changed. -/
def ofChange (old? : Option Deadline) (deadline : Deadline) : Tally where
  permanent := if deadline = .never ∧ old?.any (· ≠ .never) then 1 else 0

theorem ofChange_none (d : Deadline) : ofChange none d = {} := by simp [ofChange]

theorem ofChange_self (d : Deadline) : ofChange (some d) d = {} := by
  simp only [ofChange, Option.any_some, decide_eq_true_eq]
  rw [if_neg fun h => h.2 h.1]

theorem ofChange_due (old : Deadline) (e : Instant) : ofChange (some old) (.due e) = {} := by
  simp [ofChange]

theorem ofBinding_some (old d : Deadline) : ofBinding (some old) d = ofChange (some old) d := by
  simp [ofBinding, ofChange]

end Tally

namespace Table

variable {ν : Type} {t t' t'' : Table ν} {a b : Tally} {m n : Nat}

/-- From `t` to `t'` the changes counted `a`, and dropped `n` entries uncounted. -/
structure Books (t t' : Table ν) (a : Tally) (n : Nat) : Prop where
  tally : t'.tally = t.tally + a
  size : t'.size + a.removed + a.expired + n = t.size + a.added

theorem Books.refl (t : Table ν) : Books t t {} 0 where
  tally := rfl
  size := rfl

theorem Books.trans (h : Books t t' a m) (h' : Books t' t'' b n) :
    Books t t'' (a + b) (m + n) where
  tally := by rw [h'.tally, h.tally, Tally.add_assoc]
  size := by
    have hsize := h.size
    have hsize' := h'.size
    simp only [Tally.added_add, Tally.removed_add, Tally.expired_add]
    omega

theorem Books.onAgenda (h : Books t t' a n) (f : Agenda Nat (Entry ν) → Agenda Nat (Entry ν)) :
    Books t (t'.onAgenda f) a n :=
  ⟨h.tally, h.size⟩

theorem Books.schedule (h : Books t t' a n) (id : Nat) : Books t (t'.schedule id).1 a n :=
  ⟨h.tally, h.size⟩

theorem books_clear (t : Table ν) : Books t t.clear {} t.size where
  tally := rfl
  size := by simp [clear, size]

theorem books_pin (t : Table ν) (id : Nat) :
    Books t (t.pin id) { permanent := (t.agenda.isScheduled id).toNat } 0 := by
  unfold pin
  cases t.agenda.isScheduled id with
  | true => exact ⟨rfl, rfl⟩
  | false => exact .refl t

theorem size_erase_index {k : Key} {id : Nat} (hk : t.index[k]? = some id) :
    (t.index.erase k).size + 1 = t.size := by
  have hmem : t.index.contains k = true := by
    rw [Std.ExtTreeMap.contains_eq_isSome_getElem?, hk]
    rfl
  have hpos : t.index.size ≠ 0 := by
    rw [ne_eq, ← Std.ExtTreeMap.eq_empty_iff_size_eq_zero]
    intro he
    simp [he] at hmem
  rw [Std.ExtTreeMap.size_erase, size]
  simp only [hmem, if_true]
  omega

theorem books_discard {k : Key} {id : Nat} (hk : t.index[k]? = some id) :
    Books t (t.discard id k).countRemoved { removed := 1 } 0 where
  tally := rfl
  size := size_erase_index hk

namespace Consistent

variable (h : t.Consistent)

include h

theorem isScheduled_eq {id : Nat} {e : Entry ν} {d : Deadline}
    (hc : t.agenda.content? id = some (e, d)) : t.agenda.isScheduled id = decide (d ≠ .never) := by
  rw [Bool.eq_iff_iff, decide_eq_true_iff]
  exact h.scheduled id e d hc

/-- To pin an entry counts it as permanent unless it was so. -/
theorem books_pin {id : Nat} {e : Entry ν} {d : Deadline}
    (hc : t.agenda.content? id = some (e, d)) :
    Books t (t.pin id) (.ofChange (some d) .never) 0 := by
  have hb := Table.books_pin t id
  rw [h.isScheduled_eq hc] at hb
  by_cases hd : d = .never
  · simpa [Tally.ofChange, hd] using hb
  · simpa [Tally.ofChange, hd] using hb

theorem books_add {k : Key} (hk : t.get? k = none) (v : ν) (d : Deadline) :
    Books t (t.add k v d) { added := 1 } 0 where
  tally := rfl
  size := by
    have hnot : t.index.contains k = false := by
      simp [Std.ExtTreeMap.contains_eq_isSome_getElem?, h.get?_eq_none_iff.1 hk]
    simp [size, add, Std.ExtTreeMap.size_insert, hnot]

theorem books_put (k : Key) (v : ν) :
    Books t (t.put k v) (.ofBinding ((t.get? k).map (·.2)) .never) 0 := by
  unfold Table.put
  split
  · next id x hk =>
    obtain ⟨-, hc⟩ := h.content?_of_find? hk
    rw [h.get?_of_content? hc, Option.map_some, Tally.ofBinding_some]
    exact (h.books_pin hc).onAgenda _
  · next hk =>
    rw [find?_eq_none_iff] at hk
    rw [hk]
    have hb := h.books_add hk v .never
    exact ⟨congrArg (fun c : Tally => { c with permanent := c.permanent + 1 }) hb.tally, hb.size⟩

theorem books_putUntil (k : Key) (v : ν) (d : Deadline) :
    Books t (t.putUntil k v d).1 (.ofBinding ((t.get? k).map (·.2)) d) 0 := by
  unfold Table.putUntil
  split
  · exact h.books_put k v
  · next e id x hk =>
    obtain ⟨-, hc⟩ := h.content?_of_find? hk
    rw [h.get?_of_content? hc, Option.map_some, Tally.ofBinding_some, Tally.ofChange_due]
    exact ((Books.refl t).onAgenda _).schedule id
  · next e hk =>
    rw [find?_eq_none_iff] at hk
    rw [hk]
    exact (h.books_add hk v (.due e)).schedule t.fresh

theorem books_keep (k : Key) :
    Books t (t.keep k).1 (.ofChange ((t.get? k).map (·.2)) .never) 0 := by
  unfold Table.keep
  split
  · next id x hk =>
    obtain ⟨-, hc⟩ := h.content?_of_find? hk
    simp only [h.get?_of_content? hc, Option.map_some]
    by_cases hon : t.agenda.isScheduled id
    · rw [if_pos hon]
      exact (h.books_pin hc).onAgenda _
    · -- What is not on the agenda is permanent already.
      have hd : x.deadline = .never := by
        rw [h.scheduled id _ _ hc] at hon
        exact not_not.1 hon
      rw [if_neg hon, hd, Tally.ofChange_self]
      exact .refl t
  · next hk =>
    rw [find?_eq_none_iff] at hk
    rw [hk, Option.map_none, Tally.ofChange_none]
    exact .refl t

theorem books_erase (k : Key) :
    Books t (t.erase k).1 { removed := (t.erase k).2.toNat } 0 := by
  unfold Table.erase
  split
  · next id x hk => exact books_discard (h.content?_of_find? hk).1
  · exact .refl t

omit h in
theorem books_eraseMany {t : Table ν} (h : t.Consistent) (ks : List Key) :
    Books t (t.eraseMany ks).1 { removed := (t.eraseMany ks).2 } 0 := by
  induction ks generalizing t with
  | nil => exact .refl t
  | cons k ks ih =>
    have hb := (h.books_erase k).trans (ih (h.erase k).consistent)
    rw [Table.eraseMany, Nat.add_comm]
    exact hb

theorem books_reschedule (k : Key) (d : Deadline) (now : Instant) :
    Books t (t.reschedule k d now).1
      (if d.hasPassed now then { removed := (t.get? k).isSome.toNat }
        else .ofChange ((t.get? k).map (·.2)) d) 0 := by
  unfold Table.reschedule
  split
  · next hk =>
    rw [find?_eq_none_iff] at hk
    rw [hk, Option.map_none, Tally.ofChange_none]
    split <;> exact .refl t
  · exact h.books_keep k
  · next id x e hk =>
    obtain ⟨hid, hc⟩ := h.content?_of_find? hk
    rw [h.get?_of_content? hc]
    split
    · exact books_discard hid
    · rw [Option.map_some, Tally.ofChange_due]
      exact ((Books.refl t).onAgenda _).schedule id

theorem books_takeDue (now : Instant) :
    Books t (t.takeDue now).2 { expired := (t.takeDue now).1.length } 0 := by
  fun_induction Table.takeDue t now with
  | case1 t id k v e _ hr hdue r ih =>
    obtain ⟨_, _, _, hp, -, hk, -⟩ := h.root?_spec hr
    cases hp
    have hroot : Books t (t.expireRoot id k) { expired := 1 } 0 :=
      ⟨rfl, size_erase_index hk⟩
    rw [List.length_cons, Nat.add_comm]
    exact hroot.trans (ih (h.expireRoot hr).consistent)
  | case2 t => exact .refl t
  | case3 t => exact .refl t

end Consistent

end Table

end ExpiringMap
