import ExpiringMap.Proofs.Agenda.Root
import ExpiringMap.Proofs.Table.Bindings
import ExpiringMap.Proofs.Table.Guards

/-!
What it says that an entry stands first once its deadline is set: it ends no later than any other if
it stood first before, and earlier than any other if it did not. So an entry that stands behind has
moved the next end no nearer, and neither has a change that sets no deadline.
-/

namespace ExpiringMap

namespace Bindings

variable {ν : Type} {b : Bindings ν}

theorem mem_ends_iff {e : Instant} :
    e ∈ b.ends ↔ ∃ (k : Key) (v : ν), b[k]? = some (v, .due e) := by
  simp only [ends, List.mem_filterMap, Prod.exists,
    Std.ExtTreeMap.mem_toList_iff_getElem?_eq_some]
  constructor
  · rintro ⟨k, v, d, hk, he⟩
    cases d with
    | never => cases he
    | due =>
      cases he
      exact ⟨k, v, hk⟩
  · rintro ⟨k, v, hk⟩
    exact ⟨k, v, .due e, hk, rfl⟩

/-- When the first binding ends. -/
def firstEnd (b : Bindings ν) : Deadline := b.ends.min?.elim .never .due

theorem le_firstEnd_iff {d : Deadline} :
    d ≤ b.firstEnd ↔ ∀ (k : Key) v c, b[k]? = some (v, c) → d ≤ c := by
  unfold firstEnd
  cases hmin : b.ends.min? with
  | none =>
    rw [List.min?_eq_none_iff, List.eq_nil_iff_forall_not_mem] at hmin
    refine iff_of_true (Deadline.le_never d) fun k v c hk => ?_
    cases c with
    | never => exact Deadline.le_never d
    | due m => exact absurd (mem_ends_iff.2 ⟨k, v, hk⟩) (hmin m)
  | some m =>
    obtain ⟨hm, hle⟩ := List.min?_eq_some_iff.1 hmin
    obtain ⟨j, w, hj⟩ := mem_ends_iff.1 hm
    constructor
    · intro hd k v c hk
      cases c with
      | never => exact Deadline.le_never d
      | due n => exact hd.trans ((Deadline.due_le_due m n).2 (hle n (mem_ends_iff.2 ⟨k, v, hk⟩)))
    · exact fun hall => hall j w _ hj

end Bindings

namespace Table

variable {ν : Type} {t t' t₁ : Table ν} {k : Key} {id : Nat} {v : ν} {e : Instant}

def firstKey? (t : Table ν) : Option Key := t.agenda.root?.map (·.2.payload.key)

def nextEnd (t : Table ν) : Deadline := t.nextDue?.elim .never .due

/-- When the first entry ends, that of `k` left out. -/
def endBeside (t : Table ν) (k : Key) : Deadline := Bindings.firstEnd (t.bindings.erase k)

/-- Whether the entry of `k` stands first once it is set to end at `e`. Of two that end together the
one that stood first stays there. -/
def ComesFirst (t : Table ν) (k : Key) (e : Instant) : Prop :=
  if t.firstKey? = some k then .due e ≤ t.endBeside k else .due e < t.endBeside k

instance (t : Table ν) (k : Key) (e : Instant) : Decidable (t.ComesFirst k e) :=
  inferInstanceAs (Decidable (ite _ _ _))

theorem le_endBeside_iff {d : Deadline} :
    d ≤ t.endBeside k ↔ ∀ j w c, j ≠ k → t.get? j = some (w, c) → d ≤ c := by
  rw [endBeside, Bindings.le_firstEnd_iff]
  simp only [Std.ExtTreeMap.getElem?_erase, getElem?_bindings, Std.compare_eq_iff_eq]
  simp [eq_comm (a := k)]

theorem Consistent.le_nextEnd_iff (h : t.Consistent) {d : Deadline} :
    d ≤ t.nextEnd ↔ ∀ j w c, t.get? j = some (w, c) → d ≤ c := by
  have hends : t.nextDue? = t.bindings.ends.min? := by
    rw [h.nextDue?_eq_min?]
    ext m
    simp [List.min?_eq_some_iff, h.ends_perm.mem_iff]
  rw [nextEnd, hends]
  exact Bindings.le_firstEnd_iff.trans (by simp)

theorem Consistent.firstKey?_eq_some_iff (h : t.Consistent) :
    t.firstKey? = some k ↔ ∃ r, t.agenda.slots[0]? = some r ∧ t.index[k]? = some r := by
  constructor
  · intro hk
    obtain ⟨⟨r, x⟩, hr, rfl⟩ := Option.map_eq_some_iff.1 hk
    obtain ⟨hslot, hx⟩ := Agenda.root?_eq_some_iff.1 hr
    exact ⟨r, hslot, h.getElem?_index_of_item hx⟩
  · rintro ⟨r, hslot, hk⟩
    obtain ⟨w, d, hc⟩ := (h.index k r).1 hk
    obtain ⟨x, hx, he⟩ := Option.map_eq_some_iff.1 hc
    rw [Prod.mk.injEq] at he
    simp [firstKey?, Agenda.root?_eq_some_iff.2 ⟨hslot, hx⟩, he.1]

/-- `t₁` is `t` with an entry `id` of `k`, its only one, that is to end at `e` and may stand in the
wrong place. -/
structure Readies (t t₁ : Table ν) (k : Key) (id : Nat) (e : Instant) : Prop where
  agenda : t₁.agenda.ConsistentBut id
  slots_eq : t₁.agenda.slots = t.agenda.slots
  content?_self : ∃ v, t₁.agenda.content? id = some (⟨k, v⟩, .due e)
  content?_of_ne : ∀ j, j ≠ id → t₁.agenda.content? j = t.agenda.content? j
  key_eq : ∀ c, t.agenda.content? id = some c → c.1.key = k
  id_eq : ∀ j, t.index[k]? = some j → j = id

theorem Consistent.readies_modify (h : t.Consistent) (hid : t.index[k]? = some id)
    {f : Item (Entry ν) → Item (Entry ν)} (hpos : ∀ x, (f x).position = x.position)
    (hkey : ∀ x, x.payload.key = k → (f x).payload.key = k)
    (hdue : ∀ x, (f x).deadline = .due e) : Readies t (t.onAgenda (·.modify id f)) k id e := by
  obtain ⟨w, d, hc⟩ := (h.index k id).1 hid
  refine
    { agenda := h.agenda.modify id hpos
      slots_eq := rfl
      content?_self := ?_
      content?_of_ne := fun j hj => Agenda.content?_modify_of_ne t.agenda f hj
      key_eq := fun c hc' => ?_
      id_eq := fun j hj => Option.some.inj (hj.symm.trans hid) }
  · obtain ⟨x, hx, he⟩ := Option.map_eq_some_iff.1 hc
    rw [Prod.mk.injEq] at he
    have hk : (f x).payload.key = k := hkey x (by rw [he.1])
    exact ⟨(f x).payload.value, by simp [onAgenda, Agenda.content?, Agenda.modify, hx, hdue, ← hk]⟩
  · rw [hc] at hc'
    cases hc'
    rfl

theorem Consistent.readies_add (h : t.Consistent) (hk : t.get? k = none) (v : ν) (e : Instant) :
    Readies t (t.add k v (.due e)) k t.fresh e where
  agenda := by
    have hoff := Agenda.positionOf?_eq_none_of_content?_eq_none h.content?_fresh
    obtain ⟨hc, hp⟩ := h.agenda.insert (x := { payload := ⟨k, v⟩, deadline := .due e }) hoff rfl
    refine ⟨hc.linked, fun i hi => ?_, fun _ => hc.inOrder⟩
    rw [add, hp, hoff] at hi
    cases hi
  slots_eq := rfl
  content?_self := ⟨v, Agenda.content?_insert_self t.agenda t.fresh _⟩
  content?_of_ne j hj := Agenda.content?_insert_of_ne t.agenda _ hj
  key_eq c hc := by
    rw [h.content?_fresh] at hc
    cases hc
  id_eq j hj := by
    rw [h.get?_eq_none_iff.1 hk] at hj
    cases hj

namespace Readies

variable (hr : Readies t t₁ k id e) (h : t.Consistent)

include hr h

theorem slots_zero {r : Nat} {x : Entry ν} {d : Deadline} (hslot : t.agenda.slots[0]? = some r)
    (hx : t₁.agenda.content? r = some (x, d)) (hle : d ≤ .due e) (hmin : d ≤ t.endBeside k) :
    (t₁.schedule id).1.agenda.slots[0]? = some r := by
  obtain ⟨v, hself⟩ := hr.content?_self
  refine hr.agenda.slots_zero_schedule (by rw [hself]; rfl) (hr.slots_eq ▸ hslot) hx ?_
  rintro j ⟨i, w⟩ c hc
  by_cases hj : j = id
  · rw [hj, hself] at hc
    cases hc
    exact hle
  · rw [hr.content?_of_ne j hj] at hc
    refine le_endBeside_iff.1 hmin i w c ?_ (h.get?_of_content? hc)
    rintro rfl
    exact hj (hr.id_eq j ((h.index i j).2 ⟨w, c, hc⟩))

theorem standing_eq_first (hfirst : t.firstKey? = some k) (hle : .due e ≤ t.endBeside k) :
    (t₁.schedule id).2 = .first := by
  obtain ⟨r, hslot, hid⟩ := h.firstKey?_eq_some_iff.1 hfirst
  obtain rfl := hr.id_eq r hid
  obtain ⟨v, hself⟩ := hr.content?_self
  exact if_pos (hr.slots_zero h hslot hself le_rfl hle)

theorem standing_eq_behind (hfirst : t.firstKey? ≠ some k) (hle : t.endBeside k ≤ .due e) :
    (t₁.schedule id).2 = .behind := by
  cases hroot : t.agenda.root? with
  | none =>
    -- Nothing ends, so `k` cannot end later than what does.
    have hnever : Deadline.never ≤ t.endBeside k := le_endBeside_iff.2 fun j w c _ hj =>
      (h.never_of_root?_eq_none hroot hj).ge
    exact absurd (hnever.trans hle) (Deadline.not_never_le_due e)
  | some r =>
    obtain ⟨r, x⟩ := r
    obtain ⟨i, w, d, hp, hd, hi, -, hmin⟩ := h.root?_spec hroot
    have hslot := (Agenda.root?_eq_some_iff.1 hroot).1
    have hc := Agenda.content?_of_root? hroot
    rw [hp, hd] at hc
    have hik : i ≠ k := by
      rintro rfl
      exact hfirst (h.firstKey?_eq_some_iff.2 ⟨r, hslot, hi⟩)
    have hrid : r ≠ id := by
      rintro rfl
      exact hik (hr.key_eq _ hc)
    have hbeside : .due d ≤ t.endBeside k := le_endBeside_iff.2 fun j u c _ hj => hmin j u c hj
    have hstay := hr.slots_zero h hslot ((hr.content?_of_ne r hrid).trans hc)
      (hbeside.trans hle) hbeside
    refine if_neg fun hid => hrid ?_
    exact Option.some.inj (hstay.symm.trans hid)

end Readies

theorem Binds.le_endBeside {s : Option (ν × Deadline)} (hb : t'.Binds (Function.update t.get? k s))
    (hs : Stands t'.get? k .first) (he : ∃ v, s = some (v, .due e)) : .due e ≤ t.endBeside k := by
  obtain ⟨v, rfl⟩ := he
  obtain ⟨w, c, hk, hmin⟩ := hs
  rw [hb.get?_eq, Function.update_self] at hk
  cases hk
  refine le_endBeside_iff.2 fun j u d hj hju => hmin j u d ?_
  rw [hb.get?_eq, Function.update_of_ne hj, hju]

theorem Binds.endBeside_le {s : Option (ν × Deadline)} (hb : t'.Binds (Function.update t.get? k s))
    (hs : Stands t'.get? k .behind) (he : ∃ v, s = some (v, .due e)) : t.endBeside k ≤ .due e := by
  obtain ⟨v, rfl⟩ := he
  obtain ⟨j, w, c, hj, hjw, hle⟩ := hs v e (by rw [hb.get?_eq, Function.update_self])
  rw [hb.get?_eq, Function.update_of_ne hj] at hjw
  exact (le_endBeside_iff.1 le_rfl j w _ hj hjw).trans ((Deadline.due_le_due c e).2 hle)

/-- A standing that leaves nothing open: where the ends leave a choice, what stood first before
decides. -/
theorem Readies.standing_iff (hr : Readies t t₁ k id e) (h : t.Consistent)
    {s : Option (ν × Deadline)} (hb : (t₁.schedule id).1.Binds (Function.update t.get? k s))
    (hs : Stands (t₁.schedule id).1.get? k (t₁.schedule id).2) (he : ∃ v, s = some (v, .due e)) :
    (t₁.schedule id).2 = .first ↔ t.ComesFirst k e := by
  unfold ComesFirst
  split
  · next hfirst => exact ⟨fun hf => hb.le_endBeside (hf ▸ hs) he, hr.standing_eq_first h hfirst⟩
  · next hfirst =>
    constructor
    · intro hf
      by_contra hle
      rw [hr.standing_eq_behind h hfirst (not_lt.1 hle)] at hf
      cases hf
    · intro hlt
      cases hb' : (t₁.schedule id).2 with
      | first => rfl
      | behind => exact absurd (hb.endBeside_le (hb' ▸ hs) he) hlt.not_ge

namespace Consistent

variable (h : t.Consistent)

include h

theorem putUntil_first_iff (k : Key) (v : ν) (e : Instant) :
    (t.putUntil k v (.due e)).2 = .first ↔ t.ComesFirst k e := by
  have hb := h.putUntil k v (.due e)
  have hs := h.putUntil_stands k v (.due e)
  cases hk : t.find? k with
  | none =>
    simp only [Table.putUntil, hk] at hb hs ⊢
    exact (h.readies_add (find?_eq_none_iff.1 hk) v e).standing_iff h hb hs ⟨v, rfl⟩
  | some r =>
    simp only [Table.putUntil, hk] at hb hs ⊢
    refine (h.readies_modify (find?_eq_some_iff.1 hk).1 ?_ ?_ ?_).standing_iff h hb hs ⟨v, rfl⟩
    · exact fun _ => rfl
    · exact fun _ _ => rfl
    · exact fun _ => rfl

theorem reschedule_first_iff {k : Key} {e now : Instant} (hk : (t.get? k).isSome)
    (hlater : now < e) : (t.reschedule k (.due e) now).2.2 = .first ↔ t.ComesFirst k e := by
  have hb := h.reschedule k (.due e) now
  have hs := h.reschedule_stands k (.due e) now
  have hd : Deadline.hasPassed now (.due e) = false := by
    rw [Bool.eq_false_iff, ne_eq, Deadline.hasPassed_due]
    exact Int.not_le.2 hlater
  obtain ⟨⟨v, c⟩, hget⟩ := Option.isSome_iff_exists.1 hk
  rw [isSome_get?] at hk
  obtain ⟨⟨id, x⟩, hid⟩ := Option.isSome_iff_exists.1 hk
  simp only [Table.reschedule, hid, hd, hget, Bool.false_eq_true, ↓reduceIte] at hb hs ⊢
  refine (h.readies_modify (find?_eq_some_iff.1 hid).1 ?_ ?_ ?_).standing_iff h hb hs ⟨v, rfl⟩
  · exact fun _ => rfl
  · exact fun _ hx => hx
  · exact fun _ => rfl

end Consistent

theorem Consistent.nextEnd_le (h : t'.Consistent) (hg : Guards t.nextDue? t') :
    t.nextEnd ≤ t'.nextEnd := by
  refine h.le_nextEnd_iff.2 fun j w c hj => ?_
  cases c with
  | never => exact Deadline.le_never _
  | due m =>
    obtain ⟨d, hd, hle⟩ := hg j w m hj
    rw [nextEnd, hd]
    exact (Deadline.due_le_due d m).2 hle

theorem reschedule_behind {k : Key} {d : Deadline} {now : Instant}
    (hd : t.get? k = none ∨ d = .never ∨ d.hasPassed now = true) :
    (t.reschedule k d now).2.2 = .behind := by
  unfold reschedule
  split
  · rfl
  · rfl
  · next hk =>
    have hget : t.get? k ≠ none := by simp [get?, hk]
    rw [if_pos ((hd.resolve_left hget).resolve_left (by simp))]

/-- After every history, setting an end puts an entry first exactly if it comes first then. In all
other cases nothing is put first, and a change that puts nothing first brings the next end no
nearer. -/
theorem standing_exactly (cs : List (Command ν)) :
    (∀ k v e, ((after cs).putUntil k v (.due e)).2 = .first ↔ (after cs).ComesFirst k e) ∧
    (∀ k e now, ((after cs).get? k).isSome → now < e →
      (((after cs).reschedule k (.due e) now).2.2 = .first ↔ (after cs).ComesFirst k e)) ∧
    (∀ k v, ((after cs).putUntil k v .never).2 = .behind) ∧
    (∀ k d now, (after cs).get? k = none ∨ d = .never ∨ d.hasPassed now = true →
      ((after cs).reschedule k d now).2.2 = .behind) ∧
    (∀ c, ((after cs).apply c).1.place = .behind →
      (after cs).nextEnd ≤ ((after cs).apply c).2.nextEnd) ∧
    ∀ ks, (after cs).nextEnd ≤ ((after cs).eraseMany ks).1.nextEnd := by
  have h := consistent_after cs
  have hg : Guards (after cs).nextDue? (after cs) := by simpa using h.guards_nextDue? none
  refine ⟨h.putUntil_first_iff, fun k e now hk hlater => h.reschedule_first_iff hk hlater,
    fun k v => by simp only [putUntil], fun k d now hd => reschedule_behind hd, fun c hc => ?_,
    fun ks => ?_⟩
  · exact (h.apply c).nextEnd_le (hg.apply h hc)
  · exact (h.eraseMany ks).consistent.nextEnd_le (hg.eraseMany h ks)

/-- Two entries that end together. -/
def tied : List (Command Nat) := [.putUntil "b" 0 (.due 5), .putUntil "a" 1 (.due 5)]

theorem standing_exactly_tied :
    (after tied).firstKey? = some "b" ∧ (after tied).endBeside "a" = .due 5 ∧
      ((after tied).reschedule "b" (.due 5) 0).2.2 = .first ∧
      ((after tied).reschedule "a" (.due 5) 0).2.2 = .behind ∧
      ((after tied).reschedule "b" (.due 3) 3).2.2 = .behind ∧
      (after tied).nextEnd ≤ ((after tied).apply (.erase "b")).2.nextEnd := by
  obtain ⟨-, hreschedule, -, hbehind, happly, -⟩ := standing_exactly tied
  refine ⟨by decide +kernel, by decide +kernel, ?_, ?_, ?_, ?_⟩
  · exact (hreschedule "b" 5 0 (by decide +kernel) (by decide)).2 (by decide +kernel)
  · cases hs : ((after tied).reschedule "a" (.due 5) 0).2.2 with
    | behind => rfl
    | first =>
      have hfirst := (hreschedule "a" 5 0 (by decide +kernel) (by decide)).1 hs
      exact absurd hfirst (by decide +kernel)
  · exact hbehind "b" (.due 3) 3 (.inr (.inr (by decide)))
  · exact happly (.erase "b") rfl

end Table

end ExpiringMap
