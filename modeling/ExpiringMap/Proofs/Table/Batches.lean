import ExpiringMap.Proofs.Table.History

/-!
What is due leaves a table in rounds, each of which takes the first entry on the agenda if it has
ended. A round depends on nothing but the table that the one before it left, so it does not matter
how many calls the rounds are spread over: the latest instant alone decides what is taken.
-/

namespace ExpiringMap.Table

variable {ν : Type} {t t₁ t₂ t' : Table ν} {now s u : Instant} {x : Expired ν}
  {xs ys : List (Expired ν)}

/-- One round: the first entry on the agenda is taken out if it has ended. -/
def round? (t : Table ν) (now : Instant) : Option (Expired ν × Table ν) :=
  match t.agenda.root? with
  | some (id, ⟨⟨k, v⟩, .due end_, _⟩) =>
    if end_ ≤ now then some (⟨k, v, end_⟩, t.expireRoot id k) else none
  | _ => none

/-- Rounds one after the other until there is nothing left to take. -/
inductive Rounds (now : Instant) : Table ν → List (Expired ν) → Table ν → Prop
  | stop {t : Table ν} (h : t.round? now = none) : Rounds now t [] t
  | go {t t₁ t' : Table ν} {x : Expired ν} {xs : List (Expired ν)}
    (h : t.round? now = some (x, t₁)) (hr : Rounds now t₁ xs t') : Rounds now t (x :: xs) t'

theorem round?_eq_some_iff : t.round? now = some (x, t₁) ↔
    ∃ id p, t.agenda.root? = some (id, ⟨⟨x.key, x.value⟩, .due x.due, p⟩) ∧ x.due ≤ now ∧
      t₁ = t.expireRoot id x.key := by
  unfold round?
  split
  · next id k v e p hr =>
    constructor
    · intro h
      split at h
      · next hle =>
        cases h
        exact ⟨id, p, hr, hle, rfl⟩
      · cases h
    · rintro ⟨id', p', hr', hle, rfl⟩
      rw [hr] at hr'
      cases hr'
      rw [if_pos hle]
  · next hroot =>
    constructor
    · intro h
      cases h
    · rintro ⟨id, p, hr, -⟩
      exact absurd hr (hroot _ _ _ _ _)

theorem round?_mono (hsu : s ≤ u) (h : t.round? s = some (x, t₁)) : t.round? u = some (x, t₁) := by
  rw [round?_eq_some_iff] at h ⊢
  obtain ⟨id, p, hr, hle, ht⟩ := h
  exact ⟨id, p, hr, hle.trans hsu, ht⟩

theorem round?_eq_none_of_le (hsu : s ≤ u) (h : t.round? u = none) : t.round? s = none := by
  by_contra hne
  obtain ⟨_, hs⟩ := Option.ne_none_iff_exists'.1 hne
  rw [round?_mono hsu hs] at h
  cases h

theorem temporarySize_of_round? (h : t.round? now = some (x, t₁)) :
    t₁.temporarySize + 1 = t.temporarySize := by
  obtain ⟨id, p, hr, -, rfl⟩ := round?_eq_some_iff.1 h
  have hpos := Agenda.size_pos_of_root? hr
  simp only [temporarySize, expireRoot, countExpired, Agenda.size_forget, Agenda.size_eraseAt hpos]
  omega

theorem rounds_takeDue (t : Table ν) (now : Instant) :
    Rounds now t (t.takeDue now).1 (t.takeDue now).2 := by
  fun_induction takeDue t now with
  | case1 t id k v e p hr hle r ih =>
    exact .go (round?_eq_some_iff.2 ⟨id, p, hr, hle, rfl⟩) ih
  | case2 t id k v e p hr hle => exact .stop (by simp [round?, hr, hle])
  | case3 t hroot =>
    refine .stop ?_
    by_contra hne
    obtain ⟨_, hs⟩ := Option.ne_none_iff_exists'.1 hne
    obtain ⟨id, p, hr, -⟩ := round?_eq_some_iff.1 hs
    exact hroot _ _ _ _ _ hr

theorem Rounds.unique (h : Rounds now t xs t₁) (h' : Rounds now t ys t₂) : xs = ys ∧ t₁ = t₂ := by
  induction h generalizing ys with
  | stop hstop =>
    cases h' with
    | stop => exact ⟨rfl, rfl⟩
    | go hgo => simp [hstop] at hgo
  | go hgo _ ih =>
    cases h' with
    | stop hstop => simp [hstop] at hgo
    | go hgo' hr' =>
      rw [hgo, Option.some.injEq, Prod.mk.injEq] at hgo'
      obtain ⟨rfl, rfl⟩ := hgo'
      obtain ⟨rfl, rfl⟩ := ih hr'
      exact ⟨rfl, rfl⟩

theorem rounds_iff : Rounds now t xs t' ↔ t.takeDue now = (xs, t') := by
  constructor
  · intro h
    obtain ⟨hxs, ht⟩ := (rounds_takeDue t now).unique h
    exact Prod.ext hxs ht
  · intro h
    have hr := rounds_takeDue t now
    rwa [h] at hr

theorem Rounds.length_add (h : Rounds now t xs t') :
    xs.length + t'.temporarySize = t.temporarySize := by
  induction h with
  | stop => exact Nat.zero_add _
  | go h _ ih =>
    rw [List.length_cons, ← temporarySize_of_round? h, ← ih]
    omega

/-- `xs` are the entries of `t` that have ended by `now`, each once and in the order of their
ends. -/
structure ListsDue (t : Table ν) (now : Instant) (xs : List (Expired ν)) : Prop where
  nodup : xs.Nodup
  mem_iff : ∀ x, x ∈ xs ↔ t.get? x.key = some (x.value, .due x.due) ∧ x.due ≤ now
  sorted : xs.Pairwise (·.due ≤ ·.due)

theorem Drains.listsDue (h : Drains t now xs t') : ListsDue t now xs :=
  ⟨h.nodup.of_map, h.mem_iff, h.sorted⟩

/-- There is one order if no two of the entries end together. -/
theorem ListsDue.unique (h : ListsDue t now xs) (h' : ListsDue t now ys)
    (hdue : (xs.map (·.due)).Nodup) : xs = ys := by
  have hperm : xs.Perm ys := by
    rw [List.perm_ext_iff_of_nodup h.nodup h'.nodup]
    intro x
    rw [h.mem_iff, h'.mem_iff]
  refine hperm.eq_of_pairwise (fun x y hx hy hxy hyx => ?_) h.sorted h'.sorted
  exact List.inj_on_of_nodup_map hdue hx (hperm.mem_iff.2 hy) (Int.le_antisymm hxy hyx)

namespace Consistent

theorem round? (h : t.Consistent) (hr : t.round? now = some (x, t₁)) :
    t₁.Binds (Function.update t.get? x.key none) := by
  obtain ⟨id, p, hroot, -, rfl⟩ := round?_eq_some_iff.1 hr
  exact h.expireRoot hroot

theorem content?_of_round? (h : t.Consistent) (hr : t.round? now = some (x, t₁)) {id : Nat}
    {c : Entry ν × Deadline} (hc : t.agenda.content? id = some c)
    (hd : c.2.hasPassed now = false) : t₁.agenda.content? id = some c := by
  obtain ⟨r, p, hroot, hle, rfl⟩ := round?_eq_some_iff.1 hr
  rw [h.agenda_expireRoot hroot]
  refine ((h.agenda.unschedule_forget_touches r).content?_of_ne id ?_).trans hc
  rintro rfl
  rw [Agenda.content?_of_root? hroot, Option.some.injEq] at hc
  subst hc
  rw [(Deadline.hasPassed_due now x.due).2 hle] at hd
  cases hd

theorem content?_of_rounds (h : t.Consistent) (hr : Rounds now t xs t') {id : Nat}
    {c : Entry ν × Deadline} (hc : t.agenda.content? id = some c)
    (hd : c.2.hasPassed now = false) : t'.agenda.content? id = some c := by
  induction hr with
  | stop => exact hc
  | go hr _ ih => exact ih (h.round? hr).consistent (h.content?_of_round? hr hc hd)

theorem takeDue_untouched (h : t.Consistent) {id : Nat} {k : Key} {v : ν} {d : Deadline}
    (hc : t.agenda.content? id = some (⟨k, v⟩, d)) (hd : d.hasPassed now = false) :
    (t.takeDue now).2.agenda.content? id = some (⟨k, v⟩, d) ∧
      (t.takeDue now).2.index[k]? = some id ∧
      (t.takeDue now).2.agenda.isScheduled id = t.agenda.isScheduled id := by
  have h' := (h.takeDue now).binds.consistent
  have hc' := h.content?_of_rounds (rounds_takeDue t now) hc hd
  refine ⟨hc', (h'.index k id).2 ⟨v, d, hc'⟩, ?_⟩
  rw [Bool.eq_iff_iff, h'.scheduled id _ d hc', h.scheduled id _ d hc]

theorem lt_due_of_takeDue (h : t.Consistent) {k : Key} {v : ν} {e : Instant}
    (hk : (t.takeDue now).2.get? k = some (v, .due e)) : now < e := by
  rw [(h.takeDue now).binds.get?_eq, Option.filter_eq_some_iff] at hk
  simpa [Deadline.hasPassed] using hk.2

theorem lt_nextDue?_takeDue (h : t.Consistent) {e : Instant}
    (he : (t.takeDue now).2.nextDue? = some e) : now < e := by
  obtain ⟨⟨k, v, hk⟩, -⟩ := (h.takeDue now).binds.consistent.nextDue?_eq_some_iff.1 he
  exact h.lt_due_of_takeDue hk

end Consistent

/-- After every history and at every instant the rounds come to an end, with one round for each
entry that they take. These are the entries that have ended, each once, with its value and in the
order of the ends; that is one list if no two of them end together. What is left ends later, and
stays as it was. -/
theorem takeDue_exactly (cs : List (Command ν)) (now : Instant) :
    (∀ xs t', Rounds now (after cs) xs t' ↔ (after cs).takeDue now = (xs, t')) ∧
    ListsDue (after cs) now ((after cs).takeDue now).1 ∧
    ((((after cs).takeDue now).1.map (·.due)).Nodup →
      ∀ xs, ListsDue (after cs) now xs → xs = ((after cs).takeDue now).1) ∧
    (∀ e, ((after cs).takeDue now).2.nextDue? = some e → now < e) ∧
    (∀ id k v d, (after cs).agenda.content? id = some (⟨k, v⟩, d) → d.hasPassed now = false →
      ((after cs).takeDue now).2.agenda.content? id = some (⟨k, v⟩, d) ∧
        ((after cs).takeDue now).2.index[k]? = some id ∧
        ((after cs).takeDue now).2.agenda.isScheduled id = (after cs).agenda.isScheduled id) ∧
    (∀ k, ((after cs).takeDue now).2.get? k =
      ((after cs).get? k).filter fun b => !b.2.hasPassed now) ∧
    ((after cs).takeDue now).1.length + ((after cs).takeDue now).2.temporarySize =
      (after cs).temporarySize := by
  have h := consistent_after cs
  have hd := h.takeDue now
  refine ⟨fun _ _ => rounds_iff, hd.listsDue, fun hdue xs hxs => ?_,
    fun _ => h.lt_nextDue?_takeDue, fun _ _ _ _ => h.takeDue_untouched, hd.binds.get?_eq,
    (rounds_takeDue _ now).length_add⟩
  exact (hd.listsDue.unique hxs hdue).symm

/-- Entries that end at three instants, and one that never ends. -/
def staggered : List (Command Nat) :=
  [.putUntil "c" 3 (.due 30), .putUntil "b" 2 (.due 20), .put "d" 4, .putUntil "a" 1 (.due 10)]

theorem takeDue_exactly_staggered :
    ((after staggered).takeDue 20).1 = [⟨"a", 1, 10⟩, ⟨"b", 2, 20⟩] ∧
      (∀ xs, ListsDue (after staggered) 20 xs → xs = [⟨"a", 1, 10⟩, ⟨"b", 2, 20⟩]) ∧
      20 < (30 : Instant) ∧
      ((after staggered).takeDue 20).2.index["d"]? = (after staggered).index["d"]? := by
  have hxs : ((after staggered).takeDue 20).1 = [⟨"a", 1, 10⟩, ⟨"b", 2, 20⟩] := by decide +kernel
  have hnext : ((after staggered).takeDue 20).2.nextDue? = some 30 := by decide +kernel
  have hkept : (after staggered).get? "d" = some (4, .never) := by decide +kernel
  obtain ⟨-, -, hone, hlater, hleft, -⟩ := takeDue_exactly staggered 20
  obtain ⟨id, hid, hc⟩ := (consistent_after staggered).get?_eq_some_iff.1 hkept
  refine ⟨hxs, fun xs h => hxs ▸ hone ?_ xs h, hlater 30 hnext, ?_⟩
  · rw [hxs]
    decide
  · rw [hid]
    exact (hleft id "d" 4 .never hc rfl).2.1

theorem Rounds.append (hsu : s ≤ u) (h : Rounds s t xs t₁) (h' : Rounds u t₁ ys t₂) :
    Rounds u t (xs ++ ys) t₂ := by
  induction h with
  | stop => exact h'
  | go hgo _ ih => exact .go (round?_mono hsu hgo) (ih h')

theorem Rounds.stop_of_le (hsu : s ≤ u) (h : Rounds u t xs t') : Rounds s t' [] t' := by
  induction h with
  | stop hstop => exact .stop (round?_eq_none_of_le hsu hstop)
  | go _ _ ih => exact ih

theorem takeDue_eq_append (t : Table ν) (hsu : s ≤ u) :
    t.takeDue u = ((t.takeDue s).1 ++ ((t.takeDue s).2.takeDue u).1,
      ((t.takeDue s).2.takeDue u).2) :=
  rounds_iff.1 ((rounds_takeDue t s).append hsu (rounds_takeDue _ u))

theorem takeDue_takeDue (t : Table ν) (hsu : s ≤ u) :
    (t.takeDue u).2.takeDue s = ([], (t.takeDue u).2) :=
  rounds_iff.1 ((rounds_takeDue t u).stop_of_le hsu)

/-- What the calls at several instants take, one after the other. -/
def takeDueAt (t : Table ν) : List Instant → List (Expired ν) × Table ν
  | [] => ([], t)
  | s :: ss =>
    let r := (t.takeDue s).2.takeDueAt ss
    ((t.takeDue s).1 ++ r.1, r.2)

theorem takeDueAt_takeDue (t : Table ν) {ss : List Instant} (hle : ∀ s ∈ ss, s ≤ u) :
    (t.takeDue u).2.takeDueAt ss = ([], (t.takeDue u).2) := by
  induction ss with
  | nil => rfl
  | cons s ss ih =>
    rw [List.forall_mem_cons] at hle
    simp only [takeDueAt, t.takeDue_takeDue hle.1, ih hle.2, List.append_nil]

theorem takeDueAt_eq (t : Table ν) {ss : List Instant} (hu : u ∈ ss) (hle : ∀ s ∈ ss, s ≤ u) :
    t.takeDueAt ss = t.takeDue u := by
  induction ss generalizing t with
  | nil => cases hu
  | cons s ss ih =>
    rw [List.forall_mem_cons] at hle
    by_cases hss : u ∈ ss
    · rw [takeDueAt, ih _ hss hle.2, t.takeDue_eq_append hle.1]
    · obtain rfl := (List.mem_cons.1 hu).resolve_right hss
      rw [takeDueAt, t.takeDueAt_takeDue hle.2, List.append_nil]

/-- The first of two calls takes what has ended by then, the second takes the rest. -/
theorem Consistent.takeDue_eq_filter (h : t.Consistent) (hsu : s ≤ u) :
    (t.takeDue s).1 = (t.takeDue u).1.filter (·.due ≤ s) ∧
      ((t.takeDue s).2.takeDue u).1 = (t.takeDue u).1.filter (¬ ·.due ≤ s) := by
  have hs := h.takeDue s
  have hu := hs.binds.consistent.takeDue u
  have hfirst (x) (hx : x ∈ (t.takeDue s).1) : x.due ≤ s := ((hs.mem_iff x).1 hx).2
  have hrest (x) (hx : x ∈ ((t.takeDue s).2.takeDue u).1) : ¬ x.due ≤ s :=
    Int.not_le.2 (h.lt_due_of_takeDue ((hu.mem_iff x).1 hx).1)
  rw [t.takeDue_eq_append hsu, List.filter_append, List.filter_append]
  constructor
  · rw [List.filter_eq_self.2 (by simpa using hfirst),
      List.filter_eq_nil_iff.2 (by simpa using hrest), List.append_nil]
  · rw [List.filter_eq_nil_iff.2 (by simpa using hfirst),
      List.filter_eq_self.2 (by simpa using hrest), List.nil_append]

/-- After every history, two calls take what the later one would take alone, in the same order, and
leave the same table; the first takes what has ended by then, the second the rest. A call at an
earlier instant takes nothing more and changes nothing. So calls at any instants come to the same as
one call at the latest of them. -/
theorem takeDue_in_batches (cs : List (Command ν)) :
    (∀ s u, s ≤ u →
      (after cs).takeDue u =
          (((after cs).takeDue s).1 ++ (((after cs).takeDue s).2.takeDue u).1,
            (((after cs).takeDue s).2.takeDue u).2) ∧
        ((after cs).takeDue s).1 = ((after cs).takeDue u).1.filter (·.due ≤ s) ∧
        (((after cs).takeDue s).2.takeDue u).1 = ((after cs).takeDue u).1.filter (¬ ·.due ≤ s) ∧
        ((after cs).takeDue u).2.takeDue s = ([], ((after cs).takeDue u).2)) ∧
    ∀ ss u, u ∈ ss → (∀ s ∈ ss, s ≤ u) → (after cs).takeDueAt ss = (after cs).takeDue u := by
  refine ⟨fun s u hsu => ?_, fun ss u => takeDueAt_eq _⟩
  obtain ⟨hfirst, hrest⟩ := (consistent_after cs).takeDue_eq_filter hsu
  exact ⟨takeDue_eq_append _ hsu, hfirst, hrest, takeDue_takeDue _ hsu⟩

/-- Two entries that end together, and one that ends before them. -/
def paired : List (Command Nat) :=
  [.putUntil "b" 0 (.due 5), .putUntil "a" 1 (.due 5), .putUntil "c" 2 (.due 3)]

theorem takeDue_in_batches_paired :
    ((after paired).takeDue 5).1 = [⟨"c", 2, 3⟩, ⟨"b", 0, 5⟩, ⟨"a", 1, 5⟩] ∧
      (((after paired).takeDue 3).2.takeDue 5).1 = [⟨"b", 0, 5⟩, ⟨"a", 1, 5⟩] ∧
      (((after paired).takeDue 3).2.takeDue 5).2 = ((after paired).takeDue 5).2 ∧
      (after paired).takeDueAt [3, 4, 5, 4] = (after paired).takeDue 5 := by
  obtain ⟨htwo, hmany⟩ := takeDue_in_batches paired
  refine ⟨by decide +kernel, by decide +kernel, ?_, ?_⟩
  · rw [(htwo 3 5 (by decide)).1]
  · exact hmany [3, 4, 5, 4] 5 (by decide) (by decide)

end ExpiringMap.Table
