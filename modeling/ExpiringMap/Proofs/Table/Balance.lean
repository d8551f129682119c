import ExpiringMap.Proofs.Table.Answers
import ExpiringMap.Proofs.Table.Tallies

/-!
The books of a table over a whole history. Commands and removals of several keys at once are deeds;
each counts what it does to the bindings, once and no more, and at every point of a history the
counters add up to the number of entries.
-/

namespace ExpiringMap.Table

variable {ν : Type}

/-- What may be done to a table: a command, or the removal of several keys. -/
inductive Deed (ν : Type) where
  | command (c : Command ν)
  | eraseMany (ks : List Key)

def perform (t : Table ν) : Deed ν → Table ν
  | .command c => (t.apply c).2
  | .eraseMany ks => (t.eraseMany ks).1

def done (ds : List (Deed ν)) : Table ν := ds.foldl perform {}

namespace Deed

def sets (k : Key) : Deed ν → Bool
  | .command (.put j _) | .command (.putUntil j _ _) => j = k
  | _ => false

def removes : Deed ν → Bool
  | .command (.erase _) | .eraseMany _ => true
  | .command (.reschedule _ deadline now) => deadline.hasPassed now
  | _ => false

def expired (t : Table ν) : Deed ν → List (Expired ν)
  | .command (.takeDue now) => (t.takeDue now).1
  | _ => []

def dropped (t : Table ν) : Deed ν → Nat
  | .command .clear => t.size
  | _ => 0

/-- What a deed counts. -/
def tally (t : Table ν) : Deed ν → Tally
  | .command (.put k _) => .ofBinding ((t.get? k).map (·.2)) .never
  | .command (.putUntil k _ deadline) => .ofBinding ((t.get? k).map (·.2)) deadline
  | .command (.erase k) => { removed := (t.erase k).2.toNat }
  | .command (.keep k) => .ofChange ((t.get? k).map (·.2)) .never
  | .command (.reschedule k deadline now) =>
    if deadline.hasPassed now then { removed := (t.get? k).isSome.toNat }
    else .ofChange ((t.get? k).map (·.2)) deadline
  | .command (.takeDue now) => { expired := (t.takeDue now).1.length }
  | .eraseMany ks => { removed := (t.eraseMany ks).2 }
  | _ => {}

end Deed

def droppedIn (t : Table ν) : List (Deed ν) → Nat
  | [] => 0
  | d :: ds => d.dropped t + (t.perform d).droppedIn ds

namespace Consistent

variable {t : Table ν} (h : t.Consistent)

include h

theorem perform (d : Deed ν) : (t.perform d).Consistent := by
  cases d with
  | command c => exact h.apply c
  | eraseMany ks => exact (h.eraseMany ks).consistent

omit h in
theorem performAll {t : Table ν} (h : t.Consistent) (ds : List (Deed ν)) :
    (ds.foldl Table.perform t).Consistent := by
  induction ds generalizing t with
  | nil => exact h
  | cons d ds ih => exact ih (h.perform d)

theorem books (d : Deed ν) : Books t (t.perform d) (d.tally t) (d.dropped t) := by
  cases d with
  | eraseMany ks => exact h.books_eraseMany ks
  | command c =>
    cases c with
    | put k v => exact h.books_put k v
    | putUntil k v deadline => exact h.books_putUntil k v deadline
    | erase k => exact h.books_erase k
    | clear => exact books_clear t
    | keep k => exact h.books_keep k
    | reschedule k deadline now => exact h.books_reschedule k deadline now
    | takeDue now => exact h.books_takeDue now
    | get | contains | keys | values | visit => exact .refl t

omit h in
theorem books_performAll {t : Table ν} (h : t.Consistent) (ds : List (Deed ν)) :
    ∃ a, Books t (ds.foldl Table.perform t) a (t.droppedIn ds) := by
  induction ds generalizing t with
  | nil => exact ⟨_, .refl t⟩
  | cons d ds ih =>
    obtain ⟨a, ha⟩ := ih (h.perform d)
    exact ⟨_, (h.books d).trans ha⟩

end Consistent

/-- A counter goes from `m` to `n`: up by one if `p` comes about, and else it stays. -/
def Counted (p : Prop) (m n : Nat) : Prop := p ∧ n = m + 1 ∨ ¬ p ∧ n = m

theorem counted_add {p q : Prop} [Decidable q] (h : p ↔ q) (m : Nat) :
    Counted p m (m + if q then 1 else 0) := by
  by_cases hq : q
  · exact .inl ⟨h.2 hq, by rw [if_pos hq]⟩
  · exact .inr ⟨mt h.1 hq, by rw [if_neg hq]; rfl⟩

theorem counted_of_not {p : Prop} (h : ¬ p) (m : Nat) : Counted p m m := .inr ⟨h, rfl⟩

theorem Counted.le {p : Prop} {m n : Nat} (h : Counted p m n) : m ≤ n ∧ n ≤ m + 1 := by
  rcases h with h | h <;> omega

/-- Whether `k` is there for good. -/
def IsPermanent (t : Table ν) (k : Key) : Prop := ∃ v, t.get? k = some (v, .never)

/-- Some key is there for good in `t'`, and was absent or to end in `t`. -/
def Settles (t t' : Table ν) : Prop := ∃ k, t'.IsPermanent k ∧ ¬ t.IsPermanent k

/-- What a deed counts, in terms of the bindings before and after it. -/
structure Audited (t : Table ν) (d : Deed ν) : Prop where
  added : Counted (∃ k, d.sets k = true ∧ t.get? k = none) t.tally.added (t.perform d).tally.added
  permanent : Counted (t.Settles (t.perform d)) t.tally.permanent (t.perform d).tally.permanent
  /-- As many are counted as removed as are gone. -/
  removed : d.removes = true →
    (t.perform d).tally.removed + (t.perform d).size = t.tally.removed + t.size
  not_removed : d.removes = false → (t.perform d).tally.removed = t.tally.removed
  /-- To remove several keys answers how many are gone, however often a key is named. -/
  answer : ∀ ks, d = .eraseMany ks →
    (t.perform d).tally.removed = t.tally.removed + (t.eraseMany ks).2
  expired : (t.perform d).tally.expired = t.tally.expired + (d.expired t).length
  grows : t.tally.added ≤ (t.perform d).tally.added ∧
    t.tally.removed ≤ (t.perform d).tally.removed ∧
    t.tally.expired ≤ (t.perform d).tally.expired ∧
    t.tally.permanent ≤ (t.perform d).tally.permanent

variable {t t' : Table ν}

theorem not_settles (h : ∀ k v, t'.get? k = some (v, .never) → t.get? k = some (v, .never)) :
    ¬ t.Settles t' := by
  rintro ⟨k, ⟨v, hk⟩, hnot⟩
  exact hnot ⟨v, h k v hk⟩

theorem isPermanent_iff {k : Key} :
    t.IsPermanent k ↔ (t.get? k).map (·.2) = some .never := by
  simp [IsPermanent]

theorem settles_update_iff {k : Key} {v : ν} {d : Deadline}
    (hb : t'.Binds (Function.update t.get? k (some (v, d)))) :
    t.Settles t' ↔ d = .never ∧ (t.get? k).map (·.2) ≠ some .never := by
  have hother (j : Key) (hj : j ≠ k) : t'.IsPermanent j ↔ t.IsPermanent j := by
    rw [IsPermanent, IsPermanent, hb.get?_eq, Function.update_of_ne hj]
  have hself : t'.IsPermanent k ↔ d = .never := by
    simp [isPermanent_iff, hb.get?_eq]
  rw [← hself, ne_eq, ← isPermanent_iff]
  constructor
  · rintro ⟨j, hj, hnot⟩
    by_cases hjk : j = k
    · exact hjk ▸ ⟨hj, hnot⟩
    · exact absurd ((hother j hjk).1 hj) hnot
  · exact fun hk => ⟨k, hk⟩

theorem not_settles_of_binds {f : Key → Option (ν × Deadline)} (hb : t'.Binds f)
    (h : ∀ k v, f k = some (v, .never) → t.get? k = some (v, .never)) : ¬ t.Settles t' :=
  not_settles fun k v hk => h k v ((hb.get?_eq k).symm.trans hk)

theorem not_settles_update {k : Key} (hb : t'.Binds (Function.update t.get? k none)) :
    ¬ t.Settles t' := by
  refine not_settles_of_binds hb fun j v hj => ?_
  by_cases hjk : j = k
  · subst hjk
    simp at hj
  · rwa [Function.update_of_ne hjk] at hj

theorem counted_permanent_of_binds {k : Key} {v : ν} {d : Deadline}
    (hb : t'.Binds (Function.update t.get? k (some (v, d)))) (n : Nat) :
    Counted (t.Settles t') n (n + (Tally.ofBinding ((t.get? k).map (·.2)) d).permanent) :=
  counted_add (settles_update_iff hb) n

theorem counted_permanent_of_change {k : Key} {d : Deadline}
    (hb : t'.Binds (Function.update t.get? k ((t.get? k).map fun b => (b.1, d)))) (n : Nat) :
    Counted (t.Settles t') n (n + (Tally.ofChange ((t.get? k).map (·.2)) d).permanent) := by
  cases hk : t.get? k with
  | none =>
    rw [hk] at hb
    rw [Option.map_none, Tally.ofChange_none]
    exact counted_of_not (not_settles_update hb) n
  | some b =>
    rw [hk] at hb
    have hcount := counted_permanent_of_binds hb n
    rwa [hk, Option.map_some, Tally.ofBinding_some] at hcount

namespace Deed

theorem added_eq_zero {d : Deed ν} (hd : ∀ k, d.sets k = false) : (d.tally t).added = 0 := by
  cases d with
  | eraseMany ks => rfl
  | command c =>
    cases c with
    | put | putUntil => simp [sets] at hd
    | reschedule k deadline now =>
      simp only [tally]
      split <;> rfl
    | erase | clear | keep | takeDue | get | contains | keys | values | visit => rfl

theorem expired_tally (d : Deed ν) : (d.tally t).expired = (d.expired t).length := by
  cases d with
  | eraseMany ks => rfl
  | command c =>
    cases c with
    | reschedule k deadline now =>
      simp only [tally]
      split <;> rfl
    | put | putUntil | erase | clear | keep | takeDue | get | contains | keys | values | visit =>
      rfl

theorem removed_tally (d : Deed ν) :
    if d.removes then (d.tally t).added = 0 ∧ (d.expired t).length = 0 ∧ d.dropped t = 0
    else (d.tally t).removed = 0 := by
  cases d with
  | eraseMany ks => exact ⟨rfl, rfl, rfl⟩
  | command c =>
    cases c with
    | erase k => exact ⟨rfl, rfl, rfl⟩
    | reschedule k deadline now =>
      simp only [tally, removes]
      split
      · exact ⟨rfl, rfl, rfl⟩
      · rfl
    | put | putUntil | keep | clear | takeDue | get | contains | keys | values | visit => rfl

end Deed

namespace Consistent

variable (h : t.Consistent)

include h

theorem counted_added (d : Deed ν) :
    Counted (∃ k, d.sets k = true ∧ t.get? k = none) t.tally.added
      (t.perform d).tally.added := by
  rw [(h.books d).tally, Tally.added_add]
  by_cases hd : ∀ k, d.sets k = false
  · rw [Deed.added_eq_zero hd]
    exact counted_of_not (by simp [hd]) _
  · unfold Deed.sets at hd ⊢
    split at hd
    · exact counted_add (by simp) _
    · exact counted_add (by simp) _
    · simp at hd

theorem counted_permanent_reschedule (k : Key) (deadline : Deadline) (now : Instant) (n : Nat) :
    Counted (t.Settles (t.perform (.command (.reschedule k deadline now)))) n
      (n + ((Deed.command (.reschedule k deadline now)).tally t).permanent) := by
  have hb := h.reschedule k deadline now
  simp only [Deed.tally]
  split
  · next hpassed =>
    -- A key that would have ended already is removed.
    have hnone : ((t.get? k).bind fun b =>
        if deadline.hasPassed now then none else some (b.1, deadline)) = none := by
      simp [hpassed]
    rw [hnone] at hb
    exact counted_of_not (not_settles_update hb) n
  · next hahead =>
    simp only [hahead, Bool.false_eq_true, if_false] at hb
    refine counted_permanent_of_change ?_ n
    rw [Option.map_eq_bind]
    exact hb

theorem counted_permanent (d : Deed ν) :
    Counted (t.Settles (t.perform d)) t.tally.permanent (t.perform d).tally.permanent := by
  rw [(h.books d).tally, Tally.permanent_add]
  cases d with
  | eraseMany ks =>
    refine counted_of_not (not_settles_of_binds (h.eraseMany ks) fun k v hk => ?_) _
    split at hk
    · cases hk
    · exact hk
  | command c =>
    cases c with
    | put k v => exact counted_permanent_of_binds (h.put k v) _
    | putUntil k v deadline => exact counted_permanent_of_binds (h.putUntil k v deadline) _
    | keep k => exact counted_permanent_of_change (h.keep k) _
    | reschedule k deadline now => exact h.counted_permanent_reschedule k deadline now _
    | erase k => exact counted_of_not (not_settles_update (h.erase k)) _
    | clear =>
      refine counted_of_not (not_settles_of_binds (binds_clear t) fun k v hk => ?_) _
      cases hk
    | takeDue now =>
      refine counted_of_not (not_settles_of_binds (h.takeDue now).binds fun k v hk => ?_) _
      exact (Option.filter_eq_some_iff.1 hk).1
    | get | contains | keys | values | visit =>
      exact counted_of_not (not_settles fun _ _ hk => hk) _

theorem audited (d : Deed ν) : t.Audited d where
  added := h.counted_added d
  permanent := h.counted_permanent d
  removed hd := by
    have hb := h.books d
    have hexpired := d.expired_tally (t := t)
    have hzero := d.removed_tally (t := t)
    rw [if_pos hd] at hzero
    have hsize := hb.size
    rw [hb.tally, Tally.removed_add]
    omega
  not_removed hd := by
    have hzero := d.removed_tally (t := t)
    rw [if_neg (by simp [hd])] at hzero
    rw [(h.books d).tally, Tally.removed_add, hzero]
    rfl
  answer ks hd := by
    subst hd
    rw [(h.books _).tally]
    rfl
  expired := by rw [(h.books d).tally, Tally.expired_add, Deed.expired_tally]
  grows := by
    rw [(h.books d).tally]
    exact ⟨Nat.le_add_right _ _, Nat.le_add_right _ _, Nat.le_add_right _ _, Nat.le_add_right _ _⟩

end Consistent

theorem consistent_done (ds : List (Deed ν)) : (done ds).Consistent :=
  consistent_empty.performAll ds

/-- The statistics of a table account for each of its keys, and for what is gone. -/
structure Balanced (t : Table ν) (dropped : Nat) : Prop where
  added_eq : t.statistics.added =
    t.statistics.removed + t.statistics.expired + t.statistics.current + dropped
  current_eq : t.statistics.current = t.keys.length
  nodup_keys : t.keys.Nodup
  mem_keys_iff : ∀ k, k ∈ t.keys ↔ (t.get? k).isSome = true

theorem balanced_done (ds : List (Deed ν)) :
    (done ds).Balanced (({} : Table ν).droppedIn ds) where
  added_eq := by
    obtain ⟨a, ha⟩ := consistent_empty.books_performAll ds
    have hsize : (done ds).size + a.removed + a.expired + _ = 0 + a.added := ha.size
    have htally : (done ds).tally = ({} : Tally) + a := ha.tally
    simp only [statistics, htally, Tally.added_add, Tally.removed_add, Tally.expired_add]
    omega
  current_eq := Std.ExtTreeMap.length_keys.symm
  nodup_keys := Std.ExtTreeMap.nodup_keys
  mem_keys_iff k := by
    rw [← (consistent_done ds).contains_eq, keys, Std.ExtTreeMap.mem_keys, contains,
      Std.ExtTreeMap.contains_iff_mem]

/-- What names `k` and asks for it to be there does nothing, and answers that it is not. -/
structure Unmoved (t : Table ν) (k : Key) : Prop where
  erase : t.erase k = (t, false)
  keep : t.keep k = (t, false)
  reschedule : ∀ d now, t.reschedule k d now = (t, false, .behind)

theorem unmoved_of_absent {k : Key} (hk : t.get? k = none) : t.Unmoved k := by
  rw [← find?_eq_none_iff] at hk
  constructor
  · simp [Table.erase, hk]
  · simp [Table.keep, hk]
  · simp [Table.reschedule, hk]

/-- No deed counts more than one entry as added, or as permanent. -/
theorem Consistent.tally_performAll_le {t : Table ν} (h : t.Consistent) (ds : List (Deed ν)) :
    (ds.foldl Table.perform t).tally.added ≤ t.tally.added + ds.length ∧
      (ds.foldl Table.perform t).tally.permanent ≤ t.tally.permanent + ds.length := by
  induction ds generalizing t with
  | nil => exact ⟨le_rfl, le_rfl⟩
  | cons d ds ih =>
    have hadded := (h.audited d).added.le
    have hpermanent := (h.audited d).permanent.le
    have hrest := ih (h.perform d)
    rw [List.foldl_cons, List.length_cons]
    omega

end ExpiringMap.Table
