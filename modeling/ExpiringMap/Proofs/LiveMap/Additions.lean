import ExpiringMap.Proofs.LiveMap.Deliveries

namespace ExpiringMap

variable {ν : Type}

namespace Table

variable {t : Table ν} {k : Key}

/-- The keys that a deed adds. -/
def Deed.added (t : Table ν) : Deed ν → List Key
  | .command (.put k _) | .command (.putUntil k _ _) => if (t.get? k).isNone then [k] else []
  | _ => []

def addedIn (t : Table ν) : List (Deed ν) → List Key
  | [] => []
  | d :: ds => d.added t ++ (t.perform d).addedIn ds

theorem addedIn_append (t : Table ν) (ds ds' : List (Deed ν)) :
    t.addedIn (ds ++ ds') = t.addedIn ds ++ (ds.foldl perform t).addedIn ds' := by
  induction ds generalizing t with
  | nil => rfl
  | cons d ds ih =>
    rw [List.cons_append, addedIn, addedIn, ih, List.append_assoc]
    rfl

theorem Deed.length_added (t : Table ν) (d : Deed ν) :
    (d.added t).length = (d.tally t).added := by
  cases d with
  | eraseMany ks => rfl
  | command c =>
    cases c with
    | put k v => cases hk : t.get? k <;> simp [added, tally, Tally.ofBinding, hk]
    | putUntil k v deadline => cases hk : t.get? k <;> simp [added, tally, Tally.ofBinding, hk]
    | erase | clear | keep | reschedule | takeDue | get | contains | keys | values | visit =>
      rw [Deed.added_eq_zero fun _ => rfl]
      rfl

theorem Deed.not_mem_added {d : Deed ν} (hd : d.sets k = false) : k ∉ d.added t := by
  cases d with
  | eraseMany ks => simp [added]
  | command c =>
    cases c with
    | put j v | putUntil j v deadline =>
      have hne : j ≠ k := by simpa [sets] using hd
      simp only [added]
      split <;> simp [hne.symm]
    | erase | clear | keep | reschedule | takeDue | get | contains | keys | values | visit =>
      simp [added]

theorem not_mem_addedIn {ds : List (Deed ν)} (hds : ∀ d ∈ ds, d.sets k = false) :
    k ∉ t.addedIn ds := by
  induction ds generalizing t with
  | nil => simp [addedIn]
  | cons d ds ih =>
    rw [List.forall_mem_cons] at hds
    rw [addedIn, List.mem_append, not_or]
    exact ⟨Deed.not_mem_added hds.1, ih hds.2⟩

theorem Consistent.added_performAll {t : Table ν} (h : t.Consistent) (ds : List (Deed ν)) :
    (ds.foldl Table.perform t).tally.added = t.tally.added + (t.addedIn ds).length := by
  induction ds generalizing t with
  | nil => rfl
  | cons d ds ih =>
    have hone : (t.perform d).tally.added = t.tally.added + (d.added t).length := by
      rw [(h.books d).tally, Tally.added_add, Deed.length_added]
    rw [List.foldl_cons, ih (h.perform d), hone, addedIn, List.length_append, Nat.add_assoc]

end Table

theorem Call.touches_of_deed? {c : Call ν} {now : Instant} {d : Table.Deed ν} {k : Key}
    (hd : c.deed? now = some d) (hs : d.sets k = true) : c.touches k = true := by
  cases c <;> cases hd <;> first | exact hs | cases hs

namespace LiveMap

variable {m : LiveMap ν} {mv : Move ν} {k : Key}

def added (m : LiveMap ν) (mv : Move ν) : List Key := m.table.addedIn (m.deedsOf mv)

/-- The keys that are added in a course of moves, in order. -/
def addedIn (m : LiveMap ν) : List (Move ν) → List Key
  | [] => []
  | mv :: mvs => m.added mv ++ (m.move mv).addedIn mvs

theorem Steady.added_follow (h : m.Steady) (mvs : List (Move ν)) :
    (m.follow mvs).table.tally.added = m.table.tally.added + (m.addedIn mvs).length := by
  induction mvs generalizing m with
  | nil => rfl
  | cons mv mvs ih =>
    have hmove := h.consistent.added_performAll (m.deedsOf mv)
    rw [← table_move] at hmove
    have hrest := ih (h.move mv)
    rw [addedIn, List.length_append, added]
    change ((m.move mv).follow mvs).table.tally.added = _
    omega

theorem not_mem_addedIn_calls {t : Table ν} {cs : List (Call ν)} (now : Instant)
    (hk : ∀ c ∈ cs, c.touches k = false) : k ∉ t.addedIn (cs.filterMap (·.deed? now)) := by
  refine Table.not_mem_addedIn fun d hd => ?_
  obtain ⟨c, hc, hd⟩ := List.mem_filterMap.1 hd
  rw [Bool.eq_false_iff]
  intro hs
  have htouch := Call.touches_of_deed? hd hs
  rw [hk c hc] at htouch
  cases htouch

/-- Only a call adds a key. -/
theorem not_mem_added (hnot : ¬ m.Touches k mv) : k ∉ m.added mv := by
  have hcalls := touches_eq_false hnot
  cases mv with
  | turn t =>
    cases t with
    | look i =>
      refine Table.not_mem_addedIn fun d hd => ?_
      obtain ⟨-, rfl⟩ : _ ∧ d = .command (.takeDue m.now) := by
        simpa only [deedsOf, List.mem_ite_nil_right, List.mem_singleton] using hd
      rfl
    | hand | work | release => exact not_mem_addedIn_calls m.now hcalls
  | call | wait | leave | prune | report => exact not_mem_addedIn_calls m.now hcalls

end LiveMap

end ExpiringMap
