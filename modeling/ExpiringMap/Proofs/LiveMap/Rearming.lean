import ExpiringMap.Proofs.LiveMap.Additions
import ExpiringMap.Proofs.LiveMap.Handling
import ExpiringMap.Proofs.LiveMap.Ledger
import ExpiringMap.Proofs.LiveMap.Staffing
import ExpiringMap.Proofs.Table.Routes

namespace ExpiringMap

variable {ν : Type}

namespace Instant

theorem ceilMillis_ofMillis_add (ms : Int) (s : Span) :
    ceilMillis (ofMillis ms + s) = ms + ceilMillis s := by
  simp only [ceilMillis, ofMillis, Span.millisecond]
  lia

theorem ceilMillis_nonneg (s : Span) : 0 ≤ ceilMillis s := by
  simp only [ceilMillis, Span.millisecond]
  lia

end Instant

theorem Deadline.eq_add_of_ofSpan {now e : Instant} {ttl : Span} (h : ofSpan now ttl = due e) :
    e = now + ttl := by
  by_cases hnever : ttl = 0 ∨ Instant.horizon ≤ now + ttl
  · rw [ofSpan_eq_never hnever] at h
    cases h
  · rw [not_or, not_le] at hnever
    rw [ofSpan_eq_due hnever.1 hnever.2] at h
    exact (due.inj h).symm

namespace LiveMap

variable {m : LiveMap ν} {mv : Move ν} {k : Key} {r : Rearm ν} {x : Expired ν} {i : Nat}
  {s : Sweeper ν}

def rearm? (m : LiveMap ν) : Option (Rearm ν) := m.callback?.bind (·.rearm?)

/-- The calls of the script that is run when `k` is delivered. -/
def scriptFor (m : LiveMap ν) (k : Key) : List (Call ν) :=
  (m.callback?.bind (·.script? k)).getD []

/-- The call that puts an entry in again when it is delivered, if one does. -/
def rearmFor (m : LiveMap ν) (x : Expired ν) : List (Call ν) :=
  (m.callback?.bind (·.rearmCall? x.key x.value)).toList

/-- The calls of a move, but for those that put entries in again. -/
def callsBesides (m : LiveMap ν) : Move ν → List (Call ν)
  | .call c => [c]
  | .turn (.work i) =>
    match m.sweepers[i]?.bind (·.take?) with
    | some (x, _) => m.scriptFor x.key
    | none => []
  | _ => []

theorem callsFor_eq (m : LiveMap ν) (x : Expired ν) :
    m.callsFor x = m.scriptFor x.key ++ m.rearmFor x := by
  cases hc : m.callback? <;> simp [callsFor, scriptFor, rearmFor, hc]

theorem rearmFor_eq (hr : m.rearm? = some r) (x : Expired ν) :
    m.rearmFor x = ((r.next? x.value).map fun v => .putFor x.key v r.ttl).toList := by
  obtain ⟨c, hc, hr⟩ := Option.bind_eq_some_iff.1 hr
  simp [rearmFor, Callback.rearmCall?, hc, hr]

theorem key_of_mem_rearmFor {c : Call ν} (hc : c ∈ m.rearmFor x) (hk : c.touches k = true) :
    x.key = k := by
  obtain ⟨callback, -, hc⟩ := Option.bind_eq_some_iff.1 (Option.mem_toList.1 hc)
  obtain ⟨r, -, hc⟩ := Option.bind_eq_some_iff.1 hc
  obtain ⟨v, -, rfl⟩ := Option.map_eq_some_iff.1 hc
  simpa [Call.touches] using hk

theorem rearm?_move (m : LiveMap ν) (mv : Move ν) : (m.move mv).rearm? = m.rearm? := by
  unfold rearm?
  rcases callback?_move m mv with hc | ⟨j, hc⟩
  · rw [hc]
  · rw [hc, Option.bind_map]
    rfl

theorem exists_of_mem_made {e : Event ν} (he : e ∈ m.made mv) :
    ∃ i x s, mv = .turn (.work i) ∧ m.sweepers[i]?.bind (·.take?) = some (x, s) ∧ e.item = x ∧
      e.time = m.clock := by
  cases mv with
  | turn t =>
    cases t with
    | work i =>
      simp only [made] at he
      split at he
      · next x s ht =>
        cases hc : m.callback? with
        | none => simp [eventsFor, setSweeper, hc] at he
        | some c =>
          simp only [eventsFor, setSweeper, hc, List.mem_singleton] at he
          subst he
          exact ⟨i, x, s, rfl, ht, rfl, rfl⟩
      · cases he
    | hand | look | release => cases he
  | call | wait | leave | prune | report => cases he

theorem callsOf_work (ht : m.sweepers[i]?.bind (·.take?) = some (x, s)) :
    m.callsOf (.turn (.work i)) = m.scriptFor x.key ++ m.rearmFor x := by
  simp only [callsOf, ht]
  exact callsFor_eq m x

theorem made_of_take (ht : m.sweepers[i]?.bind (·.take?) = some (x, s)) (hc : m.callback?.isSome) :
    ∃ e, m.made (.turn (.work i)) = [e] ∧ e.item = x ∧ e.time = m.clock := by
  obtain ⟨c, hc⟩ := Option.isSome_iff_exists.1 hc
  simp only [made, ht, eventsFor, setSweeper, hc]
  exact ⟨_, rfl, rfl, rfl⟩

theorem not_touches (hbesides : ∀ c ∈ m.callsBesides mv, c.touches k = false)
    (hmade : ∀ e ∈ m.made mv, e.key ≠ k) : ¬ m.Touches k mv := by
  rintro ⟨c, hc, htouch⟩
  have hnot : c ∉ m.callsBesides mv := fun hmem => by
    rw [hbesides c hmem] at htouch
    cases htouch
  cases mv with
  | call c' => exact hnot hc
  | turn t =>
    cases t with
    | work i =>
      simp only [callsOf] at hc
      split at hc
      · next x s ht =>
        simp only [callsBesides, ht] at hnot
        rw [callsFor_eq, List.mem_append] at hc
        have hrearm := hc.resolve_left hnot
        have hsome : m.callback?.isSome = true := by
          cases hcb : m.callback? with
          | none => simp [rearmFor, hcb] at hrearm
          | some => rfl
        obtain ⟨e, he, rfl, -⟩ := made_of_take ht hsome
        exact hmade e (by rw [he]; exact List.mem_singleton_self e)
          (key_of_mem_rearmFor hrearm htouch)
      · cases hc
    | hand | look | release => cases hc
  | wait | leave | prune | report => cases hc

theorem Sound.get?_move (h : m.Sound) (hl : m.Lawful mv) (hnot : ¬ m.Touches k mv)
    (hstay : ∀ x ∈ m.taken mv, x.key ≠ k) : (m.move mv).table.get? k = m.table.get? k := by
  cases h.acted hl with
  | calls h₁ hsame ht =>
    rw [ht, h₁.get?_callAll (touches_eq_false hnot), hsame]
  | takes ht htaken =>
    have hd := h.consistent.takeDue m.now
    rw [ht, hd.binds.get?_eq]
    cases hk : m.table.get? k with
    | none => rfl
    | some b =>
      obtain ⟨v, d⟩ := b
      rw [Option.filter_eq_some_iff]
      refine ⟨rfl, ?_⟩
      cases d with
      | never => rfl
      | due e =>
        have hnotdue : ¬ e ≤ m.now := fun hle =>
          hstay ⟨k, v, e⟩ (by rw [htaken, hd.mem_iff]; exact ⟨hk, hle⟩) rfl
        simpa [Deadline.hasPassed] using hnotdue

theorem Steady.filter_taken (h : m.Steady) (hx : x ∈ m.taken mv) :
    (m.taken mv).filter (·.key = x.key) = [x] := by
  have hnodup : ((m.taken mv).map (·.key)).Nodup := by
    rcases m.taken_or_calls mv with ⟨htaken, -⟩ | ⟨hnone, -⟩
    · rw [htaken]
      exact (h.consistent.takeDue m.now).nodup
    · rw [hnone]
      exact List.nodup_nil
  have hfilter := (List.Nodup.of_map _ hnodup).filter fun y => decide (y.key = x.key)
  rw [← List.perm_singleton, List.perm_ext_iff_of_nodup hfilter (List.nodup_singleton x)]
  intro y
  rw [List.mem_filter, decide_eq_true_eq, List.mem_singleton]
  constructor
  · rintro ⟨hy, hkey⟩
    exact List.inj_on_of_nodup_map hnodup hy hx hkey
  · rintro rfl
    exact ⟨hx, rfl⟩

theorem taken_eq_nil_or_made_eq_nil (m : LiveMap ν) (mv : Move ν) :
    m.taken mv = [] ∨ m.made mv = [] := by
  cases mv with
  | turn t =>
    cases t with
    | work => exact .inl rfl
    | hand | look | release => exact .inr rfl
  | call | wait | leave | prune | report => exact .inl rfl

theorem filter_key_eq_nil {α : Type} {key : α → Key} {xs : List α} (h : ∀ x ∈ xs, key x ≠ k) :
    xs.filter (fun x => key x = k) = [] :=
  List.filter_eq_nil_iff.2 fun x hx => by simpa using h x hx

/-- What is in hand of one key, or taken out of it, is delivered or in hand afterwards. -/
theorem Steady.filter_inHand_move (h : m.Steady)
    (hworkers : ∀ s ∈ (m.move mv).sweepers, 0 < s.workers) (k : Key) :
    (m.inHand.filter (·.key = k) ++ (m.taken mv).filter (·.key = k)).Perm
      (((m.made mv).filter (·.key = k)).map Event.item ++
        (m.move mv).inHand.filter (·.key = k)) := by
  have hperm := (h.inHand_move hworkers).filter fun x => decide (x.key = k)
  rw [List.filter_append, List.filter_append, List.filter_map] at hperm
  exact hperm

/-- The map when a worker has taken an entry of `k` and its callback has made these calls. -/
def midway (m : LiveMap ν) (i : Nat) (s : Sweeper ν) (k : Key) (cs : List (Call ν)) : LiveMap ν :=
  (((m.setSweeper i s).spend k).callAll cs).1

theorem now_midway (cs : List (Call ν)) : (m.midway i s k cs).now = m.now := by
  rw [midway, now, now, clock_callAll]
  rfl

theorem table_midway (cs : List (Call ν)) :
    (m.midway i s k cs).table =
      (cs.filterMap (·.deed? m.now)).foldl Table.perform m.table :=
  table_callAll _ cs

theorem Sound.spend_take (h : m.Sound) (ht : m.sweepers[i]?.bind (·.take?) = some (x, s)) :
    ((m.setSweeper i s).spend k).Sound := by
  obtain ⟨s₀, hi, ht⟩ := Option.bind_eq_some_iff.1 ht
  exact (h.take hi ht).with_callback _ _

theorem Sound.get?_midway (h : m.Sound) (ht : m.sweepers[i]?.bind (·.take?) = some (x, s))
    {cs : List (Call ν)} (hcs : ∀ c ∈ cs, c.touches k = false) :
    (m.midway i s k cs).table.get? k = m.table.get? k :=
  (h.spend_take ht).get?_callAll hcs

theorem table_work (ht : m.sweepers[i]?.bind (·.take?) = some (x, s)) :
    (m.move (.turn (.work i))).table =
      ((m.midway i s x.key (m.scriptFor x.key)).callAll (m.rearmFor x)).1.table := by
  rw [move, turn, turn?_work, ht, midway, ← callAll_append, ← callsFor_eq]
  exact table_afterWork _ i x

/-- A delivered entry is bound to its next value, if it has one. -/
theorem Sound.get?_work (h : m.Sound) (hr : m.rearm? = some r)
    (ht : m.sweepers[i]?.bind (·.take?) = some (x, s))
    (hcs : ∀ c ∈ m.scriptFor x.key, c.touches x.key = false)
    (hk : m.table.get? x.key = none) :
    (m.move (.turn (.work i))).table.get? x.key =
      (r.next? x.value).map (·, .ofSpan m.now r.ttl) := by
  have hmid := (h.spend_take (k := x.key) ht).callAll (m.scriptFor x.key)
  rw [table_work ht, rearmFor_eq hr]
  cases hv : r.next? x.value with
  | none => exact (h.get?_midway ht hcs).trans hk
  | some v =>
    have hb := hmid.consistent.putUntil x.key v (.ofSpan m.now r.ttl)
    change ((m.midway i s x.key (m.scriptFor x.key)).watched.putUntil x.key v _).table.get? _ = _
    rw [now_midway, Watched.putUntil, Watched.table_note]
    exact (hb.get?_eq _).trans (Function.update_self ..)

theorem Sound.count_added_work (h : m.Sound) (hr : m.rearm? = some r)
    (ht : m.sweepers[i]?.bind (·.take?) = some (x, s))
    (hcs : ∀ c ∈ m.scriptFor x.key, c.touches x.key = false)
    (hk : m.table.get? x.key = none) :
    (m.added (.turn (.work i))).count x.key = (r.next? x.value).toList.length := by
  have hmid := (h.get?_midway ht hcs).trans hk
  change (m.table.addedIn ((m.callsOf (.turn (.work i))).filterMap (·.deed? m.now))).count _ = _
  rw [callsOf_work ht, List.filterMap_append, Table.addedIn_append, List.count_append,
    List.count_eq_zero_of_not_mem (not_mem_addedIn_calls m.now hcs), Nat.zero_add,
    ← table_midway (i := i) (s := s) (k := x.key), rearmFor_eq hr]
  cases r.next? x.value with
  | none => rfl
  | some v => cases hd : Deadline.ofSpan m.now r.ttl <;>
      simp [Call.deed?, Table.addedIn, Table.Deed.added, hmid]

theorem setsKey_work (hr : m.rearm? = some r)
    (ht : m.sweepers[i]?.bind (·.take?) = some (x, s)) {v : ν} (hv : r.next? x.value = some v) :
    m.setsKey x.key (.turn (.work i)) = true := by
  rw [setsKey, callsOf_work ht, rearmFor_eq hr, hv]
  simp [Call.sets]

end LiveMap

end ExpiringMap
