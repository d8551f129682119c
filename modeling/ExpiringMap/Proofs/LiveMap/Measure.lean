import ExpiringMap.Proofs.LiveMap.Sound

namespace ExpiringMap

variable {ν : Type}

namespace Sweeper

/-- What one sweeper contributes to the turns left. -/
def weight (now : Instant) (s : Sweeper ν) : Nat :=
  4 * s.batch.length + 3 * s.queued.length + s.phaseTurns now

theorem queued_phase (s : Sweeper ν) (p : Phase ν) :
    ({ s with phase := p } : Sweeper ν).queued = s.queued := rfl

section

variable {s : Sweeper ν} (now : Instant)

theorem weight_looking (hp : s.phase = .looking) : s.weight now = 3 * s.queued.length + 1 := by
  simp [weight, batch, phaseTurns, hp]

theorem weight_handing {x : Expired ν} {rest : List (Expired ν)}
    (hp : s.phase = .handing x rest) :
    s.weight now = 4 * (rest.length + 1) + 3 * s.queued.length + 1 := by
  simp [weight, batch, phaseTurns, hp]

theorem weight_waiting {alarm? : Option Instant} (hp : s.phase = .waiting alarm?) :
    s.weight now = 3 * s.queued.length + if s.leaving ∨ alarm?.any (· ≤ now) then 2 else 0 := by
  simp [weight, batch, phaseTurns, hp]

theorem weight_done (hp : s.phase = .done) : s.weight now = 3 * s.queued.length := by
  simp [weight, batch, phaseTurns, hp]

end

theorem turnsLeft_cons (now : Instant) (s : Sweeper ν) (ss : List (Sweeper ν)) :
    turnsLeft now (s :: ss) = s.weight now + turnsLeft now ss := rfl

theorem turnsLeft_set (now : Instant) {ss : List (Sweeper ν)} {i : Nat} {s : Sweeper ν}
    (hi : ss[i]? = some s) (s' : Sweeper ν) :
    turnsLeft now (ss.set i s') + s.weight now = turnsLeft now ss + s'.weight now := by
  induction ss generalizing i with
  | nil => cases hi
  | cons s₀ ss ih =>
    cases i with
    | zero =>
      cases hi
      rw [List.set_cons_zero, turnsLeft_cons, turnsLeft_cons]
      omega
    | succ i =>
      have := ih hi
      rw [List.set_cons_succ, turnsLeft_cons, turnsLeft_cons]
      omega

theorem turnsLeft_append (now : Instant) (ss ss' : List (Sweeper ν)) :
    turnsLeft now (ss ++ ss') = turnsLeft now ss + turnsLeft now ss' := by
  induction ss with
  | nil => simp [turnsLeft]
  | cons s ss ih =>
    rw [List.cons_append, turnsLeft_cons, turnsLeft_cons, ih]
    omega

theorem weight_loseWorker_le (now : Instant) (s : Sweeper ν) :
    s.loseWorker.weight now ≤ s.weight now := by
  have hq : s.loseWorker.queued.length ≤ s.queued.length := by
    cases ho : s.outbox? with
    | none => simp [loseWorker, queued, ho]
    | some o => simpa [loseWorker, queued, ho] using o.length_loseWorker
  have hb : s.loseWorker.batch = s.batch := rfl
  have hp : s.loseWorker.phaseTurns now = s.phaseTurns now := rfl
  simp only [weight, hb, hp]
  omega

theorem turnsLeft_modify_le (now : Instant) (ss : List (Sweeper ν)) (i : Nat) :
    turnsLeft now (ss.modify i (·.loseWorker)) ≤ turnsLeft now ss := by
  induction ss generalizing i with
  | nil => simp
  | cons s ss ih =>
    cases i with
    | zero =>
      have := s.weight_loseWorker_le now
      rw [List.modify_zero_cons, turnsLeft_cons, turnsLeft_cons]
      omega
    | succ i =>
      have := ih i
      rw [List.modify_succ_cons, turnsLeft_cons, turnsLeft_cons]
      omega

theorem lt_of_alarm? {t : Table ν} (h : t.Consistent) {now a : Instant} {idlePoll : Span}
    (hp : 0 < idlePoll) (hdue : (t.takeDue now).1 = []) (ha : alarm? t now idlePoll = some a) :
    now < a := by
  rcases Option.or_eq_some_iff.1 ha with hn | ⟨-, hl⟩
  · obtain ⟨⟨k, v, hk⟩, -⟩ := h.nextDue?_eq_some_iff.1 hn
    have hnot := h.takeDue_eq_nil_iff.1 hdue k v _ hk
    rw [Bool.eq_false_iff, ne_eq, Deadline.hasPassed_due] at hnot
    exact Int.not_le.1 hnot
  · unfold Instant.later? at hl
    split at hl
    · cases hl
      exact Int.lt_add_of_pos_right _ (Int.natCast_pos.2 hp)
    · cases hl

theorem any_alarm?_eq_false {t : Table ν} (h : t.Consistent) {now : Instant} {idlePoll : Span}
    (hp : 0 < idlePoll) (hdue : (t.takeDue now).1 = []) :
    (alarm? t now idlePoll).any (· ≤ now) = false := by
  cases ha : alarm? t now idlePoll with
  | none => rfl
  | some a => simpa using lt_of_alarm? h hp hdue ha

end Sweeper

theorem Callback.scriptedCalls_spend (c : Callback ν) (k : Key) :
    (c.spend k).scriptedCalls + ((c.script? k).getD []).length = c.scriptedCalls := by
  unfold spend script? scriptedCalls
  induction c.scripts with
  | nil => rfl
  | cons p ps ih =>
    obtain ⟨j, cs⟩ := p
    by_cases hjk : j = k
    · subst hjk
      simp [Nat.add_comm]
    · have hkj : (k == j) = false := by simpa using Ne.symm hjk
      have hjk' : (j == k) = false := by simpa using hjk
      simp only [List.lookup_cons, List.eraseP_cons, hkj, hjk', List.flatMap_cons,
        List.length_append, cond_false] at ih ⊢
      omega

namespace LiveMap

/-- The turns that entries and sweepers call for, callbacks and the permit aside. -/
def load (m : LiveMap ν) : Nat := 5 * m.table.dueCount m.now + Sweeper.turnsLeft m.now m.sweepers

theorem turnsLeft_eq (m : LiveMap ν) :
    m.turnsLeft = 6 * (m.callback?.map (·.scriptedCalls)).getD 0 + m.load +
      2 * m.watched.permit.toNat := by
  rw [turnsLeft, load]
  omega

variable {m : LiveMap ν}

theorem load_start_le (m : LiveMap ν) : m.start.load ≤ m.load + 5 := by
  unfold start
  split
  · omega
  · have hw : m.newSweeper.weight m.now = 1 := by
      cases hc : m.callback? <;> simp [newSweeper, Sweeper.weight, Sweeper.batch, Sweeper.queued,
        Sweeper.phaseTurns, hc]
    have hl : Sweeper.turnsLeft m.now (m.sweepers ++ [m.newSweeper]) =
        Sweeper.turnsLeft m.now m.sweepers + 1 := by
      rw [Sweeper.turnsLeft_append, Sweeper.turnsLeft_cons, hw]
      rfl
    have hload : ({ m with sweepers := m.sweepers ++ [m.newSweeper] } : LiveMap ν).load =
        5 * m.table.dueCount m.now + Sweeper.turnsLeft m.now (m.sweepers ++ [m.newSweeper]) := rfl
    rw [hload, hl, load]
    omega

theorem load_watched_le {w : Watched ν} {n : Nat}
    (h : w.table.dueCount m.now ≤ m.table.dueCount m.now + n) :
    ({ m with watched := w } : LiveMap ν).load ≤ m.load + 5 * n := by
  have hload : ({ m with watched := w } : LiveMap ν).load =
      5 * w.table.dueCount m.now + Sweeper.turnsLeft m.now m.sweepers := rfl
  rw [hload, load]
  omega

theorem turnsLeft_loseWorker_le (m : LiveMap ν) (i : Nat) :
    (m.loseWorker i).turnsLeft ≤ m.turnsLeft := by
  have hmod := Sweeper.turnsLeft_modify_le m.now m.sweepers i
  have heq : (m.loseWorker i).load = 5 * m.table.dueCount m.now +
      Sweeper.turnsLeft m.now (m.sweepers.modify i (·.loseWorker)) := rfl
  rw [turnsLeft_eq, turnsLeft_eq m, heq, load]
  exact Nat.add_le_add_right (Nat.add_le_add_left (Nat.add_le_add_left hmod _) _) _

theorem turnsLeft_setSweeper (m : LiveMap ν) (w : Watched ν) {i : Nat} {s : Sweeper ν}
    (hi : m.sweepers[i]? = some s) (s' : Sweeper ν) :
    ({ m with watched := w }.setSweeper i s').turnsLeft + s.weight m.now +
        5 * m.table.dueCount m.now + 2 * m.watched.permit.toNat =
      m.turnsLeft + s'.weight m.now + 5 * w.table.dueCount m.now + 2 * w.permit.toNat := by
  have hset := Sweeper.turnsLeft_set m.now hi s'
  have heq : ({ m with watched := w }.setSweeper i s').turnsLeft =
      6 * (m.callback?.map (·.scriptedCalls)).getD 0 + 5 * w.table.dueCount m.now +
        2 * w.permit.toNat + Sweeper.turnsLeft m.now (m.sweepers.set i s') := rfl
  rw [heq, turnsLeft]
  omega

/-- One sweeper and the watched table change, and what they call for together becomes less. -/
theorem turnsLeft_setSweeper_lt {i : Nat} {s s' : Sweeper ν} {w : Watched ν}
    (hi : m.sweepers[i]? = some s)
    (h : 5 * w.table.dueCount m.now + s'.weight m.now + 2 * w.permit.toNat <
      5 * m.watched.table.dueCount m.now + s.weight m.now + 2 * m.watched.permit.toNat) :
    ({ m with watched := w }.setSweeper i s').turnsLeft < m.turnsLeft := by
  have hset := m.turnsLeft_setSweeper w hi s'
  rw [table] at hset
  omega

theorem turnsLeft_hand_lt {i : Nat} {s s' : Sweeper ν} (hi : m.sweepers[i]? = some s)
    (hh : s.hand? = some s') : (m.setSweeper i s').turnsLeft < m.turnsLeft := by
  obtain ⟨x, rest, hp, hh⟩ := Sweeper.hand?_cases hh
  have hs := Sweeper.weight_handing m.now hp
  refine turnsLeft_setSweeper_lt (w := m.watched) hi ?_
  cases hh with
  | @accepted o ho hw hroom =>
    have hq := Sweeper.queued_of_outbox? ho
    cases rest with
    | nil =>
      rw [hs, Sweeper.weight_looking _ rfl, hq]
      simp only [Sweeper.queued, List.length_append, List.length_singleton, List.length_nil]
      omega
    | cons y rest =>
      rw [hs, Sweeper.weight_handing _ rfl, hq]
      simp only [Sweeper.queued, List.length_append, List.length_cons, List.length_nil]
      omega
  | lost =>
    rw [hs, Sweeper.weight_looking _ rfl]
    simp only [Sweeper.queued, List.length_nil]
    omega

theorem turnsLeft_release_lt {i : Nat} {r : Release} {s s' : Sweeper ν} {w : Watched ν}
    (hi : m.sweepers[i]? = some s) (hr : s.release? m.now m.watched r = some (w, s')) :
    ({ m with watched := w }.setSweeper i s').turnsLeft < m.turnsLeft := by
  obtain ⟨alarm?, hp, hr⟩ := Sweeper.release?_cases hr
  have hs := Sweeper.weight_waiting m.now hp
  refine turnsLeft_setSweeper_lt hi ?_
  cases r with
  | leave =>
    obtain ⟨hlv, rfl, rfl⟩ := hr
    rw [if_pos (.inl hlv)] at hs
    rw [hs, Sweeper.weight_done _ rfl, Sweeper.queued_phase]
    omega
  | wake =>
    obtain ⟨hw, rfl, rfl⟩ := hr
    simp only [hs, Sweeper.weight_looking, Sweeper.queued_phase, hw, Bool.toNat_true,
      Bool.toNat_false]
    omega
  | timer =>
    obtain ⟨t, rfl, ht, rfl, rfl⟩ := hr
    rw [if_pos (.inr (by simpa using ht))] at hs
    rw [hs, Sweeper.weight_looking _ rfl, Sweeper.queued_phase]
    omega

theorem consistent_call (h : m.table.Consistent) (c : Call ν) :
    (m.call c).1.table.Consistent := by
  cases hs : c.isStart with
  | true =>
    rw [call_start hs, start]
    split <;> exact h
  | false =>
    rw [call_make hs]
    exact (Watched.changes_make h m.now c).consistent

theorem consistent_callAll (h : m.table.Consistent) (cs : List (Call ν)) :
    (m.callAll cs).1.table.Consistent := by
  induction cs generalizing m with
  | nil => exact h
  | cons c cs ih => exact ih (consistent_call h c)

/-- A call adds one entry that is due, or one sweeper, and either is no more than five turns. -/
theorem load_call_le (h : m.table.Consistent) (c : Call ν) : (m.call c).1.load ≤ m.load + 5 := by
  cases hs : c.isStart with
  | true =>
    rw [call_start hs]
    exact load_start_le m
  | false =>
    rw [call_make hs]
    exact load_watched_le ((Watched.changes_make h m.now c).dueCount_le m.now)

theorem load_callAll_le (h : m.table.Consistent) (cs : List (Call ν)) :
    (m.callAll cs).1.load ≤ m.load + 5 * cs.length := by
  induction cs generalizing m with
  | nil => exact Nat.le_refl _
  | cons c cs ih =>
    have hcall := load_call_le h c
    have hrest := ih (consistent_call h c)
    rw [callAll, List.length_cons]
    simp only at hrest ⊢
    omega

theorem load_putFor_le (h : m.table.Consistent) (k : Key) (v : ν) (ttl : Span) :
    (m.call (.putFor k v ttl)).1.load ≤ m.load := by
  have hb := h.putUntil k v (Deadline.ofSpan m.now ttl)
  have hnot (b : ν × Deadline) (hb : some (v, Deadline.ofSpan m.now ttl) = some b) :
      b.2.hasPassed m.now = false := by
    cases hb
    exact Deadline.hasPassed_ofSpan m.now ttl
  have hle := h.dueCount_update_le_of_not_due hb hnot
  have hw : (m.watched.putUntil k v (Deadline.ofSpan m.now ttl)).table.dueCount m.now ≤
      m.table.dueCount m.now + 0 := by simpa [Watched.putUntil, table] using hle
  exact load_watched_le hw

theorem load_rearm_le (h : m.table.Consistent) (c : Callback ν) (k : Key) (v : ν) :
    (m.callAll (c.rearmCall? k v).toList).1.load ≤ m.load := by
  cases hc : c.rearmCall? k v with
  | none => exact Nat.le_refl _
  | some d =>
    obtain ⟨r, -, hd⟩ := Option.bind_eq_some_iff.1 hc
    obtain ⟨v', -, rfl⟩ := Option.map_eq_some_iff.1 hd
    exact load_putFor_le h k v' r.ttl

/-- The script that a callback runs is used up, and that makes room for what its calls add. -/
theorem load_callsFor_le (h : m.table.Consistent) (x : Expired ν) :
    ((m.spend x.key).callAll (m.callsFor x)).1.load +
        6 * ((m.spend x.key).callback?.map (·.scriptedCalls)).getD 0 ≤
      m.load + 6 * (m.callback?.map (·.scriptedCalls)).getD 0 := by
  have h₀ : (m.spend x.key).table.Consistent := h
  have hload : (m.spend x.key).load = m.load := rfl
  unfold callsFor
  cases hc : m.callback? with
  | none =>
    have hcb : (m.spend x.key).callback? = none := by simp [spend, hc]
    simp only [callAll, hcb, Option.map_none, Option.getD_none]
    omega
  | some c =>
    -- Each call of the script counts six turns before, and five of them are enough after.
    have hspend := c.scriptedCalls_spend x.key
    have hcb : (m.spend x.key).callback? = some (c.spend x.key) := by simp [spend, hc]
    have hscript := load_callAll_le h₀ ((c.script? x.key).getD [])
    have hrearm := load_rearm_le (consistent_callAll h₀ ((c.script? x.key).getD [])) c x.key x.value
    simp only [callAll_append, hcb, Option.map_some, Option.getD_some]
    omega

/-- Delivering an entry may leave a permit, and calls for no other turn. -/
theorem turnsLeft_deliver_le (h : m.table.Consistent) (x : Expired ν) :
    (m.deliver x).turnsLeft ≤ m.turnsLeft + 2 := by
  have hload := load_callsFor_le h x
  have hpermit := Bool.toNat_le ((m.spend x.key).callAll (m.callsFor x)).1.watched.permit
  have heq : (m.deliver x).turnsLeft = ((m.spend x.key).callAll (m.callsFor x)).1.turnsLeft := by
    rw [deliver_eq]
    rfl
  rw [heq, turnsLeft_eq, turnsLeft_eq m, callback?_callAll]
  omega

theorem turnsLeft_look_lt (h : m.table.Consistent) (hp₀ : 0 < m.settings.idlePoll) {i : Nat}
    {s s' : Sweeper ν} {w : Watched ν} (hi : m.sweepers[i]? = some s)
    (hl : s.look? m.now m.settings.idlePoll m.watched = some (w, s')) :
    ({ m with watched := w }.setSweeper i s').turnsLeft < m.turnsLeft := by
  obtain ⟨hp, hl⟩ := Sweeper.look?_cases hl
  have hs := Sweeper.weight_looking m.now hp
  have hlen : m.watched.table.dueCount m.now = _ := h.dueCount_eq_length m.now
  have hzero : (m.watched.table.takeDue m.now).2.dueCount m.now = 0 :=
    h.dueCount_takeDue m.now
  refine turnsLeft_setSweeper_lt hi ?_
  cases hl with
  | leaves =>
    rw [hs, Sweeper.weight_done _ rfl, Sweeper.queued_phase]
    omega
  | waits hlv hdue =>
    have hany := Sweeper.any_alarm?_eq_false h hp₀ hdue
    rw [hs, Sweeper.weight_waiting _ rfl, Sweeper.queued_phase,
      if_neg (by simpa [hlv, table] using hany)]
    omega
  | drops hlv hdue =>
    have hpos := List.length_pos_iff.2 hdue
    simp only [hzero, hlen, table] at hpos ⊢
    omega
  | hands hlv hdue ho =>
    rw [hs, Sweeper.weight_handing _ rfl, Sweeper.queued_phase]
    simp only [hzero, hlen, table, hdue, List.length_cons]
    omega

theorem turnsLeft_afterWork_le (h : m.table.Consistent) (i : Nat) (x : Expired ν) :
    (m.afterWork i x).turnsLeft ≤ m.turnsLeft + 2 := by
  have hd := turnsLeft_deliver_le h x
  unfold afterWork
  split
  · exact (turnsLeft_loseWorker_le _ i).trans hd
  · exact hd

theorem turnsLeft_work_lt (h : m.table.Consistent) {i : Nat} {s s' : Sweeper ν} {x : Expired ν}
    (hi : m.sweepers[i]? = some s) (ht : s.take? = some (x, s')) :
    ((m.setSweeper i s').afterWork i x).turnsLeft < m.turnsLeft := by
  have hafter := turnsLeft_afterWork_le (m := m.setSweeper i s') h i x
  obtain ⟨o, xs, ho, hw, hq, rfl⟩ := Sweeper.take?_cases ht
  have hset := m.turnsLeft_setSweeper m.watched hi
    { s with outbox? := some { o with queued := xs } }
  have hweight : s.weight m.now =
      ({ s with outbox? := some { o with queued := xs } } : Sweeper ν).weight m.now + 3 := by
    simp only [Sweeper.weight, Sweeper.queued, Sweeper.batch, Sweeper.phaseTurns, ho, hq,
      List.length_cons]
    omega
  change (m.setSweeper i _).turnsLeft + _ + 5 * m.table.dueCount m.now + _ = _ at hset
  rw [table] at hset
  omega

theorem turnsLeft_turned_lt (h : m.table.Consistent) (hp : 0 < m.settings.idlePoll) {t : Turn}
    {m' : LiveMap ν} (ht : m.Turned t m') : m'.turnsLeft < m.turnsLeft := by
  cases ht with
  | hand hi hs => exact turnsLeft_hand_lt hi hs
  | work hi hs => exact turnsLeft_work_lt h hi hs
  | look hi hs => exact turnsLeft_look_lt h hp hi hs
  | release hi hs => exact turnsLeft_release_lt hi hs

namespace Sound

theorem isAtRest_settle (h : m.Sound) : m.settle.isAtRest = true :=
  isAtRest_steps (fun _ _ hm ho => hm.turn ho)
    (fun _ _ hm ho => turnsLeft_turned_lt hm.consistent hm.idlePoll_pos ho.turned)
    _ h (Nat.le_refl _) _

end Sound

end LiveMap

end ExpiringMap
