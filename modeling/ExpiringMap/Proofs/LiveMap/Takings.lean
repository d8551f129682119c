import ExpiringMap.Proofs.LiveMap.Moves

namespace ExpiringMap.LiveMap

variable {ν : Type} {m : LiveMap ν} {mv : Move ν}

/-- The calls that a move makes, by a client or in a callback. -/
def callsOf (m : LiveMap ν) : Move ν → List (Call ν)
  | .call c => [c]
  | .turn (.work i) =>
    match m.sweepers[i]?.bind (·.take?) with
    | some (x, _) => m.callsFor x
    | none => []
  | _ => []

/-- The entries that a move takes out because they have ended: those that a sweeper which stays
finds when it looks. -/
def taken (m : LiveMap ν) : Move ν → List (Expired ν)
  | .turn (.look i) =>
    match m.sweepers[i]? with
    | some s => if s.isLooking && !s.leaving then (m.table.takeDue m.now).1 else []
    | none => []
  | _ => []

def Touches (m : LiveMap ν) (k : Key) (mv : Move ν) : Prop := ∃ c ∈ m.callsOf mv, c.touches k = true

theorem touches_eq_false {k : Key} (h : ¬ m.Touches k mv) :
    ∀ c ∈ m.callsOf mv, c.touches k = false :=
  fun c hc => Bool.eq_false_iff.2 fun htouch => h ⟨c, hc, htouch⟩

/-- Whether a move makes a call that says when `k` ends. -/
def setsKey (m : LiveMap ν) (k : Key) (mv : Move ν) : Bool := (m.callsOf mv).any (·.sets k)

theorem table_start (m : LiveMap ν) : m.start.table = m.table := by
  unfold start
  split
  · rfl
  · rfl

namespace Sound

theorem get?_call (h : m.Sound) (c : Call ν) {k : Key} (hk : c.touches k = false) :
    (m.call c).1.table.get? k = m.table.get? k := by
  cases hs : c.isStart with
  | true => rw [call_start hs, table_start]
  | false =>
    rw [call_make hs]
    exact (Watched.changes_make h.consistent m.now c).get?_eq k hk

theorem due_call (h : m.Sound) (c : Call ν) {k : Key} {v : ν} {e : Instant}
    (hk : (m.call c).1.table.get? k = some (v, .due e)) :
    m.table.get? k = some (v, .due e) ∨ c.sets k = true := by
  cases hs : c.isStart with
  | true =>
    rw [call_start hs, table_start] at hk
    exact .inl hk
  | false =>
    rw [call_make hs] at hk
    exact (Watched.changes_make h.consistent m.now c).due k v e hk

theorem get?_callAll (h : m.Sound) {cs : List (Call ν)} {k : Key}
    (hk : ∀ c ∈ cs, c.touches k = false) :
    (m.callAll cs).1.table.get? k = m.table.get? k := by
  induction cs generalizing m with
  | nil => rfl
  | cons c cs ih =>
    rw [List.forall_mem_cons] at hk
    exact (ih (h.call c) hk.2).trans (h.get?_call c hk.1)

theorem due_callAll (h : m.Sound) {cs : List (Call ν)} {k : Key} {v : ν} {e : Instant}
    (hk : (m.callAll cs).1.table.get? k = some (v, .due e)) :
    m.table.get? k = some (v, .due e) ∨ cs.any (·.sets k) = true := by
  induction cs generalizing m with
  | nil => exact .inl hk
  | cons c cs ih =>
    rw [List.any_cons, Bool.or_eq_true]
    rcases ih (h.call c) hk with hk | hs
    · exact (h.due_call c hk).imp_right .inl
    · exact .inr (.inr hs)

end Sound

theorem isRunning_call (m : LiveMap ν) (c : Call ν) (hr : m.isRunning = true) :
    (m.call c).1.isRunning = true := by
  cases hs : c.isStart with
  | true =>
    rw [call_start hs, start, if_pos hr]
    exact hr
  | false =>
    rw [call_make hs]
    exact hr

theorem isRunning_callAll (m : LiveMap ν) (cs : List (Call ν)) (hr : m.isRunning = true) :
    (m.callAll cs).1.isRunning = true := by
  induction cs generalizing m with
  | nil => exact hr
  | cons c cs ih => exact ih _ (isRunning_call m c hr)

theorem isRunning_setSweeper {w : Watched ν} {i : Nat} {s s' : Sweeper ν}
    (hi : m.sweepers[i]? = some s) (hl : s'.leaving = s.leaving) :
    ({ m with watched := w }.setSweeper i s').isRunning = m.isRunning := by
  rw [isRunning_eq, isRunning_eq, setSweeper, map_set_eq_map hi hl]

theorem isRunning_afterWork (m : LiveMap ν) (i : Nat) (x : Expired ν)
    (hr : m.isRunning = true) : (m.afterWork i x).isRunning = true := by
  have hd : (m.deliver x).isRunning = true := by
    rw [deliver_eq]
    exact isRunning_callAll (m.spend x.key) _ hr
  unfold afterWork
  split
  · rw [isRunning_eq, map_leaving_loseWorker, ← isRunning_eq]
    exact hd
  · exact hd

theorem table_afterWork (m : LiveMap ν) (i : Nat) (x : Expired ν) :
    (m.afterWork i x).table = ((m.spend x.key).callAll (m.callsFor x)).1.table := by
  have hd : (m.deliver x).table = ((m.spend x.key).callAll (m.callsFor x)).1.table := by
    rw [deliver_eq]
    rfl
  unfold afterWork
  split
  · exact hd
  · exact hd

theorem Turned.isRunning {t : Turn} {m' : LiveMap ν} (ht : m.Turned t m')
    (hr : m.isRunning = true) : m'.isRunning = true := by
  cases ht with
  | hand hi hs =>
    exact (isRunning_setSweeper (w := m.watched) hi (Sweeper.leaving_hand? hs)).trans hr
  | @work i s x s' hi hs =>
    have hset := isRunning_setSweeper (w := m.watched) hi (Sweeper.leaving_take? hs)
    exact isRunning_afterWork _ i x (hset.trans hr)
  | look hi hs => exact (isRunning_setSweeper hi (Sweeper.leaving_look? hs)).trans hr
  | release hi hs => exact (isRunning_setSweeper hi (Sweeper.leaving_release? hs)).trans hr

theorem isRunning_prune (h : m.Sound) : m.prune.isRunning = m.isRunning := by
  rw [Bool.eq_iff_iff, isRunning, isRunning, List.any_eq_true, List.any_eq_true, prune]
  constructor
  · rintro ⟨s, hs, hl⟩
    exact ⟨s, (List.mem_filter.1 hs).1, hl⟩
  · rintro ⟨s, hs, hl⟩
    refine ⟨s, List.mem_filter.2 ⟨hs, ?_⟩, hl⟩
    have hp := (h.fit s hs).present (by simpa using hl)
    unfold Sweeper.isFinished
    split
    · next hdone => exact absurd hdone hp
    · rfl

theorem Sound.isRunning_move (h : m.Sound) (hl : m.Lawful mv) (hne : mv ≠ .leave)
    (hr : m.isRunning = true) : (m.move mv).isRunning = true := by
  cases mv with
  | call c => exact isRunning_call m c hr
  | turn t => exact Turned.isRunning (Orderly.turned hl) hr
  | wait clock => exact hr
  | leave => exact absurd rfl hne
  | prune => exact (isRunning_prune h).trans hr
  | report => exact hr

/-- How a move leads from one table to the next. -/
inductive Acted (m : LiveMap ν) (mv : Move ν) (t : Table ν) : Prop
  /-- The calls of the move are made on the table, if there are any. -/
  | calls {m₁ : LiveMap ν} (h₁ : m₁.Sound) (hsame : m₁.table = m.table)
      (ht : t = (m₁.callAll (m.callsOf mv)).1.table) (hnone : m.taken mv = [])
  | takes (ht : t = (m.table.takeDue m.now).2) (htaken : m.taken mv = (m.table.takeDue m.now).1)
      (hr : m.isRunning = true)

theorem Sound.acted (h : m.Sound) (hl : m.Lawful mv) : m.Acted mv (m.move mv).table := by
  cases mv with
  | call c => exact .calls h rfl rfl rfl
  | wait clock => exact .calls h rfl rfl rfl
  | leave => exact .calls h rfl rfl rfl
  | prune => exact .calls h rfl rfl rfl
  | report => exact .calls h rfl rfl rfl
  | turn t =>
    -- Of the map after the turn all there is to know is in `Turned`.
    have ht := Orderly.turned hl
    change m.Turned t (m.move (.turn t)) at ht
    generalize m.move (.turn t) = m' at ht
    cases ht with
    | hand hi hs => exact .calls h rfl rfl rfl
    | @work i s x s' hi hs =>
      have h₁ := (h.take hi hs).with_callback ((m.setSweeper i s').spend x.key).callback?
        m.delivered
      refine .calls h₁ rfl ?_ rfl
      rw [table_afterWork]
      simp only [callsOf, hi, Option.bind_some, hs]
      rfl
    | @release i r s w s' hi hs =>
      obtain ⟨alarm?, -, hs⟩ := Sweeper.release?_cases hs
      cases r with
      | leave =>
        obtain ⟨-, rfl, rfl⟩ := hs
        exact .calls h rfl rfl rfl
      | wake =>
        obtain ⟨-, rfl, rfl⟩ := hs
        exact .calls h rfl rfl rfl
      | timer =>
        obtain ⟨t, -, -, rfl, rfl⟩ := hs
        exact .calls h rfl rfl rfl
    | @look i s w s' hi hs =>
      obtain ⟨hp, hs⟩ := Sweeper.look?_cases hs
      have htaken : m.taken (.turn (.look i)) =
          if s.leaving then [] else (m.table.takeDue m.now).1 := by
        cases hlv : s.leaving <;> simp [taken, hi, Sweeper.isLooking, hp, hlv]
      cases hs with
      | leaves hlv => exact .calls h rfl rfl (by rw [htaken, if_pos hlv])
      | waits hlv hdue =>
        refine .calls h rfl rfl ?_
        rw [htaken, hlv]
        exact hdue
      | drops hlv => exact .takes rfl (by simp [htaken, hlv]) (isRunning_of_getElem? hi hlv)
      | hands hlv => exact .takes rfl (by simp [htaken, hlv]) (isRunning_of_getElem? hi hlv)

namespace Sound

variable (h : m.Sound) (hl : m.Lawful mv)

include h hl

/-- What a move takes out was there, and has ended. -/
theorem of_mem_taken {x : Expired ν} (hx : x ∈ m.taken mv) :
    m.table.get? x.key = some (x.value, .due x.due) ∧ x.due ≤ m.now ∧ m.isRunning = true := by
  cases h.acted hl with
  | calls _ _ _ hnone =>
    rw [hnone] at hx
    cases hx
  | takes _ htaken hr =>
    rw [htaken, (h.consistent.takeDue m.now).mem_iff] at hx
    exact ⟨hx.1, hx.2, hr⟩

theorem due_move {k : Key} {v : ν} {e : Instant}
    (hk : (m.move mv).table.get? k = some (v, .due e)) :
    m.table.get? k = some (v, .due e) ∨ m.setsKey k mv = true := by
  cases h.acted hl with
  | calls h₁ hsame ht =>
    rw [ht] at hk
    rw [← hsame]
    exact h₁.due_callAll hk
  | takes ht =>
    rw [ht, (h.consistent.takeDue m.now).binds.get?_eq, Option.filter_eq_some_iff] at hk
    exact .inl hk.1

/-- An entry that a move does not touch is there afterwards as well, or the move takes it out. -/
theorem kept_or_taken {k : Key} {v : ν} {e : Instant} (hnot : ¬ m.Touches k mv)
    (hk : m.table.get? k = some (v, .due e)) :
    (m.move mv).table.get? k = some (v, .due e) ∨ ⟨k, v, e⟩ ∈ m.taken mv := by
  cases h.acted hl with
  | calls h₁ hsame ht =>
    rw [ht, h₁.get?_callAll (touches_eq_false hnot), hsame]
    exact .inl hk
  | takes ht htaken =>
    have hd := h.consistent.takeDue m.now
    rw [ht, htaken, hd.binds.get?_eq, hd.mem_iff, hk]
    by_cases he : e ≤ m.now
    · exact .inr ⟨rfl, he⟩
    · left
      rw [Option.filter_eq_some_iff]
      exact ⟨rfl, by simpa [Deadline.hasPassed] using he⟩

end Sound

end ExpiringMap.LiveMap
