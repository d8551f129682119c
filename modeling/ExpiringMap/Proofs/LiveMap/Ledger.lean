import ExpiringMap.Proofs.LiveMap.Takings

/-!
When the turn of an entry comes: once it has ended, been set, and a sweeper been started, whichever
is last, in whole milliseconds. On a map that runs the clock does not pass the turn of an entry that
is there, so an entry is taken out at its turn and at no other time.
-/

namespace ExpiringMap

open LiveMap (Move Path)

variable {ν : Type}

structure Ledger where
  /-- The clock when the sweeper that stays was started. -/
  started : Nat := 0
  /-- The clock when it was last said of a key when it ends. -/
  written : Key → Nat := fun _ => 0

namespace Ledger

def enter (l : Ledger) (m : LiveMap ν) (mv : Move ν) : Ledger where
  started := if !m.isRunning && (m.move mv).isRunning then m.clock else l.started
  written k := if m.setsKey k mv then m.clock else l.written k

def follow (l : Ledger) (m : LiveMap ν) : List (Move ν) → Ledger
  | [] => l
  | mv :: mvs => (l.enter m mv).follow (m.move mv) mvs

/-- The millisecond at which it is the turn of `k` if it ends at `e`. -/
def turnOf (l : Ledger) (k : Key) (e : Instant) : Nat :=
  max (l.written k) (max l.started (Instant.ceilMillis e).toNat)

/-- Everything is written down in time, and no turn that is still to come has passed. -/
structure Prompt (l : Ledger) (m : LiveMap ν) : Prop where
  sound : m.Sound
  started_le : l.started ≤ m.clock
  written_le : ∀ k, l.written k ≤ m.clock
  on_time : m.isRunning = true → ∀ k v e, m.table.get? k = some (v, .due e) →
    m.clock ≤ l.turnOf k e

end Ledger

namespace LiveMap

variable {m : LiveMap ν} {mv : Move ν}

theorem clock_move (hl : m.Lawful mv) :
    (m.move mv).clock = m.clock ∨ ∃ clock, mv = .wait clock := by
  cases mv with
  | call c => exact .inl (clock_call m c)
  | turn t => exact .inl (clock_turn? (turn?_eq_of_canTake (Orderly.canTake hl)))
  | wait clock => exact .inr ⟨clock, rfl⟩
  | leave => exact .inl rfl
  | prune => exact .inl rfl
  | report => exact .inl rfl

theorem clock_le_move (hl : m.Lawful mv) : m.clock ≤ (m.move mv).clock := by
  rcases clock_move hl with hc | ⟨clock, rfl⟩
  · exact hc.ge
  · exact hl.2.1

end LiveMap

namespace Ledger

open LiveMap

variable {l : Ledger} {m : LiveMap ν} {mv : Move ν} {k : Key} {v : ν} {e : Instant}

theorem enter_wait (l : Ledger) (m : LiveMap ν) (clock : Nat) : l.enter m (.wait clock) = l := by
  have hr : (m.move (.wait clock)).isRunning = m.isRunning := rfl
  simp [enter, hr, setsKey, callsOf]

/-- The clock does not pass the turn of an entry, since it stops at the timer that is set for it. -/
theorem clock_le_turnOf (l : Ledger) (h : m.Sound) {clock : Nat} (hl : m.Lawful (.wait clock))
    (hr : m.isRunning = true) (hk : m.table.get? k = some (v, .due e)) :
    clock ≤ l.turnOf k e := by
  obtain ⟨t, ht, hle⟩ := h.nextTimer_le hl.1 hr hk
  have hclock := hl.2.2 t ht
  unfold turnOf
  omega

theorem clock_le_turnOf_enter (h : l.Prompt m) (hl : m.Lawful mv)
    (hr : (m.move mv).isRunning = true) (hk : (m.move mv).table.get? k = some (v, .due e)) :
    m.clock ≤ (l.enter m mv).turnOf k e := by
  unfold turnOf enter
  cases hbefore : m.isRunning with
  | false =>
    simp only [hr, Bool.not_false, Bool.and_self, ↓reduceIte]
    omega
  | true =>
    simp only [Bool.not_true, Bool.false_and, Bool.false_eq_true, ↓reduceIte]
    split
    · exact le_max_left _ _
    · next hset =>
      rcases h.sound.due_move hl hk with hk | hs
      · exact h.on_time hbefore k v e hk
      · exact absurd hs hset

namespace Prompt

theorem enter (h : l.Prompt m) (hl : m.Lawful mv) : (l.enter m mv).Prompt (m.move mv) where
  sound := h.sound.move hl
  started_le := by
    have hle := clock_le_move hl
    have hstarted := h.started_le
    unfold Ledger.enter
    split
    · exact hle
    · exact hstarted.trans hle
  written_le k := by
    have hle := clock_le_move hl
    have hwritten := h.written_le k
    unfold Ledger.enter
    simp only
    split
    · exact hle
    · exact hwritten.trans hle
  on_time hr k v e hk := by
    rcases clock_move hl with hc | ⟨clock, rfl⟩
    · rw [hc]
      exact clock_le_turnOf_enter h hl hr hk
    · rw [enter_wait]
      exact clock_le_turnOf l h.sound hl hr hk

/-- What a move takes out it takes out when its turn comes. -/
theorem clock_eq (h : l.Prompt m) (hl : m.Lawful mv) {x : Expired ν} (hx : x ∈ m.taken mv) :
    m.clock = l.turnOf x.key x.due := by
  obtain ⟨hk, hdue, hr⟩ := h.sound.of_mem_taken hl hx
  have hle := h.on_time hr x.key x.value x.due hk
  -- The turn is not over, and everything it waits for has come about.
  have hceil := (Instant.ceilMillis_le_iff x.due m.clock).2 hdue
  have hstarted := h.started_le
  have hwritten := h.written_le x.key
  unfold turnOf at hle ⊢
  omega

theorem clock_lt (h : l.Prompt m) (hrest : m.isAtRest = true) (hr : m.isRunning = true)
    (hk : m.table.get? k = some (v, .due e)) : m.clock < l.turnOf k e := by
  have hceil : (m.clock : Int) < Instant.ceilMillis e :=
    Instant.lt_ceilMillis_iff.2 (h.sound.lt_due hrest hr hk)
  unfold turnOf
  omega

theorem follow (h : l.Prompt m) {mvs : List (Move ν)} {m' : LiveMap ν} (hp : Path m mvs m') :
    (l.follow m mvs).Prompt m' := by
  induction hp generalizing l with
  | nil => exact h
  | cons hl _ ih => exact ih (h.enter hl)

end Prompt

/-- Nobody stops the map in these moves, or makes a call that may change what `k` is bound to. -/
def Undisturbed (k : Key) (m : LiveMap ν) (mvs : List (Move ν)) : Prop :=
  ∀ before mv rest, mvs = before ++ mv :: rest →
    mv ≠ .leave ∧ ¬ (m.follow before).Touches k mv

theorem Undisturbed.of_cons {mvs : List (Move ν)} (h : Undisturbed k m (mv :: mvs)) :
    (mv ≠ .leave ∧ ¬ m.Touches k mv) ∧ Undisturbed k (m.move mv) mvs := by
  refine ⟨h [] mv mvs rfl, fun before mv' rest he => ?_⟩
  exact h (mv :: before) mv' rest (by rw [he]; rfl)

def TakenAt (m : LiveMap ν) (mvs : List (Move ν)) (x : Expired ν) (clock : Nat) : Prop :=
  ∃ before mv rest, mvs = before ++ mv :: rest ∧ x ∈ (m.follow before).taken mv ∧
    (m.follow before).clock = clock

theorem TakenAt.cons {mvs : List (Move ν)} {x : Expired ν} {clock : Nat}
    (h : TakenAt (m.move mv) mvs x clock) : TakenAt m (mv :: mvs) x clock := by
  obtain ⟨before, mv', rest, rfl, hx, hc⟩ := h
  exact ⟨mv :: before, mv', rest, rfl, hx, hc⟩

theorem turnOf_enter (l : Ledger) (hr : m.isRunning = true) (hnot : ¬ m.Touches k mv) :
    (l.enter m mv).turnOf k e = l.turnOf k e := by
  have hset : m.setsKey k mv = false := by
    rw [Bool.eq_false_iff]
    intro hs
    obtain ⟨c, hc, hs⟩ := List.any_eq_true.1 hs
    exact hnot ⟨c, hc, Call.touches_of_sets hs⟩
  simp [turnOf, enter, hr, hset]

/-- Left undisturbed an entry stays until its turn comes, and is then taken out. -/
theorem Prompt.stays_or_taken (h : l.Prompt m) {mvs : List (Move ν)} {m' : LiveMap ν}
    (hp : Path m mvs m') (hr : m.isRunning = true) (hk : m.table.get? k = some (v, .due e))
    (hu : Undisturbed k m mvs) :
    (m'.isRunning = true ∧ m'.table.get? k = some (v, .due e) ∧
        (l.follow m mvs).turnOf k e = l.turnOf k e) ∨
      TakenAt m mvs ⟨k, v, e⟩ (l.turnOf k e) := by
  induction hp generalizing l with
  | nil => exact .inl ⟨hr, hk, rfl⟩
  | @cons m mv mvs m' hl hp ih =>
    obtain ⟨⟨hleave, hnot⟩, hu⟩ := hu.of_cons
    rcases h.sound.kept_or_taken hl hnot hk with hk' | hx
    · have hrun := h.sound.isRunning_move hl hleave hr
      have hturn := turnOf_enter (e := e) l hr hnot
      rw [← hturn]
      exact (ih (h.enter hl) hrun hk' hu).imp_right TakenAt.cons
    · exact .inr ⟨[], mv, mvs, rfl, hx, h.clock_eq hl hx⟩

/-- If it is still there its turn is still to come, and does not come before somebody can look. -/
theorem Prompt.taken_or_to_come (h : l.Prompt m) {mvs : List (Move ν)} {m' : LiveMap ν}
    (hp : Path m mvs m') (hr : m.isRunning = true) (hk : m.table.get? k = some (v, .due e))
    (hu : Undisturbed k m mvs) :
    TakenAt m mvs ⟨k, v, e⟩ (l.turnOf k e) ∨
      m'.isRunning = true ∧ m'.table.get? k = some (v, .due e) ∧ m'.clock ≤ l.turnOf k e ∧
        (m'.isAtRest = true → m'.clock < l.turnOf k e) := by
  rcases h.stays_or_taken hp hr hk hu with ⟨hrun, hstill, hturn⟩ | htaken
  · have hend := h.follow hp
    refine .inr ⟨hrun, hstill, ?_, fun hrest => ?_⟩
    · rw [← hturn]
      exact hend.on_time hrun k v e hstill
    · rw [← hturn]
      exact hend.clock_lt hrest hrun hstill
  · exact .inl htaken

end Ledger

end ExpiringMap
