import ExpiringMap.Proofs.Outbox.Operations

/-!
An outbox whose workers run side by side. A worker that has taken an item is busy with it until it
has delivered it, and a sender that finds the queue full waits for room. Whoever can move may move
next. In whatever order they do, what is delivered is what was put in, cut off after the item that
ends the last worker.
-/

namespace ExpiringMap.Outbox

variable {α : Type}

/-- `xs` up to and with its `n`-th fatal item, all of it if there are fewer. -/
def cutAfter (fatal : α → Bool) : Nat → List α → List α
  | _, [] => []
  | 0, _ => []
  | n + 1, x :: xs => x :: cutAfter fatal (if fatal x then n else n + 1) xs

section Cut

variable {fatal : α → Bool} {n : Nat} {xs ys : List α} {x : α}

@[simp]
theorem cutAfter_nil (fatal : α → Bool) (n : Nat) : cutAfter fatal n [] = [] := by
  cases n <;> rfl

@[simp]
theorem cutAfter_zero (fatal : α → Bool) (xs : List α) : cutAfter fatal 0 xs = [] := by
  cases xs <;> rfl

theorem cutAfter_append (fatal : α → Bool) (n : Nat) (xs ys : List α) :
    cutAfter fatal n (xs ++ ys) =
      cutAfter fatal n xs ++ cutAfter fatal (n - xs.countP fatal) ys := by
  induction xs generalizing n with
  | nil => simp
  | cons x xs ih =>
    cases n with
    | zero => simp
    | succ n =>
      rw [List.cons_append, cutAfter, cutAfter, ih, List.cons_append, List.countP_cons]
      cases fatal x <;> simp [Nat.add_sub_add_right]

theorem cutAfter_isPrefix (fatal : α → Bool) (n : Nat) (xs : List α) :
    cutAfter fatal n xs <+: xs := by
  induction xs generalizing n with
  | nil => simp
  | cons x xs ih =>
    cases n with
    | zero => simp
    | succ n =>
      rw [cutAfter, List.cons_prefix_cons]
      exact ⟨rfl, ih _⟩

theorem cutAfter_of_countP_lt (h : xs.countP fatal < n) : cutAfter fatal n xs = xs := by
  induction xs generalizing n with
  | nil => simp
  | cons x xs ih =>
    rw [List.countP_cons] at h
    cases n with
    | zero => exact absurd h (Nat.not_lt_zero _)
    | succ n =>
      rw [cutAfter, ih]
      cases hx : fatal x <;> simp [hx] at h ⊢ <;> exact h

theorem cutAfter_concat (hcut : cutAfter fatal n xs = xs) (h : xs.countP fatal < n) (x : α) :
    cutAfter fatal n (xs ++ [x]) = xs ++ [x] := by
  obtain ⟨d, hd⟩ := Nat.exists_eq_succ_of_ne_zero (Nat.sub_ne_zero_of_lt h)
  rw [cutAfter_append, hcut, hd, cutAfter, cutAfter_nil]

end Cut

/-- An outbox in use, with what has happened to it. -/
structure Pool (α : Type) where
  outbox : Outbox α
  waiting? : Option α := none
  busy : List α := []
  accepted : List α := []
  taken : List α := []
  delivered : List α := []

namespace Pool

variable {fatal : α → Bool} {capacity workers : Nat} {p : Pool α} {rest : List α} {x : α}

/-- What goes on by itself. -/
inductive Turn (fatal : α → Bool) (p : Pool α) : Pool α → Prop
  | take {x : α} {o : Outbox α} (hfree : p.busy.length < p.outbox.workers)
      (h : p.outbox.take? = some (x, o)) :
      Turn fatal p { p with outbox := o, busy := p.busy ++ [x], taken := p.taken ++ [x] }
  | finish {x : α} {xs ys : List α} (h : p.busy = xs ++ x :: ys) :
      Turn fatal p { p with
        outbox := if fatal x then p.outbox.loseWorker else p.outbox
        busy := xs ++ ys
        delivered := p.delivered ++ [x] }
  | enter {x : α} {o : Outbox α} (hw : p.waiting? = some x) (h : p.outbox.offer x = .accepted o) :
      Turn fatal p { p with outbox := o, waiting? := none, accepted := p.accepted ++ [x] }
  | refuse {x : α} (hw : p.waiting? = some x) (h : p.outbox.offer x = .closed) :
      Turn fatal p { p with waiting? := none }

/-- A turn, or a sender comes with an item. One that is refused at once changes nothing. -/
inductive Step (fatal : α → Bool) (p : Pool α) : Pool α → Prop
  | turn {p' : Pool α} (h : p.Turn fatal p') : Step fatal p p'
  | put {x : α} {o : Outbox α} (hw : p.waiting? = none) (h : p.outbox.offer x = .accepted o) :
      Step fatal p { p with outbox := o, accepted := p.accepted ++ [x] }
  | wait {x : α} (hw : p.waiting? = none) (h : p.outbox.offer x = .full) :
      Step fatal p { p with waiting? := some x }

inductive Reachable (fatal : α → Bool) (capacity workers : Nat) : Pool α → Prop
  | start : Reachable fatal capacity workers { outbox := { capacity, workers } }
  | step {p p'} (h : Reachable fatal capacity workers p) (hs : p.Step fatal p') :
      Reachable fatal capacity workers p'

def untaken (p : Pool α) : List α := p.accepted.drop p.taken.length

/-- Nobody waits or is busy, and no worker has anything to take. -/
def AtRest (p : Pool α) : Prop :=
  p.waiting? = none ∧ p.busy = [] ∧ (p.outbox.workers = 0 ∨ p.outbox.queued = [])

/-- A bound on the turns that can still come before a sender does. -/
def turnsLeft (p : Pool α) : Nat :=
  2 * p.outbox.queued.length + p.busy.length + if p.waiting?.isSome then 3 else 0

/-- What every step keeps, with what is untaken. -/
structure Kept (fatal : α → Bool) (capacity workers : Nat) (p : Pool α) (rest : List α) : Prop where
  capacity_eq : p.outbox.capacity = capacity
  accepted_eq : p.accepted = p.taken ++ rest
  /-- What is untaken is queued as long as a worker is left. -/
  queued_eq : p.outbox.queued = if p.outbox.workers = 0 then [] else rest
  room : rest.length ≤ capacity
  survivors : p.outbox.workers + p.delivered.countP fatal = workers
  busy_le : p.busy.length ≤ p.outbox.workers
  once : (p.delivered ++ p.busy).Perm p.taken
  ordered : workers ≤ 1 → p.delivered ++ p.busy = p.taken
  /-- Nothing has been taken after the item that ends the last worker. -/
  cut : cutAfter fatal workers p.taken = p.taken

theorem kept_start (fatal : α → Bool) (capacity workers : Nat) :
    ({ outbox := { capacity, workers } } : Pool α).Kept fatal capacity workers [] where
  capacity_eq := rfl
  accepted_eq := rfl
  queued_eq := by simp
  room := Nat.zero_le _
  survivors := rfl
  busy_le := Nat.zero_le _
  once := .refl _
  ordered _ := rfl
  cut := cutAfter_nil fatal workers

namespace Kept

theorem queued_of_pos (h : p.Kept fatal capacity workers rest) (hw : 0 < p.outbox.workers) :
    p.outbox.queued = rest := by
  rw [h.queued_eq, if_neg (Nat.ne_of_gt hw)]

theorem untaken_eq (h : p.Kept fatal capacity workers rest) : p.untaken = rest := by
  rw [untaken, h.accepted_eq, List.drop_left]

theorem le_queued_iff (h : p.Kept fatal capacity workers rest) (hw : 0 < p.outbox.workers) :
    p.outbox.capacity ≤ p.outbox.queued.length ↔ p.untaken.length = capacity := by
  rw [h.queued_of_pos hw, h.capacity_eq, h.untaken_eq]
  exact ⟨fun hfull => Nat.le_antisymm h.room hfull, fun heq => Nat.le_of_eq heq.symm⟩

theorem accept (h : p.Kept fatal capacity workers rest) {o : Outbox α}
    (ho : p.outbox.offer x = .accepted o) (w? : Option α) :
    ({ p with outbox := o, waiting? := w?, accepted := p.accepted ++ [x] } : Pool α).Kept
      fatal capacity workers (rest ++ [x]) := by
  obtain ⟨hw, hroom, rfl⟩ := offer_eq_accepted.1 ho
  rw [h.queued_of_pos hw, h.capacity_eq] at hroom
  exact
    { h with
      accepted_eq := by rw [h.accepted_eq, List.append_assoc]
      queued_eq := by rw [h.queued_of_pos hw, if_neg (Nat.ne_of_gt hw)]
      room := by rw [List.length_append]; exact hroom }

theorem take (h : p.Kept fatal capacity workers rest) (hfree : p.busy.length < p.outbox.workers)
    {o : Outbox α} (ho : p.outbox.take? = some (x, o)) :
    ∃ rest', rest = x :: rest' ∧
      ({ p with outbox := o, busy := p.busy ++ [x], taken := p.taken ++ [x] } : Pool α).Kept
        fatal capacity workers rest' := by
  obtain ⟨hw, xs, hq, rfl⟩ := take?_eq_some.1 ho
  rw [h.queued_of_pos hw] at hq
  subst hq
  -- Each fatal item among the taken ones has ended a worker or keeps one busy.
  have hfatal : p.taken.countP fatal < workers := by
    have hbusy : p.busy.countP fatal ≤ p.busy.length := List.countP_le_length
    have := h.survivors
    rw [← h.once.countP_eq, List.countP_append]
    omega
  refine ⟨xs, rfl, ?_⟩
  exact
    { h with
      accepted_eq := by rw [h.accepted_eq, List.append_assoc]; rfl
      queued_eq := (if_neg (Nat.ne_of_gt hw)).symm
      room := Nat.le_trans (Nat.le_succ _) h.room
      busy_le := by rw [List.length_append]; exact hfree
      once := by simpa only [List.append_assoc] using h.once.append_right [x]
      ordered := fun hle => by rw [← List.append_assoc, h.ordered hle]
      cut := cutAfter_concat h.cut hfatal x }

theorem finish (h : p.Kept fatal capacity workers rest) {xs ys : List α}
    (hb : p.busy = xs ++ x :: ys) :
    ({ p with
        outbox := if fatal x then p.outbox.loseWorker else p.outbox
        busy := xs ++ ys
        delivered := p.delivered ++ [x] } : Pool α).Kept fatal capacity workers rest := by
  have hlen := h.busy_le
  rw [hb, List.length_append, List.length_cons] at hlen
  have hwas := h.survivors
  have hmid : (x :: (xs ++ ys)).Perm p.busy := by
    rw [hb]
    exact List.perm_middle.symm
  have honce : (p.delivered ++ [x] ++ (xs ++ ys)).Perm (p.delivered ++ p.busy) := by
    rw [List.append_assoc]
    exact hmid.append_left _
  refine
    { h with
      capacity_eq := by cases fatal x <;> exact h.capacity_eq
      queued_eq := ?_
      survivors := ?_
      busy_le := ?_
      once := honce.trans h.once
      ordered := fun hle => ?_ }
  · cases fatal x with
    | false => exact h.queued_eq
    | true =>
      simp only [loseWorker, h.queued_eq]
      grind
  · rw [List.countP_append, List.countP_singleton]
    cases fatal x <;> simp [loseWorker] <;> omega
  · rw [List.length_append]
    cases fatal x <;> simp [loseWorker] <;> omega
  · obtain rfl : xs = [] := List.eq_nil_of_length_eq_zero (by omega)
    obtain rfl : ys = [] := List.eq_nil_of_length_eq_zero (by omega)
    rw [← h.ordered hle, hb]
    simp

theorem turn (h : p.Kept fatal capacity workers rest) {p' : Pool α} (ht : p.Turn fatal p') :
    ∃ rest', p'.Kept fatal capacity workers rest' := by
  cases ht with
  | take hfree ho =>
    obtain ⟨rest', -, h'⟩ := h.take hfree ho
    exact ⟨rest', h'⟩
  | finish hb => exact ⟨rest, h.finish hb⟩
  | enter _ ho => exact ⟨_, h.accept ho none⟩
  | refuse => exact ⟨rest, { h with }⟩

theorem step (h : p.Kept fatal capacity workers rest) {p' : Pool α} (hs : p.Step fatal p') :
    ∃ rest', p'.Kept fatal capacity workers rest' := by
  cases hs with
  | turn ht => exact h.turn ht
  | put _ ho => exact ⟨_, h.accept ho p.waiting?⟩
  | wait => exact ⟨rest, { h with }⟩

theorem taken_isPrefix (h : p.Kept fatal capacity workers rest) :
    p.taken <+: cutAfter fatal workers p.accepted := by
  rw [h.accepted_eq, cutAfter_append, h.cut]
  exact List.prefix_append _ _

/-- Nobody has anything left to take only once all is taken that comes before the cut. -/
theorem taken_eq (h : p.Kept fatal capacity workers rest) (hbusy : p.busy = [])
    (hend : p.outbox.workers = 0 ∨ p.outbox.queued = []) :
    p.taken = cutAfter fatal workers p.accepted := by
  rw [h.accepted_eq, cutAfter_append, h.cut, List.self_eq_append_right]
  -- With nobody left all fatal items that count have been taken, else nothing is untaken.
  by_cases hw : p.outbox.workers = 0
  · have hfatal := h.once.countP_eq fatal
    have hlast := h.survivors
    rw [hbusy, List.append_nil] at hfatal
    rw [← hfatal, ← hlast, hw, Nat.zero_add, Nat.sub_self, cutAfter_zero]
  · rw [← h.queued_of_pos (Nat.pos_of_ne_zero hw), hend.resolve_left hw, cutAfter_nil]

end Kept

theorem Reachable.kept (h : Reachable fatal capacity workers p) :
    ∃ rest, p.Kept fatal capacity workers rest := by
  induction h with
  | start => exact ⟨[], kept_start fatal capacity workers⟩
  | step _ hs ih =>
    obtain ⟨rest, hk⟩ := ih
    exact hk.step hs

theorem turnsLeft_turn_lt {p' : Pool α} (ht : p.Turn fatal p') : p'.turnsLeft < p.turnsLeft := by
  cases ht with
  | take _ ho =>
    obtain ⟨-, xs, hq, rfl⟩ := take?_eq_some.1 ho
    simp only [turnsLeft, hq, List.length_append, List.length_cons, List.length_nil]
    omega
  | @finish x xs ys hb =>
    have hq : (if fatal x then p.outbox.loseWorker else p.outbox).queued.length ≤
        p.outbox.queued.length := by
      split
      · exact p.outbox.length_loseWorker
      · exact Nat.le_refl _
    simp only [turnsLeft, hb, List.length_append, List.length_cons]
    omega
  | enter hw ho =>
    obtain ⟨-, -, rfl⟩ := offer_eq_accepted.1 ho
    simp only [turnsLeft, hw, List.length_append, List.length_cons, List.length_nil]
    simp
    omega
  | refuse hw _ => simp [turnsLeft, hw]

theorem exists_turn_of_busy (hb : p.busy ≠ []) : ∃ p', p.Turn fatal p' := by
  obtain ⟨x, xs, hb⟩ := List.exists_cons_of_ne_nil hb
  exact ⟨_, .finish (List.nil_append (x :: xs) ▸ hb)⟩

theorem exists_turn_of_queued (hw : 0 < p.outbox.workers) (hq : p.outbox.queued ≠ []) :
    ∃ p', p.Turn fatal p' := by
  by_cases hb : p.busy = []
  · obtain ⟨x, xs, hq⟩ := List.exists_cons_of_ne_nil hq
    exact ⟨_, .take (by simpa [hb] using hw) (take?_eq_some.2 ⟨hw, xs, hq, rfl⟩)⟩
  · exact exists_turn_of_busy hb

theorem exists_turn_of_waiting (hroom : 0 < p.outbox.capacity) (hw : p.waiting? = some x) :
    ∃ p', p.Turn fatal p' := by
  cases ho : p.outbox.offer x with
  | closed => exact ⟨_, .refuse hw ho⟩
  | accepted o => exact ⟨_, .enter hw ho⟩
  | full =>
    obtain ⟨hpos, hfull⟩ := offer_eq_full.1 ho
    exact exists_turn_of_queued hpos (List.ne_nil_of_length_pos (Nat.lt_of_lt_of_le hroom hfull))

theorem exists_turn (hroom : 0 < p.outbox.capacity) (h : ¬p.AtRest) : ∃ p', p.Turn fatal p' := by
  cases hw : p.waiting? with
  | some x => exact exists_turn_of_waiting hroom hw
  | none =>
    by_cases hb : p.busy = []
    · have : 0 < p.outbox.workers ∧ p.outbox.queued ≠ [] := by
        simpa [AtRest, hw, hb, Nat.pos_iff_ne_zero] using h
      exact exists_turn_of_queued this.1 this.2
    · exact exists_turn_of_busy hb

/-- How a pool of `workers` workers with room for `capacity` items serves its sender. -/
structure Exact (fatal : α → Bool) (capacity workers : Nat) (p : Pool α) : Prop where
  taken_isPrefix : p.taken <+: cutAfter fatal workers p.accepted
  once : (p.delivered ++ p.busy).Perm p.taken
  ordered : workers ≤ 1 → p.delivered ++ p.busy = p.taken
  /-- Only fatal items end workers, one each, and a worker does one thing at a time. -/
  survivors : p.outbox.workers + p.delivered.countP fatal = workers
  busy_le : p.busy.length ≤ p.outbox.workers
  room : p.accepted = p.taken ++ p.untaken ∧ p.untaken.length ≤ capacity
  closed_iff : ∀ x, p.outbox.offer x = .closed ↔ p.outbox.workers = 0
  full_iff : ∀ x, p.outbox.offer x = .full ↔
    0 < p.outbox.workers ∧ p.untaken.length = capacity
  /-- Whatever turns are taken, they lead to rest, and so a sender does not wait forever. -/
  rests : (p.AtRest ∨ ∃ p', p.Turn fatal p') ∧
    ∀ p', p.Turn fatal p' → p'.turnsLeft < p.turnsLeft
  delivers : p.AtRest → p.delivered.Perm (cutAfter fatal workers p.accepted) ∧
    (workers ≤ 1 → p.delivered = cutAfter fatal workers p.accepted)

theorem Reachable.exact (hcap : 0 < capacity) (h : Reachable fatal capacity workers p) :
    p.Exact fatal capacity workers := by
  obtain ⟨rest, hk⟩ := h.kept
  have hun := hk.untaken_eq
  refine ⟨hk.taken_isPrefix, hk.once, hk.ordered, hk.survivors, hk.busy_le,
    ⟨by rw [hun]; exact hk.accepted_eq, by rw [hun]; exact hk.room⟩, fun x => offer_eq_closed,
    fun x => offer_eq_full.trans (and_congr_right hk.le_queued_iff),
    ⟨?_, fun p' => turnsLeft_turn_lt⟩, fun hr => ?_⟩
  · exact Classical.or_iff_not_imp_left.2 (exists_turn (by rw [hk.capacity_eq]; exact hcap))
  · obtain ⟨-, hbusy, hend⟩ := hr
    have hall := hk.taken_eq hbusy hend
    have honce := hk.once
    have hord := hk.ordered
    rw [hbusy, List.append_nil, hall] at honce hord
    exact ⟨honce, hord⟩

end Pool

end ExpiringMap.Outbox
