import ExpiringMap.Proofs.Outbox.Session

namespace ExpiringMap.Outbox

/-- Whichever steps are taken from a state, they lead to one where `P` holds. -/
inductive Inevitably {σ : Type} (r : σ → σ → Prop) (P : σ → Prop) : σ → Prop
  | now {s} (h : P s) : Inevitably r P s
  | later {s} (hex : ∃ s', r s s') (hall : ∀ s', r s s' → Inevitably r P s') : Inevitably r P s

/-- Where there is a step as long as `P` does not hold, and each step leaves fewer, `P` is
inevitable. -/
theorem Inevitably.of_measure {σ : Type} {r : σ → σ → Prop} {P I : σ → Prop} (μ : σ → Nat)
    (hkept : ∀ s s', I s → r s s' → I s') (hless : ∀ s s', I s → r s s' → μ s' < μ s)
    (hnext : ∀ s, I s → P s ∨ ∃ s', r s s') {s : σ} (hs : I s) : Inevitably r P s := by
  induction hn : μ s using Nat.strongRecOn generalizing s with
  | ind n ih =>
    subst hn
    rcases hnext s hs with h | hex
    · exact .now h
    · exact .later hex fun s' hr => ih _ (hless s s' hs hr) (hkept s s' hs hr) rfl

/-- What comes to pass by some steps does so by any that are the same where the run may lead. -/
theorem Inevitably.of_same {σ : Type} {r r' : σ → σ → Prop} {P I : σ → Prop} {s : σ}
    (h : Inevitably r P s) (hkept : ∀ s s', I s → r s s' → I s')
    (hsame : ∀ s s', I s → (r s s' ↔ r' s s')) (hs : I s) : Inevitably r' P s := by
  induction h with
  | now h => exact .now h
  | @later s hex _ ih =>
    refine .later ?_ fun s' hr => ?_
    · obtain ⟨s', hr⟩ := hex
      exact ⟨s', (hsame s s' hs).1 hr⟩
    · have hr' := (hsame s s' hs).2 hr
      exact ih s' hr' (hkept s s' hs hr')

namespace Pool

variable {α : Type} {fatal : α → Bool} {capacity workers : Nat} {p p' : Pool α}
  {xs ys all : List α} {x : α}

/-- What a pool and a sender that still has some items do: a turn of the pool, or the sender comes
with the next item. -/
inductive Fed (fatal : α → Bool) : Pool α × List α → Pool α × List α → Prop
  | turn {p p' : Pool α} {xs : List α} (h : p.Turn fatal p') : Fed fatal (p, xs) (p', xs)
  | put {p : Pool α} {x : α} {xs : List α} {o : Outbox α} (hw : p.waiting? = none)
    (h : p.outbox.offer x = .accepted o) :
    Fed fatal (p, x :: xs) ({ p with outbox := o, accepted := p.accepted ++ [x] }, xs)
  | wait {p : Pool α} {x : α} {xs : List α} (hw : p.waiting? = none)
    (h : p.outbox.offer x = .full) : Fed fatal (p, x :: xs) ({ p with waiting? := some x }, xs)
  | turnedAway {p : Pool α} {x : α} {xs : List α} (hw : p.waiting? = none)
    (h : p.outbox.offer x = .closed) : Fed fatal (p, x :: xs) (p, xs)

namespace Reachable

variable (h : Reachable fatal capacity workers p)

include h

theorem fed (hf : Fed fatal (p, xs) (p', ys)) : Reachable fatal capacity workers p' := by
  cases hf with
  | turn ht => exact h.step (.turn ht)
  | put hw ho => exact h.step (.put hw ho)
  | wait hw ho => exact h.step (.wait hw ho)
  | turnedAway => exact h

theorem workers_pos (hfew : p.accepted.countP fatal < workers) : 0 < p.outbox.workers := by
  obtain ⟨rest, hk⟩ := h.kept
  have hsurvivors := hk.survivors
  have htaken : p.taken.countP fatal ≤ p.accepted.countP fatal := by
    rw [hk.accepted_eq, List.countP_append]
    exact Nat.le_add_right _ _
  rw [← hk.once.countP_eq, List.countP_append] at htaken
  omega

theorem offer_ne_closed (hfew : p.accepted.countP fatal < workers) (x : α) :
    p.outbox.offer x ≠ .closed :=
  fun ho => absurd (offer_eq_closed.1 ho) (Nat.ne_of_gt (h.workers_pos hfew))

end Reachable

/-- `all` is what a sender has put in, is waiting with or still has, and the workers will outlast
it. -/
structure Outlasts (fatal : α → Bool) (capacity workers : Nat) (all : List α)
    (s : Pool α × List α) : Prop where
  reachable : Reachable fatal capacity workers s.1
  all_eq : s.1.accepted ++ s.1.waiting?.toList ++ s.2 = all
  few : all.countP fatal < workers

namespace Outlasts

variable {s s' : Pool α × List α} (h : Outlasts fatal capacity workers all s)

include h

theorem accepted_few : s.1.accepted.countP fatal < workers := by
  have hfew := h.few
  rw [← h.all_eq, List.append_assoc, List.countP_append] at hfew
  exact Nat.lt_of_le_of_lt (Nat.le_add_right _ _) hfew

theorem fed (hf : Fed fatal s s') : Outlasts fatal capacity workers all s' := by
  have hopen := h.reachable.offer_ne_closed h.accepted_few
  refine ⟨h.reachable.fed hf, ?_, h.few⟩
  have hall := h.all_eq
  cases hf with
  | turn ht =>
    cases ht with
    | take | finish => exact hall
    | enter hw ho => simpa [hw] using hall
    | refuse hw ho => exact absurd ho (hopen _)
  | put hw ho => simpa [hw] using hall
  | wait hw ho => simpa [hw] using hall
  | turnedAway hw ho => exact absurd ho (hopen _)

theorem done_or_fed (hcap : 0 < capacity) :
    (s.2 = [] ∧ s.1.AtRest) ∨ ∃ s', Fed fatal s s' := by
  obtain ⟨p, xs⟩ := s
  obtain ⟨_, hk⟩ := h.reachable.kept
  by_cases hrest : p.AtRest
  · cases xs with
    | nil => exact .inl ⟨rfl, hrest⟩
    | cons x xs =>
      cases ho : p.outbox.offer x with
      | closed => exact .inr ⟨_, .turnedAway hrest.1 ho⟩
      | full => exact .inr ⟨_, .wait hrest.1 ho⟩
      | accepted o => exact .inr ⟨_, .put hrest.1 ho⟩
  · have hroom : 0 < p.outbox.capacity := by rwa [hk.capacity_eq]
    obtain ⟨p', ht⟩ : ∃ p', p.Turn fatal p' := exists_turn hroom hrest
    exact .inr ⟨_, .turn ht⟩

theorem delivered_perm (hcap : 0 < capacity) (hs : s.2 = []) (hrest : s.1.AtRest) :
    s.1.accepted = all ∧ s.1.delivered.Perm all ∧ (workers ≤ 1 → s.1.delivered = all) := by
  have haccepted : s.1.accepted = all := by
    have hall := h.all_eq
    rwa [hs, hrest.1, Option.toList_none, List.append_nil, List.append_nil] at hall
  obtain ⟨hperm, hord⟩ := (h.reachable.exact hcap).delivers hrest
  rw [haccepted, cutAfter_of_countP_lt h.few] at hperm hord
  exact ⟨haccepted, hperm, hord⟩

end Outlasts

def stepsLeft (s : Pool α × List α) : Nat := s.1.turnsLeft + 4 * s.2.length

theorem Fed.stepsLeft_lt {s s' : Pool α × List α} (hf : Fed fatal s s') :
    stepsLeft s' < stepsLeft s := by
  cases hf with
  | turn ht => exact Nat.add_lt_add_right (turnsLeft_turn_lt ht) _
  | put hw ho =>
    obtain ⟨-, -, rfl⟩ := offer_eq_accepted.1 ho
    simp only [stepsLeft, turnsLeft, List.length_append, List.length_cons, List.length_nil]
    omega
  | wait hw =>
    simp only [stepsLeft, turnsLeft, hw, List.length_cons]
    simp
    omega
  | turnedAway => simp [stepsLeft]

/-- The end that a sender with `all` to put in hopes for. -/
structure Done (workers : Nat) (all : List α) (s : Pool α × List α) : Prop where
  nothing_left : s.2 = []
  atRest : s.1.AtRest
  accepted_eq : s.1.accepted = all
  delivered_perm : s.1.delivered.Perm all
  delivered_eq : workers ≤ 1 → s.1.delivered = all

theorem Outlasts.inevitably_done (hcap : 0 < capacity) {s : Pool α × List α}
    (h : Outlasts fatal capacity workers all s) :
    Inevitably (Fed fatal) (Done workers all) s := by
  refine .of_measure stepsLeft (I := Outlasts fatal capacity workers all) (fun s s' hs => hs.fed)
    (fun s s' _ => Fed.stepsLeft_lt) (fun s hs => ?_) h
  refine (hs.done_or_fed hcap).imp_left fun hdone => ?_
  obtain ⟨hleft, hrest⟩ := hdone
  obtain ⟨haccepted, hperm, hord⟩ := hs.delivered_perm hcap hleft hrest
  exact ⟨hleft, hrest, haccepted, hperm, hord⟩

theorem exists_workers_lt (hcap : 0 < capacity) (hpos : 0 < workers) (hx : fatal x = true) :
    ∃ p, Reachable fatal capacity workers p ∧ p.outbox.workers < workers := by
  have hstart : Reachable fatal capacity workers { outbox := { capacity, workers } } := .start
  have hoffer : offer { capacity, workers } x = .accepted { capacity, workers, queued := [x] } :=
    offer_eq_accepted.2 ⟨hpos, hcap, rfl⟩
  have hput := hstart.step (.put rfl hoffer)
  have htake := hput.step (.turn (.take hpos (take?_eq_some.2 ⟨hpos, [], rfl, rfl⟩)))
  have hone : [] ++ [x] = [] ++ x :: [] := rfl
  refine ⟨_, htake.step (.turn (.finish hone)), ?_⟩
  simp only [hx, if_true, loseWorker]
  omega

theorem Reachable.workers_drain_pos (h : Reachable fatal capacity workers p) (hb : p.busy = [])
    (hfew : p.accepted.countP fatal < workers) : 0 < (p.outbox.drain fatal).2.workers :=
  (h.drain hb).workers_pos hfew

theorem Reachable.reply_ne (h : Reachable fatal capacity workers p) (hcap : 0 < capacity)
    (hb : p.busy = []) (hfew : p.accepted.countP fatal < workers) (c : Command α) :
    (p.outbox.apply fatal c).reply ≠ .sent false := by
  have hw := Nat.ne_of_gt (h.workers_pos hfew)
  cases c with
  | settle => simp [apply, settleAfter]
  | attempt x =>
    rw [reply_attempt, if_neg hw]
    split <;> simp
  | send x =>
    obtain ⟨_, hk⟩ := h.kept
    have hd := Nat.ne_of_gt (h.workers_drain_pos hb hfew)
    rw [reply_send (by rwa [hk.capacity_eq]), if_neg (by simp [hw, hd])]
    simp

theorem reply_ne_of_few (hcap : 0 < capacity) (cs : List (Command α))
    (hfew : (after fatal capacity workers cs).accepted.countP fatal < workers) :
    ∀ r ∈ (run fatal { capacity, workers } cs).1, r.reply ≠ .sent false := by
  induction cs using List.reverseRecOn with
  | nil => simp [run]
  | append_singleton cs c ih =>
    rw [after_concat, Pool.enact, List.countP_append] at hfew
    have hbefore := Nat.lt_of_le_of_lt (Nat.le_add_right _ _) hfew
    intro r hr
    rw [run_append, List.mem_append] at hr
    rcases hr with hr | hr
    · exact ih hbefore r hr
    · obtain rfl : r = _ := List.mem_singleton.1 hr
      exact (reachable_after fatal workers hcap cs).reply_ne hcap rfl hbefore c

end Pool

/-- Whatever the faults of the callbacks and the room, a worker ends for each fatal item that is
delivered and for no other reason. With fewer fatal items than workers a worker is left, nobody is
turned away, and whatever steps are taken, all that was put in, is waiting or comes later goes in
and is delivered; a session goes the same way. All workers last through everything if and only if no
callback is fatal. -/
theorem workers_outlast {β : Type} (faults : Faults) {capacity workers : Nat}
    (h : refusal? capacity = none) (hpos : 0 < workers) :
    (∀ p : Pool (Key × β), Pool.Reachable (isFatal faults) capacity workers p →
      p.outbox.workers + p.delivered.countP (isFatal faults) = workers ∧
      (p.accepted.countP (isFatal faults) < workers →
        0 < p.outbox.workers ∧ ∀ x, p.outbox.offer x ≠ .closed) ∧
      ∀ xs all, p.accepted ++ p.waiting?.toList ++ xs = all →
        all.countP (isFatal faults) < workers →
          Inevitably (Pool.Fed (isFatal faults)) (Pool.Done workers all) (p, xs)) ∧
    (∀ cs : List (Command (Key × β)),
      (Pool.after (isFatal faults) capacity workers cs).accepted.countP (isFatal faults) < workers →
        (∀ r ∈ (run (isFatal faults) { capacity, workers } cs).1, r.reply ≠ .sent false) ∧
        (Pool.after (isFatal faults) capacity workers cs).delivered ++
            (Pool.after (isFatal faults) capacity workers cs).outbox.rest (isFatal faults) =
          (Pool.after (isFatal faults) capacity workers cs).accepted) ∧
    ((∀ p : Pool (Key × β), Pool.Reachable (isFatal faults) capacity workers p →
      p.outbox.workers = workers) ↔ ∀ x : Key × β, isFatal faults x = false) := by
  have hcap := pos_of_refusal?_eq_none h
  refine ⟨fun p hp => ⟨(hp.exact hcap).survivors, fun hfew => ⟨hp.workers_pos hfew,
    hp.offer_ne_closed hfew⟩, fun xs all hall hfew => ?_⟩, fun cs hfew =>
    ⟨Pool.reply_ne_of_few hcap cs hfew, ?_⟩, fun hall x => ?_, fun hnone p hp => ?_⟩
  · exact Pool.Outlasts.inevitably_done hcap ⟨hp, hall, hfew⟩
  · rw [Pool.delivered_after _ _ hcap, cutAfter_of_countP_lt hfew]
  · rw [Bool.eq_false_iff]
    intro hx
    obtain ⟨p, hp, hlt⟩ := Pool.exists_workers_lt hcap hpos hx
    exact absurd (hall p hp) (Nat.ne_of_lt hlt)
  · have hsurvivors := (hp.exact hcap).survivors
    rwa [List.countP_eq_zero.2 (by simp [hnone]), Nat.add_zero] at hsurvivors

/-- Of two workers one is left after an item that ends its worker. -/
theorem workers_outlast_last :
    refusal? 1 = none ∧
      (run (isFatal { fatal := ["last"] }) { capacity := 1, workers := 2 }
        [.attempt ("last", 0), .send ("next", 1)]).1.map (·.reply) = [.sent true, .sent true] ∧
      Inevitably (Pool.Fed (isFatal { fatal := ["last"] }))
        (Pool.Done 2 [("last", 0), ("next", 1)])
        ({ outbox := { capacity := 1, workers := 2 } }, [("last", 0), ("next", 1)]) := by
  have hcap : refusal? 1 = none := by decide
  have hpool := (workers_outlast { fatal := ["last"] } hcap Nat.two_pos).1
    ({ outbox := { capacity := 1, workers := 2 } } : Pool (Key × Nat)) .start
  exact ⟨hcap, by decide +kernel, hpool.2.2 _ _ rfl (by decide)⟩

/-- One worker and a callback that ends it, with something queued behind. -/
theorem callback_ends_worker :
    let fatal := isFatal { fatal := ["last"] }
    let cs := [.attempt ("last", 0), .attempt ("next", 1), .settle, .send ("late", 2)]
    let r := run fatal { capacity := 2, workers := 1 } cs
    refusal? 2 = none ∧ r.1.map (·.reply) = [.sent true, .sent true, .done, .sent false] ∧
      r.2.workers = 0 ∧ acceptedIn cs r.1 = [("last", 0), ("next", 1)] ∧
      deliveredIn r.1 ++ r.2.rest fatal = [("last", 0)] := by
  decide +kernel

end ExpiringMap.Outbox
