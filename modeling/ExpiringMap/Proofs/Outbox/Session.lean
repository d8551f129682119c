import Mathlib.Data.List.Induction
import Mathlib.Data.List.Perm.Basic
import ExpiringMap.Outbox.Session
import ExpiringMap.Proofs.Outbox.Pool

namespace ExpiringMap.Outbox

variable {α : Type} {fatal : α → Bool} {capacity workers : Nat} {o : Outbox α} {x : α}

def Command.item? : Command α → Option α
  | send x | attempt x => some x
  | settle => none

/-- The items of the commands that were told that they are in, in this order. -/
def acceptedIn (cs : List (Command α)) (rs : List (Outcome α)) : List α :=
  (cs.zip rs).filterMap fun (c, r) => if r.reply = .sent true then c.item? else none

def deliveredIn (rs : List (Outcome α)) : List α := rs.flatMap (·.delivered)

theorem run_append (fatal : α → Bool) (o : Outbox α) (cs ds : List (Command α)) :
    o.run fatal (cs ++ ds) =
      ((o.run fatal cs).1 ++ ((o.run fatal cs).2.run fatal ds).1,
        ((o.run fatal cs).2.run fatal ds).2) := by
  induction cs generalizing o with
  | nil => rfl
  | cons c cs ih => simp only [List.cons_append, run, ih]

theorem length_run (fatal : α → Bool) (o : Outbox α) (cs : List (Command α)) :
    (o.run fatal cs).1.length = cs.length := by
  induction cs generalizing o with
  | nil => rfl
  | cons c cs ih => rw [run, List.length_cons, List.length_cons, ih]

theorem acceptedIn_append {cs ds : List (Command α)} {rs ss : List (Outcome α)}
    (h : cs.length = rs.length) :
    acceptedIn (cs ++ ds) (rs ++ ss) = acceptedIn cs rs ++ acceptedIn ds ss := by
  rw [acceptedIn, List.zip_append h, List.filterMap_append]
  rfl

theorem reply_attempt (fatal : α → Bool) (o : Outbox α) (x : α) :
    (o.apply fatal (.attempt x)).reply =
      if o.workers = 0 then .sent false
      else if o.capacity ≤ o.queued.length then .full else .sent true := by
  rw [apply, offer]
  split_ifs <;> rfl

theorem reply_send (hcap : 0 < o.capacity) (x : α) :
    (o.apply fatal (.send x)).reply =
      if o.workers = 0 ∨ (o.capacity ≤ o.queued.length ∧ (o.drain fatal).2.workers = 0)
      then .sent false else .sent true := by
  rw [apply]
  cases ho : o.offer x with
  | closed => simp [offer_eq_closed.1 ho]
  | accepted o' =>
    obtain ⟨hw, hroom, -⟩ := offer_eq_accepted.1 ho
    simp [settleAfter, Nat.ne_of_gt hw, Nat.not_le.2 hroom]
  | full =>
    obtain ⟨hw, hfull⟩ := offer_eq_full.1 ho
    cases hd : (o.drain fatal).2.offer x with
    | closed => simp [hfull, hd, offer_eq_closed.1 hd]
    | accepted o' =>
      have hleft := (offer_eq_accepted.1 hd).1
      simp [settleAfter, Nat.ne_of_gt hw, hd, Nat.ne_of_gt hleft]
    | full => exact absurd hd (offer_drain_ne_full hcap)

namespace Pool

variable {p : Pool α}

def deliver (p : Pool α) (xs : List α) (o : Outbox α) : Pool α :=
  { p with outbox := o, taken := p.taken ++ xs, delivered := p.delivered ++ xs }

theorem deliver_nil (p : Pool α) : p.deliver [] p.outbox = p := by simp [deliver]

theorem deliver_deliver (p : Pool α) (xs ys : List α) (o o' : Outbox α) :
    (p.deliver xs o).deliver ys o' = p.deliver (xs ++ ys) o' := by simp [deliver]

theorem Reachable.work (h : Reachable fatal capacity workers p) (hb : p.busy = [])
    (hwork : p.outbox.work? fatal = some (x, o)) :
    Reachable fatal capacity workers (p.deliver [x] o) := by
  obtain ⟨o', htake, rfl⟩ := work?_eq_some.1 hwork
  obtain ⟨o₀, w?, busy, accepted, taken, delivered⟩ := p
  obtain rfl : busy = [] := hb
  have htaken := h.step (.turn (.take (take?_eq_some.1 htake).1 htake))
  have hone : [] ++ [x] = [] ++ x :: [] := rfl
  have hdone := htaken.step (.turn (.finish hone))
  exact hdone

theorem Reachable.drain (h : Reachable fatal capacity workers p) (hb : p.busy = []) :
    Reachable fatal capacity workers
      (p.deliver (p.outbox.drain fatal).1 (p.outbox.drain fatal).2) := by
  generalize ho : p.outbox = o
  induction o using Outbox.drain.induct fatal generalizing p with
  | case1 o x o' hwork ih =>
    subst ho
    have hnext := ih (h.work hb hwork) hb rfl
    rw [drain_of_some hwork]
    rwa [deliver_deliver, List.singleton_append] at hnext
  | case2 o hwork =>
    subst ho
    rwa [drain_of_none hwork, deliver_nil]

/-- The pool after a command, which the sender gives with nobody busy. -/
def enact (fatal : α → Bool) (p : Pool α) (c : Command α) : Pool α :=
  let r := p.outbox.apply fatal c
  { p with
    outbox := r.outbox
    accepted := p.accepted ++ acceptedIn [c] [r]
    taken := p.taken ++ r.delivered
    delivered := p.delivered ++ r.delivered }

theorem Reachable.enact (h : Reachable fatal capacity workers p) (hcap : 0 < p.outbox.capacity)
    (hb : p.busy = []) (hw : p.waiting? = none) (c : Command α) :
    Reachable fatal capacity workers (p.enact fatal c) := by
  obtain ⟨o, w?, busy, accepted, taken, delivered⟩ := p
  obtain rfl : busy = [] := hb
  obtain rfl : w? = none := hw
  cases c with
  | settle =>
    simpa [Pool.enact, apply, settleAfter, acceptedIn, Command.item?, deliver] using h.drain rfl
  | attempt x =>
    cases ho : o.offer x with
    | closed => simpa [Pool.enact, apply, ho, acceptedIn] using h
    | full => simpa [Pool.enact, apply, ho, acceptedIn] using h
    | accepted o' =>
      simpa [Pool.enact, apply, ho, acceptedIn, Command.item?] using h.step (.put rfl ho)
  | send x =>
    cases ho : o.offer x with
    | closed => simpa [Pool.enact, apply, ho, acceptedIn] using h
    | accepted o' =>
      have hin := (h.step (.put rfl ho)).drain rfl
      simpa [Pool.enact, apply, ho, settleAfter, acceptedIn, Command.item?, deliver] using hin
    | full =>
      -- While the sender waits the workers run, and then there is room or nobody is left.
      have hran := (h.step (.wait rfl ho)).drain rfl
      cases hd : (o.drain fatal).2.offer x with
      | closed =>
        have hout := hran.step (.turn (.refuse rfl hd))
        simpa [Pool.enact, apply, ho, hd, acceptedIn, deliver] using hout
      | full => exact absurd hd (offer_drain_ne_full hcap)
      | accepted o' =>
        have hin := (hran.step (.turn (.enter rfl hd))).drain rfl
        simpa [Pool.enact, apply, ho, hd, settleAfter, acceptedIn, Command.item?, deliver] using hin

def after (fatal : α → Bool) (capacity workers : Nat) (cs : List (Command α)) : Pool α :=
  let r := run fatal { capacity, workers } cs
  { outbox := r.2
    accepted := acceptedIn cs r.1
    taken := deliveredIn r.1
    delivered := deliveredIn r.1 }

theorem after_concat (cs : List (Command α)) (c : Command α) :
    after fatal capacity workers (cs ++ [c]) = (after fatal capacity workers cs).enact fatal c := by
  have hlen := (length_run fatal { capacity, workers } cs).symm
  simp only [after, Pool.enact, run_append, acceptedIn_append hlen, deliveredIn,
    List.flatMap_append, run, List.flatMap_singleton]

theorem reachable_after (fatal : α → Bool) (workers : Nat) (hcap : 0 < capacity)
    (cs : List (Command α)) :
    Reachable fatal capacity workers (after fatal capacity workers cs) := by
  induction cs using List.reverseRecOn with
  | nil => exact .start
  | append_singleton cs c ih =>
    obtain ⟨_, hk⟩ := ih.kept
    rw [after_concat]
    exact ih.enact (by rw [hk.capacity_eq]; exact hcap) rfl rfl c

theorem delivered_after (fatal : α → Bool) (workers : Nat) (hcap : 0 < capacity)
    (cs : List (Command α)) :
    (after fatal capacity workers cs).delivered ++
        (after fatal capacity workers cs).outbox.rest fatal =
      cutAfter fatal workers (after fatal capacity workers cs).accepted := by
  obtain ⟨_, hk⟩ := ((reachable_after fatal workers hcap cs).drain rfl).kept
  exact hk.taken_eq rfl (work?_eq_none.1 (work?_drain fatal _))

end Pool

theorem listing_perm (workers : Nat) (key : α → Key) (xs : List α) :
    (listing workers key xs).Perm xs := by
  unfold listing
  split
  · exact .refl xs
  · exact xs.mergeSort_perm _

/-- All that is listed as delivered, command by command and once the sender has gone. -/
def listedIn (fatal : α → Bool) (key : α → Key) (workers : Nat)
    (r : List (Outcome α) × Outbox α) : List α :=
  (r.1.flatMap fun r => listing workers key r.delivered) ++ listing workers key (r.2.rest fatal)

theorem listedIn_perm (fatal : α → Bool) (key : α → Key) (workers : Nat)
    (r : List (Outcome α) × Outbox α) :
    (listedIn fatal key workers r).Perm (deliveredIn r.1 ++ r.2.rest fatal) :=
  (List.Perm.flatMap_left r.1 fun r _ => listing_perm workers key r.delivered).append
    (listing_perm workers key (r.2.rest fatal))

theorem listedIn_eq (h : workers ≤ 1) (fatal : α → Bool) (key : α → Key)
    (r : List (Outcome α) × Outbox α) :
    listedIn fatal key workers r = deliveredIn r.1 ++ r.2.rest fatal := by
  simp only [listedIn, listing, if_pos h, deliveredIn]

/-- How a session goes that leaves `p` and lists `listed`, with what a further command is told. -/
structure Served (fatal : α → Bool) (capacity workers : Nat) (p : Pool α) (listed : List α) :
    Prop where
  reachable : Pool.Reachable fatal capacity workers p
  lists : listed.Perm (cutAfter fatal workers p.accepted)
  lists_in_order : workers ≤ 1 → listed = cutAfter fatal workers p.accepted
  lists_no_other : ∀ x ∉ p.accepted, x ∉ listed
  attempt : ∀ x, (p.outbox.apply fatal (.attempt x)).reply =
    if p.outbox.workers = 0 then .sent false
    else if p.untaken.length = capacity then .full else .sent true
  send : ∀ x, (p.outbox.apply fatal (.send x)).reply =
    if p.outbox.workers = 0 ∨
        (p.untaken.length = capacity ∧ (p.outbox.drain fatal).2.workers = 0)
    then .sent false else .sent true

theorem served_after (hcap : 0 < capacity) (key : α → Key) (cs : List (Command α)) :
    Served fatal capacity workers (Pool.after fatal capacity workers cs)
      (listedIn fatal key workers (run fatal { capacity, workers } cs)) := by
  have hreach := Pool.reachable_after fatal workers hcap cs
  have hperm := listedIn_perm fatal key workers (run fatal { capacity, workers } cs)
  have htotal := Pool.delivered_after fatal workers hcap cs
  obtain ⟨_, hk⟩ := hreach.kept
  have hroom : 0 < (Pool.after fatal capacity workers cs).outbox.capacity := by
    rwa [hk.capacity_eq]
  have hlists := hperm.trans (.of_eq htotal)
  refine ⟨hreach, hlists, fun hle => (listedIn_eq hle fatal key _).trans htotal,
    fun x hx hl => hx ((cutAfter_isPrefix ..).subset (hlists.mem_iff.1 hl)), fun x => ?_,
    fun x => ?_⟩
  · rw [reply_attempt]
    by_cases hw : (Pool.after fatal capacity workers cs).outbox.workers = 0
    · rw [if_pos hw, if_pos hw]
    · simp only [hk.le_queued_iff (Nat.pos_of_ne_zero hw)]
  · rw [reply_send hroom]
    by_cases hw : (Pool.after fatal capacity workers cs).outbox.workers = 0
    · rw [if_pos (.inl hw), if_pos (.inl hw)]
    · simp only [hk.le_queued_iff (Nat.pos_of_ne_zero hw)]

def isFatal {β : Type} (faults : Faults) (x : Key × β) : Bool := faults.endsWorker x.1

theorem isFatal_iff {β : Type} {faults : Faults} {x : Key × β} :
    isFatal faults x = true ↔ x.1 ∈ faults.fatal ∧ x.1 ∉ faults.failing := by
  simp [isFatal, Faults.endsWorker]

/-- Whatever the faults of the callbacks, the workers and the room, a pool delivers what it took in
up to the item that ends its last worker, in whatever order it goes on, and a session does so too.
Which other callbacks fail makes no difference. -/
theorem served_exactly {β : Type} (faults : Faults) {capacity : Nat} (workers : Nat)
    (h : refusal? capacity = none) :
    (∀ p : Pool (Key × β), Pool.Reachable (isFatal faults) capacity workers p →
      p.Exact (isFatal faults) capacity workers) ∧
    (∀ cs : List (Command (Key × β)),
      Served (isFatal faults) capacity workers (Pool.after (isFatal faults) capacity workers cs)
        (listedIn (isFatal faults) (·.1) workers
          (run (isFatal faults) { capacity, workers } cs))) ∧
    ∀ failing : List Key, (∀ k ∈ faults.fatal, k ∈ failing ↔ k ∈ faults.failing) →
      ∀ cs : List (Command (Key × β)),
        run (isFatal { faults with failing }) { capacity, workers } cs =
          run (isFatal faults) { capacity, workers } cs := by
  have hcap := pos_of_refusal?_eq_none h
  refine ⟨fun p hp => hp.exact hcap, fun cs => served_after hcap _ cs, fun failing hf cs => ?_⟩
  congr 1
  funext x
  rw [Bool.eq_iff_iff, isFatal_iff, isFatal_iff]
  exact and_congr_right fun hx => not_congr (hf x.1 hx)

/-- A sender waits for room, and the worker ends first. -/
theorem served_exactly_closing :
    refusal? 1 = none ∧
      (run (isFatal { fatal := ["last"] }) { capacity := 1, workers := 1 }
        [.attempt ("last", 0), .send ("late", 1)]).1.map (·.reply) = [.sent true, .sent false] ∧
      Served (isFatal { fatal := ["last"] }) 1 1
        (Pool.after (isFatal { fatal := ["last"] }) 1 1
          [.attempt ("last", 0), .send ("late", 1)]) [("last", 0)] := by
  have hcap : refusal? 1 = none := by decide
  have hlisted : listedIn (isFatal { fatal := ["last"] }) (·.1) 1
      (run (isFatal { fatal := ["last"] }) { capacity := 1, workers := 1 }
        [.attempt ("last", 0), .send ("late", 1)]) = [("last", 0)] := by decide +kernel
  refine ⟨hcap, by decide +kernel, ?_⟩
  rw [← hlisted]
  exact (served_exactly { fatal := ["last"] } 1 hcap).2.1 _

end ExpiringMap.Outbox
