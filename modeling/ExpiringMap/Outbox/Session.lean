import ExpiringMap.Outbox.Basic

namespace ExpiringMap.Outbox

variable {α : Type}

inductive Command (α : Type) where
  /-- Waits for room, then for the workers. -/
  | send (x : α)
  /-- Does not wait. -/
  | attempt (x : α)
  | settle

inductive Reply where
  | sent (accepted : Bool)
  | full
  | done
  deriving DecidableEq

structure Outcome (α : Type) where
  reply : Reply
  delivered : List α := []
  outbox : Outbox α

/-- Lets the workers deliver, after what they have delivered already. -/
def settleAfter (fatal : α → Bool) (reply : Reply) (delivered : List α) (o : Outbox α) :
    Outcome α :=
  let r := o.drain fatal
  { reply, delivered := delivered ++ r.1, outbox := r.2 }

def apply (fatal : α → Bool) (o : Outbox α) : Command α → Outcome α
  | .settle => settleAfter fatal .done [] o
  | .attempt x =>
    match o.offer x with
    | .closed => { reply := .sent false, outbox := o }
    | .full => { reply := .full, outbox := o }
    | .accepted o => { reply := .sent true, outbox := o }
  | .send x =>
    match o.offer x with
    | .closed => { reply := .sent false, outbox := o }
    | .accepted o => settleAfter fatal (.sent true) [] o
    | .full =>
      let r := o.drain fatal
      match r.2.offer x with
      | .accepted o => settleAfter fatal (.sent true) r.1 o
      | _ => { reply := .sent false, delivered := r.1, outbox := r.2 }

def run (fatal : α → Bool) (o : Outbox α) : List (Command α) → List (Outcome α) × Outbox α
  | [] => ([], o)
  | c :: cs =>
    let first := o.apply fatal c
    let r := first.outbox.run fatal cs
    (first :: r.1, r.2)

/-- What is delivered once the sender has gone. -/
def rest (fatal : α → Bool) (o : Outbox α) : List α := (o.drain fatal).1

/-- The order in which deliveries are listed: as they were made if at most one of `workers` made
them, else by key. -/
def listing (workers : Nat) (key : α → Key) (xs : List α) : List α :=
  if workers ≤ 1 then xs else Key.sortBy key xs

end ExpiringMap.Outbox
