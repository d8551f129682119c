import ExpiringMap.Table.Reads

namespace ExpiringMap.Table

open Std

variable {ν : Type}

inductive Command (ν : Type) where
  | put (k : Key) (v : ν)
  | putUntil (k : Key) (v : ν) (deadline : Deadline)
  | erase (k : Key)
  | clear
  | keep (k : Key)
  | reschedule (k : Key) (deadline : Deadline) (now : Instant)
  | takeDue (now : Instant)
  | get (k : Key)
  | contains (k : Key)
  | keys
  | values
  | visit (v : Visitor)

inductive Reply (ν : Type) where
  | done
  | flag (b : Bool)
  | standing (s : Standing)
  | rescheduled (live : Bool) (s : Standing)
  | expired (xs : List (Expired ν))
  | entry (e? : Option (ν × Deadline))
  | keys (ks : List Key)
  | values (vs : ExtTreeMap Key ν)
  | visited (v : Visit ν)

def apply (t : Table ν) : Command ν → Reply ν × Table ν
  | .put k v => (.done, t.put k v)
  | .putUntil k v deadline => let r := t.putUntil k v deadline; (.standing r.2, r.1)
  | .erase k => let r := t.erase k; (.flag r.2, r.1)
  | .clear => (.done, t.clear)
  | .keep k => let r := t.keep k; (.flag r.2, r.1)
  | .reschedule k deadline now =>
    let r := t.reschedule k deadline now; (.rescheduled r.2.1 r.2.2, r.1)
  | .takeDue now => let r := t.takeDue now; (.expired r.1, r.2)
  | .get k => (.entry (t.get? k), t)
  | .contains k => (.flag (t.contains k), t)
  | .keys => (.keys t.keys, t)
  | .values => (.values t.values, t)
  | .visit v => (.visited (t.visit v), t)

def after (commands : List (Command ν)) : Table ν :=
  commands.foldl (fun t c => (t.apply c).2) {}

end ExpiringMap.Table
