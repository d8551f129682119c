import ExpiringMap.Proofs.Agenda.Checks
import ExpiringMap.Proofs.Table.Due

namespace ExpiringMap.Table

open Agenda (Fault)

variable {ν : Type}

/-- The entry of a key comes off the agenda and is still there. -/
def checkOff (t : Table ν) (k : Key) : Except Fault Unit :=
  match t.index[k]? with
  | some id => do
    t.agenda.checkUnschedule id
    let _ ← (t.agenda.unschedule id).lookUp id
  | none => .ok ()

def checkSchedule (t : Table ν) (id : Nat) : Except Fault Unit := do
  t.agenda.checkSchedule id
  let _ ← (t.agenda.schedule id).lookUp id

def checkPutUntil (t : Table ν) (k : Key) (v : ν) : Deadline → Except Fault Unit
  | .never => t.checkOff k
  | .due e =>
    match t.index[k]? with
    | some id => do
      let _ ← t.agenda.lookUp id
      (t.onAgenda (·.modify id ({ · with payload := ⟨k, v⟩, deadline := .due e }))).checkSchedule id
    | none => (t.add k v (.due e)).checkSchedule t.fresh

def checkReschedule (t : Table ν) (k : Key) (now : Instant) : Deadline → Except Fault Unit
  | .never => t.checkOff k
  | .due e =>
    if e ≤ now then t.checkOff k
    else match t.index[k]? with
      | some id => do
        let _ ← t.agenda.lookUp id
        (t.onAgenda (·.modify id ({ · with deadline := .due e }))).checkSchedule id
      | none => .ok ()

def checkTakeDue (t : Table ν) (now : Instant) : Except Fault Unit :=
  match _h : t.agenda.slots[0]? with
  | some id => do
    let x ← t.agenda.lookUp id
    if x.deadline.hasPassed now then do
      t.agenda.checkEraseAt 0
      let _ ← (t.agenda.eraseAt 0).lookUp id
      (t.expireRoot id x.payload.key).checkTakeDue now
    else .ok ()
  | none => .ok ()
termination_by t.agenda.size
decreasing_by
  have hpos : 0 < t.agenda.size := (Array.getElem?_eq_some_iff.1 _h).1
  simp only [expireRoot, countExpired, Agenda.size_forget, Agenda.size_eraseAt hpos]
  omega

def checkGet (t : Table ν) (k : Key) : Except Fault Unit :=
  match t.index[k]? with
  | some id => do let _ ← t.agenda.lookUp id
  | none => .ok ()

def check (t : Table ν) : Command ν → Except Fault Unit
  | .put k _ | .keep k | .erase k => t.checkOff k
  | .putUntil k v deadline => t.checkPutUntil k v deadline
  | .reschedule k deadline now => t.checkReschedule k now deadline
  | .takeDue now => t.checkTakeDue now
  | .get k => t.checkGet k
  | .clear | .contains _ | .keys | .values | .visit _ => .ok ()

/-- Carries out commands, each after its check, up to the first fault. -/
def run (commands : List (Command ν)) : Except Fault (Table ν) :=
  commands.foldlM (fun t c => do t.check c; return (t.apply c).2) {}

namespace Consistent

variable {t : Table ν} (h : t.Consistent)

include h

theorem isSome_content? {k : Key} {id : Nat} (hk : t.index[k]? = some id) :
    (t.agenda.content? id).isSome := by
  obtain ⟨v, d, hc⟩ := (h.index k id).1 hk
  rw [hc]
  rfl

theorem checkOff (k : Key) : t.checkOff k = .ok () := by
  unfold Table.checkOff
  split
  · next id hk =>
    have hid := h.isSome_content? hk
    have hu := h.agenda.unschedule id
    rw [← hu.content?_eq] at hid
    obtain ⟨x, hx, -⟩ := Agenda.lookUp_eq_ok hid
    rw [h.agenda.linked.checkUnschedule (h.isSome_content? hk), hx]
    rfl
  · rfl

theorem checkSchedule_modify {k : Key} {id : Nat} (hk : t.index[k]? = some id)
    {f : Item (Entry ν) → Item (Entry ν)} {g : Entry ν × Deadline → Entry ν × Deadline}
    (hf : ∀ x, (f x).position = x.position)
    (hg : ∀ x, ((f x).payload, (f x).deadline) = g (x.payload, x.deadline)) :
    (t.onAgenda (·.modify id f)).checkSchedule id = .ok () := by
  have hid := h.isSome_content? hk
  have hm : ((t.agenda.modify id f).content? id).isSome := by
    rwa [Agenda.content?_modify_self _ id hg, Option.isSome_map]
  have ht := h.agenda.modify_schedule_touches id hf hg hid
  obtain ⟨x, hx, -⟩ : ∃ x, ((t.agenda.modify id f).schedule id).lookUp id = .ok x ∧ _ := by
    apply Agenda.lookUp_eq_ok
    rwa [ht.content?_self, Option.isSome_map]
  have hl := (h.agenda.modify id hf).linked
  simp only [Table.checkSchedule, onAgenda, hl.checkSchedule hm, hx]
  rfl

theorem checkSchedule_add (k : Key) (v : ν) (d : Deadline) :
    (t.add k v d).checkSchedule t.fresh = .ok () := by
  have hi := h.agenda.insert_touches (x := { payload := ⟨k, v⟩, deadline := d })
    h.content?_fresh rfl
  have ht := h.agenda.insert_schedule_touches (x := { payload := ⟨k, v⟩, deadline := d })
    h.content?_fresh rfl
  obtain ⟨x, hx, -⟩ := Agenda.lookUp_eq_ok (Option.isSome_of_eq_some ht.content?_self)
  have hc := hi.consistent.linked.checkSchedule (Option.isSome_of_eq_some hi.content?_self)
  simp only [Table.checkSchedule, add, hc, hx]
  rfl

theorem checkTakeDue (now : Instant) : t.checkTakeDue now = .ok () := by
  fun_induction Table.checkTakeDue t now with
  | case1 t id hid ih =>
    have hs := h.agenda.linked.isSome_content? hid
    obtain ⟨x, hx, -⟩ := Agenda.lookUp_eq_ok hs
    have he := h.agenda.eraseAt ((h.agenda.linked 0 id).1 hid)
    rw [← he.content?_eq] at hs
    obtain ⟨y, hy, -⟩ := Agenda.lookUp_eq_ok hs
    have hroot : t.agenda.root? = some (id, x) := by
      unfold Agenda.lookUp at hx
      split at hx
      · next hitem =>
        cases hx
        simp [Agenda.root?, hid, hitem]
      · cases hx
    have hpos : 0 < t.agenda.size := Agenda.size_pos_of_root? hroot
    have hrest := ih x (h.expireRoot hroot).consistent
    rw [hx]
    change (if _ then _ else _) = _
    split
    · rw [h.agenda.linked.checkEraseAt hpos, hy]
      exact hrest
    · rfl
  | case2 => rfl

theorem checkPutUntil (k : Key) (v : ν) (d : Deadline) : t.checkPutUntil k v d = .ok () := by
  cases d with
  | never => exact h.checkOff k
  | due e =>
    simp only [Table.checkPutUntil]
    split
    · next id hk =>
      obtain ⟨x, hx, -⟩ := Agenda.lookUp_eq_ok (h.isSome_content? hk)
      rw [hx]
      exact h.checkSchedule_modify hk (g := fun _ => (⟨k, v⟩, .due e)) (fun _ => rfl) fun _ => rfl
    · exact h.checkSchedule_add k v (.due e)

theorem checkReschedule (k : Key) (now : Instant) (d : Deadline) :
    t.checkReschedule k now d = .ok () := by
  cases d with
  | never => exact h.checkOff k
  | due e =>
    simp only [Table.checkReschedule]
    split
    · exact h.checkOff k
    · split
      · next id hk =>
        obtain ⟨x, hx, -⟩ := Agenda.lookUp_eq_ok (h.isSome_content? hk)
        rw [hx]
        exact h.checkSchedule_modify hk (g := fun c => (c.1, .due e)) (fun _ => rfl) fun _ => rfl
      · rfl

theorem checkGet (k : Key) : t.checkGet k = .ok () := by
  unfold Table.checkGet
  split
  · next id hk =>
    obtain ⟨x, hx, -⟩ := Agenda.lookUp_eq_ok (h.isSome_content? hk)
    rw [hx]
    rfl
  · rfl

theorem check (c : Command ν) : t.check c = .ok () := by
  cases c with
  | put k v => exact h.checkOff k
  | putUntil k v d => exact h.checkPutUntil k v d
  | erase k => exact h.checkOff k
  | keep k => exact h.checkOff k
  | reschedule k d now => exact h.checkReschedule k now d
  | takeDue now => exact h.checkTakeDue now
  | get k => exact h.checkGet k
  | clear | contains | keys | values | visit => rfl

end Consistent

end ExpiringMap.Table
