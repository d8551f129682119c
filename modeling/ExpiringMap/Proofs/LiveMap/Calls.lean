import ExpiringMap.LiveMap.Turn
import ExpiringMap.Proofs.Table.DueCount
import ExpiringMap.Proofs.Table.Guards

namespace ExpiringMap

variable {ν : Type}

namespace Call

/-- Whether a call says when `k` ends. -/
def sets (k : Key) : Call ν → Bool
  | .putUntil j _ _ | .putFor j _ _ | .reschedule j _ => j = k
  | _ => false

/-- Whether a call may change what `k` is bound to. -/
def touches (k : Key) : Call ν → Bool
  | .put j _ | .putUntil j _ _ | .putFor j _ _ | .erase j | .keep j | .reschedule j _ => j = k
  | .eraseMany ks => k ∈ ks
  | .clear => true
  | _ => false

def isStart : Call ν → Bool
  | .start => true
  | _ => false

theorem touches_of_sets {c : Call ν} {k : Key} (h : c.sets k = true) : c.touches k = true := by
  cases c <;> first | exact h | cases h

end Call

namespace Watched

/-- A sweeper that waits with this alarm will look in time. -/
def Alert (alarm? : Option Instant) (w : Watched ν) : Prop :=
  w.table.Guards alarm? ∨ w.permit = true

def make (now : Instant) (w : Watched ν) : Call ν → Watched ν
  | .put k v => w.put k v
  | .putUntil k v deadline => w.putUntil k v deadline
  | .putFor k v ttl => w.putUntil k v (Deadline.ofSpan now ttl)
  | .erase k => (w.erase k).1
  | .eraseMany ks => (w.eraseMany ks).1
  | .clear => w.clear
  | .keep k => (w.keep k).1
  | .reschedule k deadline => (w.reschedule k deadline now).1
  | _ => w

@[simp] theorem table_note (w : Watched ν) (s : Standing) : (w.note s).table = w.table := by
  cases s <;> rfl

theorem Alert.note {w : Watched ν} {t : Table ν} {s : Standing} {alarm? : Option Instant}
    (h : w.Alert alarm?) (hg : s = .behind → w.table.Guards alarm? → t.Guards alarm?) :
    (({ w with table := t } : Watched ν).note s).Alert alarm? := by
  cases s with
  | first => exact .inr rfl
  | behind => exact h.imp_left (hg rfl)

/-- `w'` comes from `w` by a change that touches and sets these keys. -/
structure Changes (touches sets : Key → Bool) (w w' : Watched ν) : Prop where
  consistent : w'.table.Consistent
  alert : ∀ alarm?, w.Alert alarm? → w'.Alert alarm?
  get?_eq : ∀ k, touches k = false → w'.table.get? k = w.table.get? k
  due : ∀ k v e, w'.table.get? k = some (v, .due e) →
    w.table.get? k = some (v, .due e) ∨ sets k = true
  dueCount_le : ∀ now, w'.table.dueCount now ≤ w.table.dueCount now + 1

variable {w w' : Watched ν}

theorem changes_self (h : w.table.Consistent) (touches sets : Key → Bool) :
    Changes touches sets w w where
  consistent := h
  alert _ ha := ha
  get?_eq _ _ := rfl
  due _ _ _ hk := .inl hk
  dueCount_le _ := Nat.le_succ _

theorem changes_of_update (h : w.table.Consistent) {k : Key} {e : Option (ν × Deadline)}
    (hb : w'.table.Binds (Function.update w.table.get? k e)) {sets : Key → Bool}
    (hs : sets k = true ∨ ∀ v t, e = some (v, .due t) → w.table.get? k = some (v, .due t))
    (ha : ∀ alarm?, w.Alert alarm? → w'.Alert alarm?) :
    Changes (fun j => k = j) sets w w' where
  consistent := hb.consistent
  alert := ha
  get?_eq j hj := by
    have hne : j ≠ k := by
      rintro rfl
      simp at hj
    rw [hb.get?_eq, Function.update_of_ne hne]
  due j v t hj := by
    rw [hb.get?_eq] at hj
    by_cases hjk : j = k
    · subst hjk
      rw [Function.update_self] at hj
      exact (hs.imp_right fun he => he v t hj).symm
    · rw [Function.update_of_ne hjk] at hj
      exact .inl hj
  dueCount_le _ := h.dueCount_update_le hb

theorem changes_putUntil (h : w.table.Consistent) (k : Key) (v : ν) (d : Deadline) :
    Changes (fun j => k = j) (fun j => k = j) w (w.putUntil k v d) := by
  have hb := h.putUntil k v d
  apply changes_of_update h (e := some (v, d))
  · simpa [Watched.putUntil] using hb
  · simp
  · intro alarm? ha
    exact ha.note fun hs hg => hg.putUntil h hs

theorem changes_put (h : w.table.Consistent) (k : Key) (v : ν) :
    Changes (fun j => k = j) (fun _ => false) w (w.put k v) :=
  changes_of_update h (h.put k v) (by simp) fun _ ha => ha.imp_left fun hg => hg.put h k v

theorem changes_erase (h : w.table.Consistent) (k : Key) :
    Changes (fun j => k = j) (fun _ => false) w (w.erase k).1 :=
  changes_of_update h (h.erase k) (by simp) fun _ ha => ha.imp_left fun hg => hg.erase h k

theorem changes_keep (h : w.table.Consistent) (k : Key) :
    Changes (fun j => k = j) (fun _ => false) w (w.keep k).1 :=
  changes_of_update h (h.keep k) (by simp) fun _ ha => ha.imp_left fun hg => hg.keep h k

theorem changes_reschedule (h : w.table.Consistent) (k : Key) (d : Deadline) (now : Instant) :
    Changes (fun j => k = j) (fun j => k = j) w (w.reschedule k d now).1 := by
  have hb := h.reschedule k d now
  apply changes_of_update h
  · simpa [Watched.reschedule] using hb
  · simp
  · intro alarm? ha
    exact ha.note fun hs hg => hg.reschedule h hs

theorem changes_eraseMany (h : w.table.Consistent) (ks : List Key) :
    Changes (fun j => j ∈ ks) (fun _ => false) w (w.eraseMany ks).1 where
  consistent := (h.eraseMany ks).consistent
  alert _ ha := ha.imp_left fun hg => hg.eraseMany h ks
  get?_eq j hj := by
    rw [decide_eq_false_iff_not] at hj
    exact ((h.eraseMany ks).get?_eq j).trans (if_neg hj)
  due j v t hj := by
    have hj := ((h.eraseMany ks).get?_eq j).symm.trans hj
    split at hj
    · cases hj
    · exact .inl hj
  dueCount_le _ := (h.dueCount_eraseMany_le ks).trans (Nat.le_succ _)

theorem changes_clear (w : Watched ν) :
    Changes (fun _ => true) (fun _ => false) w w.clear where
  consistent := (Table.binds_clear w.table).consistent
  alert _ ha := ha.imp_left fun _ => Table.Guards.clear w.table
  get?_eq _ hj := by cases hj
  due j v t hj := by
    have hj := ((Table.binds_clear w.table).get?_eq j).symm.trans hj
    cases hj
  dueCount_le now := by
    have hz := Table.dueCount_clear w.table now
    exact hz.trans_le (Nat.zero_le _)

theorem changes_make (h : w.table.Consistent) (now : Instant) (c : Call ν) :
    Changes c.touches c.sets w (w.make now c) := by
  cases c with
  | put k v => exact changes_put h k v
  | putUntil k v d => exact changes_putUntil h k v d
  | putFor k v ttl => exact changes_putUntil h k v _
  | erase k => exact changes_erase h k
  | eraseMany ks => exact changes_eraseMany h ks
  | clear => exact changes_clear w
  | keep k => exact changes_keep h k
  | reschedule k d => exact changes_reschedule h k d now
  | _ => exact changes_self h _ _

end Watched

namespace LiveMap

theorem call_start {m : LiveMap ν} {c : Call ν} (h : c.isStart = true) :
    (m.call c).1 = m.start := by
  cases c <;> first | rfl | cases h

theorem call_make {m : LiveMap ν} {c : Call ν} (h : c.isStart = false) :
    (m.call c).1 = { m with watched := m.watched.make m.now c } := by
  cases c <;> first | rfl | cases h

theorem callAll_append (m : LiveMap ν) (cs cs' : List (Call ν)) :
    (m.callAll (cs ++ cs')).1 = ((m.callAll cs).1.callAll cs').1 := by
  induction cs generalizing m with
  | nil => rfl
  | cons c cs ih => exact ih _

theorem callback?_call (m : LiveMap ν) (c : Call ν) : (m.call c).1.callback? = m.callback? := by
  cases hs : c.isStart with
  | true =>
    rw [call_start hs, start]
    split <;> rfl
  | false => rw [call_make hs]

theorem callback?_callAll (m : LiveMap ν) (cs : List (Call ν)) :
    (m.callAll cs).1.callback? = m.callback? := by
  induction cs generalizing m with
  | nil => rfl
  | cons c cs ih => exact (ih _).trans (callback?_call m c)

theorem delivered_call (m : LiveMap ν) (c : Call ν) : (m.call c).1.delivered = m.delivered := by
  cases hs : c.isStart with
  | true =>
    rw [call_start hs, start]
    split <;> rfl
  | false => rw [call_make hs]

theorem delivered_callAll (m : LiveMap ν) (cs : List (Call ν)) :
    (m.callAll cs).1.delivered = m.delivered := by
  induction cs generalizing m with
  | nil => rfl
  | cons c cs ih => exact (ih _).trans (delivered_call m c)

/-- The calls that delivering an entry makes. -/
def callsFor (m : LiveMap ν) (x : Expired ν) : List (Call ν) :=
  match m.callback? with
  | some c => (c.script? x.key).getD [] ++ (c.rearmCall? x.key x.value).toList
  | none => []

def spend (m : LiveMap ν) (k : Key) : LiveMap ν :=
  { m with callback? := m.callback?.map (·.spend k) }

/-- What delivering an entry leaves in the list of deliveries. -/
def eventsFor (m : LiveMap ν) (x : Expired ν) : List (Event ν) :=
  match m.callback? with
  | some c =>
    [{ time := m.clock, key := x.key, value := x.value, due := x.due
       script? := (c.script? x.key).map fun _ =>
         ((m.spend x.key).callAll ((c.script? x.key).getD [])).2 }]
  | none => []

/-- To deliver an entry is to make calls and to write it down. -/
theorem deliver_eq (m : LiveMap ν) (x : Expired ν) :
    m.deliver x = { ((m.spend x.key).callAll (m.callsFor x)).1 with
      delivered := m.delivered ++ m.eventsFor x } := by
  unfold deliver callsFor eventsFor
  cases hc : m.callback? with
  | none =>
    simp only [callAll, spend, hc, Option.map_none, List.append_nil]
    rw [← hc]
  | some c =>
    have hs : m.spend x.key = { m with callback? := some (c.spend x.key) } := by
      simp [spend, hc]
    simp only [hs, callAll_append, delivered_callAll]

end LiveMap

end ExpiringMap
