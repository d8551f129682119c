import ExpiringMap.LiveMap.Operation
import ExpiringMap.Proofs.LiveMap.Calls
import ExpiringMap.Proofs.LiveMap.Turns

namespace ExpiringMap.LiveMap

variable {ν : Type}

/-- The map, with deliveries from before. -/
def recalling (m : LiveMap ν) (es : List (Event ν)) : LiveMap ν :=
  { m with delivered := es ++ m.delivered }

variable (m : LiveMap ν) (es : List (Event ν))

theorem start_recalling : (m.recalling es).start = m.start.recalling es := by
  have hrunning : (m.recalling es).isRunning = m.isRunning := rfl
  unfold start
  rw [hrunning]
  split <;> rfl

theorem call_recalling (c : Call ν) :
    (m.recalling es).call c = ((m.call c).1.recalling es, (m.call c).2) := by
  cases c with
  | start => exact congrArg (·, Answer.done) (m.start_recalling es)
  | putUntil k v d => simp only [call, recalling]
  | putFor k v ttl => simp only [call, recalling, now]
  | _ => rfl

theorem callAll_recalling (cs : List (Call ν)) :
    (m.recalling es).callAll cs = ((m.callAll cs).1.recalling es, (m.callAll cs).2) := by
  induction cs generalizing m with
  | nil => rfl
  | cons c cs ih => simp only [callAll, call_recalling, ih]

theorem deliver_recalling (x : Expired ν) :
    (m.recalling es).deliver x = (m.deliver x).recalling es := by
  have hspend : (m.recalling es).spend x.key = (m.spend x.key).recalling es := rfl
  have hcalls : (m.recalling es).callsFor x = m.callsFor x := rfl
  have hevents : (m.recalling es).eventsFor x = m.eventsFor x := by
    simp only [eventsFor, hspend, callAll_recalling]
    rfl
  rw [deliver_eq, deliver_eq, hspend, hcalls, hevents, callAll_recalling]
  simp only [recalling, List.append_assoc]

theorem afterWork_recalling (i : Nat) (x : Expired ν) :
    (m.recalling es).afterWork i x = (m.afterWork i x).recalling es := by
  unfold afterWork
  rw [deliver_recalling]
  have hends : ((m.deliver x).recalling es).endsWorker x.key = (m.deliver x).endsWorker x.key := rfl
  rw [hends]
  split <;> rfl

theorem turn?_recalling (t : Turn) :
    (m.recalling es).turn? t = (m.turn? t).map (·.recalling es) := by
  cases t with
  | hand i =>
    rw [turn?_hand, turn?_hand, Option.map_map]
    rfl
  | work i =>
    rw [turn?_work, turn?_work, Option.map_map]
    congr 1
    funext p
    exact afterWork_recalling (m.setSweeper i p.2) es i p.1
  | look i =>
    rw [turn?_look, turn?_look, Option.map_map]
    rfl
  | release i r =>
    rw [turn?_release, turn?_release, Option.map_map]
    rfl

theorem turn_recalling (t : Turn) : (m.recalling es).turn t = (m.turn t).recalling es := by
  rw [turn, turn, turn?_recalling]
  cases m.turn? t <;> rfl

theorem canTake_recalling : (m.recalling es).canTake = m.canTake := by
  funext t
  rw [canTake, turn?_recalling, Option.isSome_map, canTake]

theorem canGo_recalling : (m.recalling es).canGo = m.canGo := by
  funext a
  rw [canGo, canTake_recalling, canGo]

theorem isAtRest_recalling : (m.recalling es).isAtRest = m.isAtRest := by
  rw [isAtRest, canGo_recalling, isAtRest]
  rfl

theorem isAtRest_with_delivered :
    ({ m with delivered := es } : LiveMap ν).isAtRest = m.isAtRest := by
  -- Both maps are one without deliveries, recalling some.
  let fresh : LiveMap ν := { m with delivered := [] }
  have hes : ({ m with delivered := es } : LiveMap ν) = fresh.recalling es := by
    simp only [fresh, recalling, List.append_nil]
  have hself : m = fresh.recalling m.delivered := by
    simp only [fresh, recalling, List.append_nil]
  rw [hes, isAtRest_recalling, ← isAtRest_recalling fresh m.delivered, ← hself]

theorem enrol_recalling (r : Rota) : (m.recalling es).enrol r = m.enrol r := by
  rw [enrol, canGo_recalling, enrol]
  rfl

theorem nextTurn?_recalling (r : Rota) : (m.recalling es).nextTurn? r = m.nextTurn? r := by
  rw [nextTurn?, canTake_recalling, nextTurn?]
  rfl

theorem rotaAfter_recalling (r : Rota) (t : Turn) (m' : LiveMap ν) :
    (m.recalling es).rotaAfter r t (m'.recalling es) = m.rotaAfter r t m' := by
  have hset (i : Nat) (s : Sweeper ν) :
      (m.recalling es).setSweeper i s = (m.setSweeper i s).recalling es := rfl
  have hsweepers : (m.recalling es).sweepers = m.sweepers := rfl
  cases t <;> simp only [rotaAfter, hset, hsweepers, enrol_recalling]

theorem steps_recalling (n : Nat) (r : Rota) :
    (m.recalling es).steps n r = (m.steps n r).recalling es := by
  induction n generalizing m r with
  | zero => rfl
  | succ n ih =>
    rw [steps_succ, steps_succ, nextTurn?_recalling]
    cases m.nextTurn? r with
    | none => rfl
    | some p =>
      simp only [turn_recalling, rotaAfter_recalling]
      exact ih _ _

theorem settle_recalling : (m.recalling es).settle = m.settle.recalling es := by
  have hrota : (m.recalling es).rota = m.rota := by
    unfold rota
    rw [enrol_recalling]
    rfl
  rw [settle, hrota, steps_recalling]
  rfl

theorem advanceTo_recalling (clock : Nat) :
    (m.recalling es).advanceTo clock = (m.advanceTo clock).recalling es :=
  settle_recalling { m with clock } es

theorem sleepUntil_recalling (target : Nat) :
    (m.recalling es).sleepUntil target = (m.sleepUntil target).recalling es := by
  have htimer (n : LiveMap ν) : (n.recalling es).nextTimer? = n.nextTimer? := rfl
  have hclock (n : LiveMap ν) : (n.recalling es).clock = n.clock := rfl
  fun_induction sleepUntil target m with
  | case1 m t ht hlt ih =>
    rw [sleepUntil, htimer, ht]
    simp only [hclock, hlt, and_self, ↓reduceIte]
    rw [advanceTo_recalling, ih]
  | case2 m t ht hnot =>
    rw [sleepUntil, htimer, ht]
    simp only [hclock, hnot, ↓reduceIte]
    exact advanceTo_recalling m es target
  | case3 m ht =>
    rw [sleepUntil, htimer, ht]
    exact advanceTo_recalling m es target

theorem sleep_recalling (ms : Nat) : (m.recalling es).sleep ms = (m.sleep ms).recalling es := by
  rw [sleep, settle_recalling, sleepUntil_recalling]
  rfl

end ExpiringMap.LiveMap
