import ExpiringMap.Proofs.LiveMap.Checking
import Mathlib.Data.List.SplitBy

namespace ExpiringMap

variable {ν : Type}

section

variable {α β : Type} {f : α → β} {r : β → β → Bool} {r' : α → α → Bool}

theorem splitByLoop_map (h : ∀ a b, r (f a) (f b) = r' a b) (xs : List α) (x : α) (run : List α)
    (runs : List (List α)) :
    List.splitBy.loop r (xs.map f) (f x) (run.map f) (runs.map (List.map f)) =
      (List.splitBy.loop r' xs x run runs).map (List.map f) := by
  induction xs generalizing x run runs with
  | nil => simp [List.splitBy.loop]
  | cons y ys ih =>
    rw [List.map_cons, List.splitBy.loop, List.splitBy.loop, h]
    cases r' x y with
    | true => exact ih y (x :: run) runs
    | false =>
      have hstart := ih y [] ((x :: run).reverse :: runs)
      simpa using hstart

theorem splitBy_map (h : ∀ a b, r (f a) (f b) = r' a b) (xs : List α) :
    (xs.map f).splitBy r = (xs.splitBy r').map (List.map f) := by
  cases xs with
  | nil => rfl
  | cons x xs => exact splitByLoop_map h xs x [] []

end

namespace View

variable (v : View ν)

theorem sortRuns_map_event (es : List (Event ν)) :
    Event.sortRuns (es.map v.event) = (Event.sortRuns es).map v.event := by
  have hsplit : (es.map v.event).splitBy Event.together =
      (es.splitBy Event.together).map (List.map v.event) := splitBy_map (fun _ _ => rfl) es
  rw [Event.sortRuns, Event.sortRuns, hsplit, List.flatMap_map, List.map_flatMap]
  congr 1
  funext run
  refine (List.map_mergeSort ?_).symm
  exact fun _ _ _ _ => rfl

theorem listing_map_event (workers : Nat) (es : List (Event ν)) :
    Event.listing workers (es.map v.event) = (Event.listing workers es).map v.event := by
  unfold Event.listing
  split
  · exact v.sortRuns_map_event es
  · refine (List.map_mergeSort ?_).symm
    exact fun _ _ _ _ => rfl

def report (r : Report ν) : Report ν :=
  { r with answer := v.answer r.answer, events := r.events.map v.event }

theorem report_plain : (plain : View ν).report = id := by
  have hevent : (plain : View ν).event = id := by
    funext e
    have hanswer : (plain : View ν).answer = id := rfl
    simp [event, hanswer]
  funext r
  have hanswer (a : Answer ν) : (plain : View ν).answer a = a := rfl
  simp [report, hevent, hanswer]

end View

namespace LiveMap

variable {v : View ν} {m n : LiveMap ν}

/-- Applies an operation on a map that sleeps as `sleep` says. -/
def applyWith (sleep : LiveMap ν → Nat → LiveMap ν) (m : LiveMap ν) :
    Operation ν → LiveMap ν × Answer ν
  | .sleep ms => (sleep m ms, .done)
  | op => m.apply op

def reportWith (sleep : LiveMap ν → Nat → LiveMap ν) (m : LiveMap ν) (op : Operation ν) :
    Report ν × LiveMap ν :=
  let r := { m with delivered := [] }.applyWith sleep op
  let statistics? := match op with
    | .drop => none
    | _ => some r.1.table.statistics
  ({ clock := r.1.clock, answer := r.2, statistics?
     events := Event.listing m.settings.workers r.1.delivered }, r.1)

def runWith (sleep : LiveMap ν → Nat → LiveMap ν) (m : LiveMap ν) :
    List (Operation ν) → List (Report ν)
  | [] => []
  | op :: ops =>
    let r := m.reportWith sleep op
    r.1 :: r.2.runWith sleep ops

/-- The reports of the map if it checks at every millisecond. -/
def runChecking (m : LiveMap ν) (ops : List (Operation ν)) : List (Report ν) :=
  m.runWith sleepChecking ops

theorem Sound.applyWith_sleepChecking (h : m.Sound) (op : Operation ν) :
    (m.applyWith sleepChecking op).1.Sound := by
  cases op with
  | sleep ms => exact h.settle.ticks ms
  | _ => exact h.apply _

theorem seen_leave (h : m.seen v = n.seen v) : m.leave.seen v = n.leave.seen v := by
  have hleave (m : LiveMap ν) : (m.seen v).leave = m.leave.seen v := by
    simp only [leave, seen, List.map_map]
    rfl
  rw [← hleave m, h, hleave]

theorem seen_prune (h : m.seen v = n.seen v) : m.prune.seen v = n.prune.seen v := by
  have hprune (m : LiveMap ν) : (m.seen v).prune = m.prune.seen v := by
    simp only [prune, seen, List.filter_map, Function.comp_def, Sweeper.isFinished_realarm]
    rfl
  rw [← hprune m, h, hprune]

theorem seen_start (h : m.seen v = n.seen v) : m.start.seen v = n.start.seen v := by
  rw [← start_seen, h, start_seen]

theorem seen_call (h : m.seen v = n.seen v) (c : Call ν) :
    (m.call c).1.seen v = (n.call c).1.seen v := by
  rw [← call_seen, h, call_seen]

theorem answer_call (h : m.seen v = n.seen v) (c : Call ν) :
    v.answer (m.call c).2 = v.answer (n.call c).2 := by
  rw [← answer_call_seen, h, answer_call_seen]

theorem seen_report (h : m.seen v = n.seen v) :
    ({ m with delivered := [] } : LiveMap ν).seen v =
      ({ n with delivered := [] } : LiveMap ν).seen v :=
  congrArg (fun m : LiveMap ν => { m with delivered := [] }) h

section

variable (hm : m.Sound) (hn : n.Sound) (h : m.seen v = n.seen v)

include hm hn h

omit h in
theorem seen_sleep_of_settle (h : m.settle.seen v = n.settle.seen v) (ms : Nat) :
    (m.sleep ms).seen v = (n.sleepChecking ms).seen v := by
  have hclock : m.settle.clock ≤ m.clock + ms := by
    rw [clock_settle]
    exact Nat.le_add_right _ _
  have hsleep := outline_sleepUntil hm.settle hm.isAtRest_settle hn.settle hn.isAtRest_settle
    (outline_of_seen h) hclock
  rw [clock_settle, Nat.add_sub_cancel_left] at hsleep
  exact seen_of_outline (hm.settle.isAtRest_sleepUntil _)
    (hn.settle.isAtRest_ticks hn.isAtRest_settle ms) hsleep

theorem seen_sleep (ms : Nat) : (m.sleep ms).seen v = (n.sleepChecking ms).seen v :=
  seen_sleep_of_settle hm hn (seen_settle hm hn h) ms

theorem seen_stop : m.stop.seen v = n.stop.seen v :=
  seen_prune (seen_settle hm.leave hn.leave (seen_leave h))

theorem seen_apply (op : Operation ν) :
    (m.apply op).1.seen v = (n.applyWith sleepChecking op).1.seen v := by
  cases op with
  | call c => exact seen_call h c
  | settle => exact seen_settle hm hn h
  | sleep ms => exact seen_sleep hm hn h ms
  | stop => exact seen_stop hm hn h
  | stopTwice => exact seen_stop hm.leave hn.leave (seen_leave h)
  | restart => exact seen_start (seen_stop hm hn h)
  | drop => exact seen_leave h

omit hm hn in
theorem answer_apply (op : Operation ν) :
    v.answer (m.apply op).2 = v.answer (n.applyWith sleepChecking op).2 := by
  cases op with
  | call c => exact answer_call h c
  | _ => rfl

omit hm hn h in
/-- Operations that answer the same, and after which the maps look the same, are reported alike. -/
theorem report_eq_of_seen {op : Operation ν} (hworkers : m.settings.workers = n.settings.workers)
    (hanswer : v.answer ({ m with delivered := [] }.apply op).2 =
      v.answer ({ n with delivered := [] }.applyWith sleepChecking op).2)
    (hseen : ({ m with delivered := [] }.apply op).1.seen v =
      ({ n with delivered := [] }.applyWith sleepChecking op).1.seen v) :
    v.report (m.report op).1 = v.report (n.reportWith sleepChecking op).1 := by
  unfold report reportWith
  generalize ({ m with delivered := [] } : LiveMap ν).apply op = r at hanswer hseen ⊢
  generalize ({ n with delivered := [] } : LiveMap ν).applyWith sleepChecking op = r'
    at hanswer hseen ⊢
  have hclock : r.1.clock = r'.1.clock := congrArg (·.clock) hseen
  have htable : r.1.table = r'.1.table := congrArg (·.table) hseen
  have hevents : (Event.listing m.settings.workers r.1.delivered).map v.event =
      (Event.listing n.settings.workers r'.1.delivered).map v.event := by
    rw [← v.listing_map_event, ← v.listing_map_event, hworkers]
    exact congrArg (fun m : LiveMap ν => Event.listing n.settings.workers m.delivered) hseen
  cases op with
  | drop => simp only [View.report, hclock, hanswer, hevents]
  | _ => simp only [View.report, hclock, hanswer, htable, hevents]

theorem report_eq (op : Operation ν) :
    v.report (m.report op).1 = v.report (n.reportWith sleepChecking op).1 :=
  report_eq_of_seen (congrArg (·.settings.workers) h) (answer_apply (seen_report h) op)
    (seen_apply (hm.with_callback m.callback? []) (hn.with_callback n.callback? [])
      (seen_report h) op)

theorem seen_reportWith (op : Operation ν) :
    (m.report op).2.seen v = (n.reportWith sleepChecking op).2.seen v :=
  seen_apply (hm.with_callback m.callback? []) (hn.with_callback n.callback? []) (seen_report h) op

/-- A map that checks at every millisecond gives the reports of one that does not, in every view in
which they look the same at first. -/
theorem run_seen (ops : List (Operation ν)) :
    (m.run ops).map v.report = (n.runChecking ops).map v.report := by
  induction ops generalizing m n with
  | nil => rfl
  | cons op ops ih =>
    have hm' : (m.report op).2.Sound := hm.report op
    have hn' := (hn.with_callback n.callback? []).applyWith_sleepChecking op
    have hrest := ih hm' hn' (seen_reportWith hm hn h op)
    exact congrArg₂ List.cons (report_eq hm hn h op) hrest

end

end LiveMap

end ExpiringMap
