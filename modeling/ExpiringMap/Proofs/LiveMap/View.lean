import ExpiringMap.Proofs.LiveMap.Realarm

/-!
Maps that look the same go on in the same way. Nothing is seen of an alarm but whether it has gone
off, and a view may hide the idle poll as well, if it hides the text that tells of it.
-/

namespace ExpiringMap

variable {ν : Type}

/-- How the idle poll and the answers are seen. To see twice is to see once. -/
structure View (ν : Type) where
  idlePoll : Span → Span
  answer : Answer ν → Answer ν
  idlePoll_pos : ∀ p, 0 < p → 0 < idlePoll p
  idlePoll_idlePoll : ∀ p, idlePoll (idlePoll p) = idlePoll p
  answer_answer : ∀ a, answer (answer a) = answer a
  answer_describe : ∀ m : LiveMap ν,
    answer (.text { m with
      settings := { m.settings with idlePoll := idlePoll m.settings.idlePoll } }.describe) =
    answer (.text m.describe)

namespace View

variable (v : View ν)

def plain : View ν where
  idlePoll p := p
  answer a := a
  idlePoll_pos _ h := h
  idlePoll_idlePoll _ := rfl
  answer_answer _ := rfl
  answer_describe _ := rfl

/-- Neither the idle poll is seen nor any text. -/
def textless : View ν where
  idlePoll _ := 1
  answer
    | .text _ => .text ""
    | a => a
  idlePoll_pos _ _ := Nat.one_pos
  idlePoll_idlePoll _ := rfl
  answer_answer a := by cases a <;> rfl
  answer_describe _ := rfl

def event (e : Event ν) : Event ν := { e with script? := e.script?.map (·.map v.answer) }

theorem event_event (e : Event ν) : v.event (v.event e) = v.event e := by
  have hanswer : v.answer ∘ v.answer = v.answer := funext v.answer_answer
  cases hs : e.script? with
  | none => simp [event, hs]
  | some as => simp [event, hs, hanswer]

end View

namespace LiveMap

open Sweeper (goneOff any_goneOff)

variable {v : View ν} {m m' : LiveMap ν}

/-- What is seen of a map. -/
def seen (v : View ν) (m : LiveMap ν) : LiveMap ν :=
  { m with
    settings := { m.settings with idlePoll := v.idlePoll m.settings.idlePoll }
    sweepers := m.sweepers.map (·.realarm (goneOff m.now))
    delivered := m.delivered.map v.event }

@[simp] theorem clock_seen (v : View ν) (m : LiveMap ν) : (m.seen v).clock = m.clock := rfl

@[simp] theorem now_seen (v : View ν) (m : LiveMap ν) : (m.seen v).now = m.now := rfl

@[simp] theorem watched_seen (v : View ν) (m : LiveMap ν) : (m.seen v).watched = m.watched := rfl

@[simp] theorem callback?_seen (v : View ν) (m : LiveMap ν) :
    (m.seen v).callback? = m.callback? := rfl

@[simp] theorem idlePoll_seen (v : View ν) (m : LiveMap ν) :
    (m.seen v).settings.idlePoll = v.idlePoll m.settings.idlePoll := rfl

theorem sweepers_seen (v : View ν) (m : LiveMap ν) :
    (m.seen v).sweepers = m.sweepers.map (·.realarm (goneOff m.now)) := rfl

theorem realarm_goneOff (now : Instant) (s : Sweeper ν) :
    (s.realarm (goneOff now)).realarm (goneOff now) = s.realarm (goneOff now) := by
  have hg : goneOff now ∘ goneOff now = goneOff now := by
    funext a
    exact Sweeper.goneOff_congr (any_goneOff now a)
  rw [Sweeper.realarm_realarm, hg]

theorem map_realarm_goneOff (now : Instant) (ss : List (Sweeper ν)) :
    (ss.map (·.realarm (goneOff now))).map (·.realarm (goneOff now)) =
      ss.map (·.realarm (goneOff now)) := by
  rw [List.map_map]
  congr 1
  funext s
  exact realarm_goneOff now s

theorem map_event_event (es : List (Event ν)) : (es.map v.event).map v.event = es.map v.event := by
  rw [List.map_map]
  congr 1
  funext e
  exact v.event_event e

theorem getElem?_seen (v : View ν) (m : LiveMap ν) (i : Nat) :
    (m.seen v).sweepers[i]? = m.sweepers[i]?.map (·.realarm (goneOff m.now)) := by
  rw [sweepers_seen, List.getElem?_map]

theorem isRunning_seen (v : View ν) (m : LiveMap ν) : (m.seen v).isRunning = m.isRunning := by
  rw [isRunning, seen, List.any_map]
  rfl

theorem start_seen (v : View ν) (m : LiveMap ν) : (m.seen v).start = m.start.seen v := by
  unfold start
  rw [isRunning_seen]
  split
  · rfl
  · simp only [seen, List.map_append]
    rfl

theorem call_seen (v : View ν) (m : LiveMap ν) (c : Call ν) :
    ((m.seen v).call c).1 = (m.call c).1.seen v := by
  cases hs : c.isStart with
  | true => rw [call_start hs, call_start hs, start_seen]
  | false =>
    rw [call_make hs, call_make hs]
    rfl

theorem answer_call_seen (v : View ν) (m : LiveMap ν) (c : Call ν) :
    v.answer ((m.seen v).call c).2 = v.answer (m.call c).2 := by
  cases c with
  | describe => exact v.answer_describe m
  | isRunning => simp only [call, isRunning_seen]
  | _ => rfl

theorem callAll_seen (v : View ν) (m : LiveMap ν) (cs : List (Call ν)) :
    ((m.seen v).callAll cs).1 = (m.callAll cs).1.seen v := by
  induction cs generalizing m with
  | nil => rfl
  | cons c cs ih =>
    simp only [callAll]
    rw [call_seen, ih]

theorem answers_callAll_seen (v : View ν) (m : LiveMap ν) (cs : List (Call ν)) :
    ((m.seen v).callAll cs).2.map v.answer = (m.callAll cs).2.map v.answer := by
  induction cs generalizing m with
  | nil => rfl
  | cons c cs ih =>
    simp only [callAll, List.map_cons]
    rw [answer_call_seen, call_seen, ih]

theorem eventsFor_seen (v : View ν) (m : LiveMap ν) (x : Expired ν) :
    ((m.seen v).eventsFor x).map v.event = (m.eventsFor x).map v.event := by
  have hspend : (m.seen v).spend x.key = (m.spend x.key).seen v := rfl
  unfold eventsFor
  rw [hspend, callback?_seen]
  cases m.callback? with
  | none => rfl
  | some c =>
    have hanswers := answers_callAll_seen v (m.spend x.key) ((c.script? x.key).getD [])
    simp only [View.event, List.map_cons, List.map_nil, Option.map_map, Function.comp_def,
      clock_seen, hanswers]

/-- Nothing but the deliveries may make a difference between a map and what is seen of it. -/
theorem seen_with_delivered {es es' : List (Event ν)} (h : es.map v.event = es'.map v.event) :
    ({ m.seen v with delivered := es } : LiveMap ν).seen v =
      ({ m with delivered := es' } : LiveMap ν).seen v := by
  simp only [seen, now, v.idlePoll_idlePoll, map_realarm_goneOff, h]

theorem deliver_seen (v : View ν) (m : LiveMap ν) (x : Expired ν) :
    ((m.seen v).deliver x).seen v = (m.deliver x).seen v := by
  have hspend : (m.seen v).spend x.key = (m.spend x.key).seen v := rfl
  have hcalls : (m.seen v).callsFor x = m.callsFor x := rfl
  have hdelivered : (m.seen v).delivered = m.delivered.map v.event := rfl
  rw [deliver_eq, deliver_eq, hspend, hcalls, callAll_seen]
  apply seen_with_delivered
  rw [List.map_append, List.map_append, eventsFor_seen, hdelivered, map_event_event]

theorem loseWorker_seen (v : View ν) (m : LiveMap ν) (i : Nat) :
    (m.loseWorker i).seen v = (m.seen v).loseWorker i := by
  have hmap : (m.sweepers.modify i (·.loseWorker)).map (·.realarm (goneOff m.now)) =
      (m.sweepers.map (·.realarm (goneOff m.now))).modify i (·.loseWorker) := by
    apply List.ext_getElem?
    intro j
    rw [List.getElem?_map, List.getElem?_modify, List.getElem?_modify, List.getElem?_map]
    cases m.sweepers[j]? with
    | none => rfl
    | some s =>
      simp only [Option.map_eq_map, Option.map_some, Option.some.injEq]
      split
      · rfl
      · rfl
  simp only [loseWorker, seen, now] at hmap ⊢
  rw [hmap]

theorem afterWork_seen (v : View ν) (m : LiveMap ν) (i : Nat) (x : Expired ν) :
    ((m.seen v).afterWork i x).seen v = (m.afterWork i x).seen v := by
  have hd := deliver_seen v m x
  have hcb : ((m.seen v).deliver x).callback? = (m.deliver x).callback? :=
    congrArg (·.callback?) hd
  have hends : ((m.seen v).deliver x).endsWorker x.key = (m.deliver x).endsWorker x.key := by
    rw [endsWorker, hcb, endsWorker]
  unfold afterWork
  rw [hends]
  split
  · rw [loseWorker_seen, hd, ← loseWorker_seen]
  · exact hd

theorem setSweeper_seen (v : View ν) (m : LiveMap ν) (w : Watched ν) (i : Nat) (s : Sweeper ν) :
    ({ m.seen v with watched := w } : LiveMap ν).setSweeper i (s.realarm (goneOff m.now)) =
      ({ m with watched := w }.setSweeper i s).seen v := by
  simp only [setSweeper, seen, List.map_set, now]

theorem seen_setSweeper (v : View ν) (m : LiveMap ν) (w : Watched ν) (i : Nat) {s s' : Sweeper ν}
    (h : s.realarm (goneOff m.now) = s'.realarm (goneOff m.now)) :
    (({ m.seen v with watched := w } : LiveMap ν).setSweeper i s).seen v =
      ({ m with watched := w }.setSweeper i s').seen v := by
  simp only [now] at h
  simp only [setSweeper, seen, now, List.map_set, map_realarm_goneOff, map_event_event,
    v.idlePoll_idlePoll, h]

theorem map_seen_setSweeper (v : View ν) (m : LiveMap ν) (i : Nat)
    {o o' : Option (Watched ν × Sweeper ν)}
    (h : o.map (fun p => (p.1, p.2.realarm (goneOff m.now))) =
      o'.map fun p => (p.1, p.2.realarm (goneOff m.now))) :
    (o.map fun p => ({ m.seen v with watched := p.1 } : LiveMap ν).setSweeper i p.2).map (seen v) =
      (o'.map fun p => { m with watched := p.1 }.setSweeper i p.2).map (seen v) := by
  cases o with
  | none =>
    cases o' with
    | none => rfl
    | some p' => cases h
  | some p =>
    cases o' with
    | none => cases h
    | some p' =>
      obtain ⟨w, s⟩ := p
      obtain ⟨w', s'⟩ := p'
      simp only [Option.map_some, Option.some.injEq, Prod.mk.injEq] at h ⊢
      obtain ⟨rfl, hs⟩ := h
      exact seen_setSweeper v m w i hs

/-- Maps that look the same can take the same turns, and look the same after them. -/
theorem Sound.turn?_seen (h : m.Sound) (v : View ν) (t : Turn) :
    ((m.seen v).turn? t).map (seen v) = (m.turn? t).map (seen v) := by
  cases t with
  | hand i =>
    rw [turn?_hand, turn?_hand, getElem?_seen]
    cases m.sweepers[i]? with
    | none => rfl
    | some s =>
      simp only [Option.map_some, Option.bind_some, Sweeper.hand?_realarm]
      cases s.hand? with
      | none => rfl
      | some s' =>
        exact congrArg some (seen_setSweeper v m m.watched i (realarm_goneOff m.now s'))
  | work i =>
    rw [turn?_work, turn?_work, getElem?_seen]
    cases m.sweepers[i]? with
    | none => rfl
    | some s =>
      simp only [Option.map_some, Option.bind_some, Sweeper.take?_realarm]
      cases s.take? with
      | none => rfl
      | some p =>
        have hset : (m.seen v).setSweeper i (p.2.realarm (goneOff m.now)) =
            (m.setSweeper i p.2).seen v := setSweeper_seen v m m.watched i p.2
        simp only [Option.map_some, Option.some.injEq]
        rw [hset, afterWork_seen]
  | look i =>
    rw [turn?_look, turn?_look, getElem?_seen]
    apply map_seen_setSweeper
    cases m.sweepers[i]? with
    | none => simp only [Option.map_none, Option.bind_none]
    | some s =>
      have hpoll := s.look?_idlePoll h.consistent m.now
        (v.idlePoll_pos m.settings.idlePoll h.idlePoll_pos) h.idlePoll_pos
      simp only [Option.map_some, Option.bind_some, Sweeper.look?_realarm, now_seen, watched_seen,
        idlePoll_seen]
      exact hpoll
  | release i r =>
    rw [turn?_release, turn?_release, getElem?_seen]
    apply map_seen_setSweeper
    cases m.sweepers[i]? with
    | none => simp only [Option.map_none, Option.bind_none]
    | some s =>
      have hrelease := s.release?_realarm (any_goneOff m.now) m.watched r
      simp only [Option.map_some, Option.bind_some, now_seen, watched_seen, hrelease,
        Option.map_map, Function.comp_def, realarm_goneOff]

end LiveMap

end ExpiringMap
