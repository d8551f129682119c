import ExpiringMap.Proofs.LiveMap.Deliveries

namespace ExpiringMap.LiveMap

variable {ν : Type} {settings : Settings} {callback? : Option (Callback ν)} {hasRuntime : Bool}
  {m : LiveMap ν} {mv : Move ν}

def callsIn (m : LiveMap ν) : List (Move ν) → List (Call ν)
  | [] => []
  | mv :: mvs => m.callsOf mv ++ (m.move mv).callsIn mvs

def takenByIn (m : LiveMap ν) (j : Nat) : List (Move ν) → List (Expired ν)
  | [] => []
  | mv :: mvs => m.takenBy j mv ++ (m.move mv).takenByIn j mvs

def madeByIn (m : LiveMap ν) (j : Nat) : List (Move ν) → List (Event ν)
  | [] => []
  | mv :: mvs => m.madeBy j mv ++ (m.move mv).madeByIn j mvs

/-- Nobody is started, neither by a client nor in a callback. -/
def StartsNone (m : LiveMap ν) (mvs : List (Move ν)) : Prop :=
  ∀ c ∈ m.callsIn mvs, c.isStart = false

theorem StartsNone.of_cons {mvs : List (Move ν)} (h : m.StartsNone (mv :: mvs)) :
    (∀ c ∈ m.callsOf mv, c.isStart = false) ∧ (m.move mv).StartsNone mvs :=
  List.forall_mem_append.1 h

theorem taken_eq_nil_of_leaving {t : Turn} {s : Sweeper ν}
    (hs : m.sweepers[t.sweeper]? = some s) (hl : s.leaving = true) : m.taken (.turn t) = [] := by
  cases t with
  | look i =>
    have hi : m.sweepers[i]? = some s := hs
    simp [taken, hi, hl]
  | hand | work | release => rfl

theorem deedsOf_of_leaving {t : Turn} {s : Sweeper ν}
    (hs : m.sweepers[t.sweeper]? = some s) (hl : s.leaving = true) :
    m.deedsOf (.turn t) = (m.callsOf (.turn t)).filterMap (·.deed? m.now) := by
  cases t with
  | look i =>
    have hi : m.sweepers[i]? = some s := hs
    simp [deedsOf, callsOf, hi, hl]
  | hand | work | release => rfl

theorem table_turn_of_leaving {t : Turn} {s : Sweeper ν}
    (hs : m.sweepers[t.sweeper]? = some s) (hl : s.leaving = true) :
    (m.turn t).table = (m.callAll (m.callsOf (.turn t))).1.table := by
  have hmove := m.table_move (.turn t)
  rw [deedsOf_of_leaving hs hl, ← table_callAll] at hmove
  exact hmove

theorem takenBy_of_leaving {j : Nat} {s : Sweeper ν} (hs : m.sweepers[j]? = some s)
    (hl : s.leaving = true) (mv : Move ν) : m.takenBy j mv = [] := by
  cases mv with
  | turn t =>
    by_cases hj : t.sweeper = j
    · subst hj
      rw [takenBy, if_pos rfl, taken_eq_nil_of_leaving hs hl]
    · rw [takenBy, if_neg hj]
  | call | wait | leave | prune | report => rfl

/-- What it had in hand is delivered or still in hand, as long as there is a worker. -/
theorem Steady.passes_follow (h : m.Steady) {j : Nat} {s : Sweeper ν}
    (hs : m.sweepers[j]? = some s) {mvs : List (Move ν)} (hne : ∀ mv ∈ mvs, mv ≠ .prune) :
    ∃ s', (m.follow mvs).sweepers[j]? = some s' ∧
      s.Passes s' (m.takenByIn j mvs) (m.madeByIn j mvs) := by
  induction mvs generalizing m s with
  | nil => exact ⟨s, hs, .refl s⟩
  | cons mv mvs ih =>
    rw [List.forall_mem_cons] at hne
    obtain ⟨s', hs', hp⟩ := (h.advances_move hne.1).old j s hs
    obtain ⟨s'', hs'', hp'⟩ := ih (h.move mv) hs' hne.2
    exact ⟨s'', hs'', hp.trans hp'⟩

theorem Steady.takenByIn_of_leaving (h : m.Steady) {j : Nat} {s : Sweeper ν}
    (hs : m.sweepers[j]? = some s) (hl : s.leaving = true) {mvs : List (Move ν)}
    (hne : ∀ mv ∈ mvs, mv ≠ .prune) : m.takenByIn j mvs = [] := by
  induction mvs generalizing m s with
  | nil => rfl
  | cons mv mvs ih =>
    rw [List.forall_mem_cons] at hne
    obtain ⟨s', hs', hp⟩ := (h.advances_move hne.1).old j s hs
    rw [takenByIn, takenBy_of_leaving hs hl, ih (h.move mv) hs' (hp.leaving hl) hne.2]
    rfl

/-- Each of these turns can be taken when it comes. -/
def Takes (m : LiveMap ν) : List Turn → Prop
  | [] => True
  | t :: ts => m.canTake t = true ∧ (m.turn t).Takes ts

theorem Steady.turnsLeft_turn_lt (h : m.Steady) {t : Turn} (ht : m.canTake t = true) :
    (m.turn t).turnsLeft < m.turnsLeft :=
  turnsLeft_turned_lt h.consistent h.idlePoll_pos (turn?_cases (turn?_eq_of_canTake ht))

theorem Steady.length_le_turnsLeft (h : m.Steady) {ts : List Turn} (hts : m.Takes ts) :
    ts.length ≤ m.turnsLeft := by
  induction ts generalizing m with
  | nil => exact Nat.zero_le _
  | cons t ts ih =>
    have hlt := h.turnsLeft_turn_lt hts.1
    have hle := ih (h.move (.turn t)) hts.2
    rw [List.length_cons]
    change ts.length ≤ (m.turn t).turnsLeft at hle
    omega

theorem Steady.settle (h : m.Steady) : m.settle.Steady :=
  settle_induct (fun _ t hm _ => hm.move (.turn t)) h

theorem Steady.isAtRest_settle (h : m.Steady) : m.settle.isAtRest = true :=
  isAtRest_steps (fun _ t hm _ => hm.move (.turn t))
    (fun _ _ hm ho => hm.turnsLeft_turn_lt ho.canTake) _ h (Nat.le_refl _) _

theorem Steady.isFinished_of_isAtRest (h : m.Steady) (hr : m.isAtRest = true) {s : Sweeper ν}
    (hs : s ∈ m.sweepers) (hl : s.leaving = true) : s.isFinished = true := by
  obtain ⟨i, hi⟩ := List.mem_iff_getElem?.1 hs
  have hqueued := (List.append_eq_nil_iff.1 (h.inHand_of_isAtRest hr hs)).1
  simp [Sweeper.isFinished, done_of_isAtRest hr hi (h.fitted s hs).room hl, hqueued]

theorem isRunning_eq_false_iff : m.isRunning = false ↔ ∀ s ∈ m.sweepers, s.leaving = true := by
  simp [isRunning]

theorem isRunning_leave (m : LiveMap ν) : m.leave.isRunning = false := by
  rw [isRunning_eq_false_iff]
  intro s hs
  obtain ⟨s₀, -, rfl⟩ := List.mem_map.1 hs
  rfl

theorem leave_eq_self (h : m.isRunning = false) : m.leave = m := by
  have hs : m.sweepers.map (·.leave) = m.sweepers := by
    conv_rhs => rw [← List.map_id m.sweepers]
    refine List.map_congr_left fun s hs => ?_
    rw [id, Sweeper.leave, ← isRunning_eq_false_iff.1 h s hs]
  rw [leave, hs]

theorem isRunning_turned_eq_false (h : m.isRunning = false) {t : Turn} {m' : LiveMap ν}
    (ht : m.Turned t m') (hcs : ∀ c ∈ m.callsOf (.turn t), c.isStart = false) :
    m'.isRunning = false := by
  cases ht with
  | hand hi hs =>
    exact (isRunning_setSweeper (w := m.watched) hi (Sweeper.leaving_hand? hs)).trans h
  | look hi hs => exact (isRunning_setSweeper hi (Sweeper.leaving_look? hs)).trans h
  | release hi hs => exact (isRunning_setSweeper hi (Sweeper.leaving_release? hs)).trans h
  | @work i s x s' hi hs =>
    have hcalls : m.callsOf (.turn (.work i)) = m.callsFor x := by simp [callsOf, hi, hs]
    obtain ⟨s₂, ss, hsweepers, hs₂, -, hnone⟩ := sweepers_work hi s' x
    -- The worker may be lost, but that tells nobody to stay, and the callback starts nobody.
    have hl : s₂.leaving = s.leaving := by
      rw [← Sweeper.leaving_take? hs]
      rcases hs₂ with rfl | rfl <;> rfl
    rw [hnone (hcalls ▸ hcs), List.append_nil] at hsweepers
    rw [isRunning_eq, hsweepers, map_set_eq_map hi hl, ← isRunning_eq]
    exact h

theorem isRunning_move_eq_false (h : m.isRunning = false)
    (hcs : ∀ c ∈ m.callsOf mv, c.isStart = false) : (m.move mv).isRunning = false := by
  cases mv with
  | call c =>
    rw [move, call_make (hcs c (List.mem_singleton.2 rfl))]
    exact h
  | turn t =>
    rw [move]
    rcases m.turn_eq_self_or_turned t with ⟨-, hm⟩ | ht
    · rw [hm]
      exact h
    · exact isRunning_turned_eq_false h ht hcs
  | leave => exact isRunning_leave m
  | prune =>
    rw [isRunning_eq_false_iff] at h ⊢
    exact fun s hs => h s (List.mem_filter.1 hs).1
  | wait | report => exact h

theorem move_of_not_running (h : m.isRunning = false) (mv : Move ν) :
    m.taken mv = [] ∧
      (m.move mv).table =
        ((m.callsOf mv).filterMap (·.deed? m.now)).foldl Table.perform m.table := by
  rw [isRunning_eq_false_iff] at h
  rw [table_move]
  cases mv with
  | turn t =>
    cases hs : m.sweepers[t.sweeper]? with
    | some s =>
      have hl := h s (List.mem_of_getElem? hs)
      exact ⟨taken_eq_nil_of_leaving hs hl, by rw [deedsOf_of_leaving hs hl]⟩
    | none =>
      cases t with
      | look i =>
        have hi : m.sweepers[i]? = none := hs
        simp [taken, deedsOf, callsOf, hi]
      | hand | work | release => exact ⟨rfl, rfl⟩
  | call | wait | leave | prune | report => exact ⟨rfl, rfl⟩

theorem follow_of_not_running (h : m.isRunning = false) {mvs : List (Move ν)}
    (hcs : m.StartsNone mvs) : m.takenIn mvs = [] ∧ (m.follow mvs).isRunning = false := by
  induction mvs generalizing m with
  | nil => exact ⟨rfl, h⟩
  | cons mv mvs ih =>
    obtain ⟨hfirst, hrest⟩ := hcs.of_cons
    obtain ⟨htaken, hrunning⟩ := ih (isRunning_move_eq_false h hfirst) hrest
    exact ⟨by rw [takenIn, (move_of_not_running h mv).1, htaken]; rfl, hrunning⟩

theorem clock_turn (m : LiveMap ν) (t : Turn) : ((m.turn t).clock : Int) = m.clock := by
  cases ht : m.turn? t with
  | none => simp [turn, ht]
  | some m' => simp [turn, ht, clock_turn? ht]

/-- Turns alone do to the table what the callbacks that run in them do. -/
theorem table_turns_of_not_running (h : m.isRunning = false) {ts : List Turn}
    (hcs : m.StartsNone (ts.map .turn)) :
    (m.follow (ts.map .turn)).table = (m.callAll (m.callsIn (ts.map .turn))).1.table := by
  rw [table_callAll]
  induction ts generalizing m with
  | nil => rfl
  | cons t ts ih =>
    obtain ⟨hfirst, hrest⟩ := hcs.of_cons
    have hmove := (move_of_not_running h (.turn t)).2
    have hturns := ih (isRunning_move_eq_false h hfirst) hrest
    -- Turns take no time, so all the calls are made at one moment.
    have hnow : (m.move (.turn t)).now = m.now := congrArg (Instant.ofMillis ·) (m.clock_turn t)
    rw [hmove, hnow, ← List.foldl_append, ← List.filterMap_append] at hturns
    exact hturns

theorem Steady.stop (h : m.Steady) : m.stop.Steady := (h.move .leave).settle.move .prune

/-- To stop waits for every sweeper, unless a callback starts one. -/
theorem Steady.sweepers_stop (h : m.Steady) (hr : m.stop.isRunning = false) :
    m.stop.sweepers = [] := by
  have hsettled := (h.move .leave).settle
  have hrest := (h.move .leave).isAtRest_settle
  rw [isRunning_eq_false_iff] at hr
  rw [LiveMap.stop, LiveMap.prune, List.filter_eq_nil_iff]
  intro s hs hnot
  have hl := hr s (List.mem_filter.2 ⟨hs, hnot⟩)
  have hfinished := hsettled.isFinished_of_isAtRest hrest hs hl
  rw [hfinished] at hnot
  cases hnot

section

variable (h : m.sweepers = [])

include h

theorem isAtRest_of_nil : m.isAtRest = true := by simp [isAtRest, agents, h]

theorem isRunning_of_nil : m.isRunning = false := by simp [isRunning, h]

theorem sleep_of_nil (ms : Nat) : m.sleep ms = { m with clock := m.clock + ms } := by
  have htimer : m.nextTimer? = none := by simp [nextTimer?, h]
  have hlater : ({ m with clock := m.clock + ms } : LiveMap ν).isAtRest = true :=
    isAtRest_of_nil (m := { m with clock := m.clock + ms }) h
  rw [sleep, settle_eq_self (isAtRest_of_nil h), sleepUntil, htimer]
  exact settle_eq_self hlater

theorem sweepers_move_of_nil (hcs : ∀ c ∈ m.callsOf mv, c.isStart = false) :
    (m.move mv).sweepers = [] := by
  cases mv with
  | call c => rw [move, call_make (hcs c (List.mem_singleton.2 rfl)), h]
  | turn t =>
    have ht := turn?_eq_none_of_isAtRest (isAtRest_of_nil h) t
    rw [move, turn, ht]
    exact h
  | leave => rw [move, leave, h]; rfl
  | prune => rw [move, prune, h]; rfl
  | wait | report => exact h

end

theorem sweepers_follow_of_nil (h : m.sweepers = []) {mvs : List (Move ν)}
    (hcs : m.StartsNone mvs) : (m.follow mvs).sweepers = [] := by
  induction mvs generalizing m with
  | nil => exact h
  | cons mv mvs ih =>
    obtain ⟨hfirst, hrest⟩ := hcs.of_cons
    exact ih (sweepers_move_of_nil h hfirst) hrest

theorem stop_of_nil (h : m.sweepers = []) : m.stop = m := by
  have hprune : m.sweepers.filter (!·.isFinished) = m.sweepers := by rw [h]; rfl
  rw [stop, leave_eq_self (isRunning_of_nil h), settle_eq_self (isAtRest_of_nil h), prune, hprune]

def Spares (i : Nat) : Move ν → Prop
  | .turn t => t.sweeper ≠ i
  | .leave | .prune => False
  | .call _ | .wait _ | .report => True

theorem getElem?_turned_of_ne {i : Nat} {s : Sweeper ν} (hi : m.sweepers[i]? = some s) {t : Turn}
    {m' : LiveMap ν} (ht : m.Turned t m') (hne : t.sweeper ≠ i) : m'.sweepers[i]? = some s := by
  have hlt := (List.getElem?_eq_some_iff.1 hi).1
  have hset {j : Nat} (s' : Sweeper ν) (hj : j ≠ i) (ss : List (Sweeper ν)) :
      (m.sweepers.set j s' ++ ss)[i]? = some s := by
    rw [List.getElem?_append_left (by rwa [List.length_set]), List.getElem?_set_ne hj, hi]
  cases ht with
  | @hand j _ s' | @look j _ _ s' | @release j _ _ _ s' =>
    have hj := hset s' hne []
    rwa [List.append_nil] at hj
  | @work j _ x s' hj hs =>
    obtain ⟨s₂, ss, hsweepers, -⟩ := sweepers_work hj s' x
    rw [hsweepers]
    exact hset s₂ hne ss

theorem getElem?_move_of_spares {i : Nat} {s : Sweeper ν} (hi : m.sweepers[i]? = some s)
    (hmv : Spares i mv) : (m.move mv).sweepers[i]? = some s := by
  have hlt := (List.getElem?_eq_some_iff.1 hi).1
  cases mv with
  | call c =>
    obtain ⟨ss, hss, -⟩ := sweepers_call m c
    rw [move, hss, List.getElem?_append_left hlt, hi]
  | turn t =>
    rw [move]
    rcases m.turn_eq_self_or_turned t with ⟨-, hm⟩ | ht
    · rw [hm]
      exact hi
    · exact getElem?_turned_of_ne hi ht hmv
  | leave | prune => exact hmv.elim
  | wait | report => exact hi

theorem getElem?_follow_of_spares {i : Nat} {s : Sweeper ν} (hi : m.sweepers[i]? = some s)
    {mvs : List (Move ν)} (hmvs : ∀ mv ∈ mvs, Spares i mv) :
    (m.follow mvs).sweepers[i]? = some s := by
  induction mvs generalizing m with
  | nil => exact hi
  | cons mv mvs ih =>
    rw [List.forall_mem_cons] at hmvs
    exact ih (getElem?_move_of_spares hi hmvs.1) hmvs.2

theorem Steady.drains_look (h : m.Steady) {i : Nat} {s : Sweeper ν}
    (hi : m.sweepers[i]? = some s) (hp : s.phase = .looking) (hl : s.leaving = false) :
    m.table.Drains m.now (m.taken (.turn (.look i))) (m.turn (.look i)).table := by
  have hlooks : (s.isLooking && !s.leaving) = true := by simp [Sweeper.isLooking, hp, hl]
  have htable : (m.turn (.look i)).table = (m.table.takeDue m.now).2 := by
    rw [table_turn_look]
    simp only [deedsOf, hi, Option.any_some, hlooks, if_true]
    rfl
  rw [taken_look hi hp, hl, htable]
  exact h.consistent.takeDue m.now

theorem getElem?_start (h : m.isRunning = false) :
    m.start.sweepers[m.sweepers.length]? = some m.newSweeper := by
  simp [start, h]

theorem canTake_look {i : Nat} {s : Sweeper ν} (hi : m.sweepers[i]? = some s)
    (hp : s.phase = .looking) : m.canTake (.look i) = true := by
  rw [canTake, turn?_look, hi]
  cases hl : s.leaving <;> simp [Sweeper.look?, hp, hl]

theorem eq_look_of_canTake {t : Turn} {s : Sweeper ν} (hi : m.sweepers[t.sweeper]? = some s)
    (hp : s.phase = .looking) (hq : s.queued = []) (ht : m.canTake t = true) :
    t = .look t.sweeper := by
  obtain ⟨m', hm'⟩ := Option.isSome_iff_exists.1 ht
  cases turn?_cases hm' with
  | @hand i s₀ s' hj hs =>
    obtain ⟨x, rest, hhanding, -⟩ := Sweeper.hand?_cases hs
    rw [show m.sweepers[i]? = some s from hi, Option.some.injEq] at hj
    rw [← hj, hp] at hhanding
    cases hhanding
  | @work i s₀ x s' hj hs =>
    obtain ⟨o, xs, ho, -, hxs, -⟩ := Sweeper.take?_cases hs
    rw [show m.sweepers[i]? = some s from hi, Option.some.injEq] at hj
    rw [← hj] at ho
    simp [Sweeper.queued, ho, hxs] at hq
  | look => rfl
  | @release i r s₀ w s' hj hs =>
    obtain ⟨alarm?, hwaiting, -⟩ := Sweeper.release?_cases hs
    rw [show m.sweepers[i]? = some s from hi, Option.some.injEq] at hj
    rw [← hj, hp] at hwaiting
    cases hwaiting

/-- How a map winds down from here, once it is told to. -/
structure WindsDown (m : LiveMap ν) : Prop where
  /-- To stop, once or twice, to restart and to drop a map is first to tell its sweepers to leave,
  which changes nothing else. -/
  tells : (∀ op ∈ [Operation.stop, .stopTwice, .restart, .drop],
      ∃ mvs, m.moves op = .leave :: mvs) ∧
    m.leave = { m with sweepers := m.sweepers.map (·.leave) }
  /-- No turn of a sweeper that has been told so takes anything out, or does more to the table than
  the callbacks do that run in it. -/
  takes_nothing : ∀ (t : Turn) (s : Sweeper ν), m.sweepers[t.sweeper]? = some s →
    s.leaving = true → m.taken (.turn t) = [] ∧
      (m.turn t).table = (m.callAll (m.callsOf (.turn t))).1.table
  /-- Whatever happens meanwhile, as long as a worker is left all that such a sweeper had in hand is
  delivered or still in hand, and when it has left the rest is queued. -/
  hands_over : ∀ (j : Nat) (s : Sweeper ν), m.sweepers[j]? = some s → s.leaving = true →
    ∀ mvs, (∀ mv ∈ mvs, mv ≠ .prune) →
      ∃ s', (m.follow mvs).sweepers[j]? = some s' ∧ s'.leaving = true ∧
        m.takenByIn j mvs = [] ∧
        (0 < s'.workers →
          s.queued ++ s.batch = (m.madeByIn j mvs).map Event.item ++ (s'.queued ++ s'.batch) ∧
          (s'.phase = .done → s.queued ++ s.batch = (m.madeByIn j mvs).map Event.item ++ s'.queued))
  /-- In whatever order turns are taken, they come to an end, and whoever was leaving is gone then,
  with nothing queued. -/
  ends : (∀ ts, m.Takes ts → ts.length ≤ m.turnsLeft) ∧
    (m.isAtRest = true → ∀ s ∈ m.sweepers, s.leaving = true → s.phase = .done ∧ s.queued = [])
  /-- While nobody is started nothing is taken out, and turns leave the table and its counters as
  they are, callbacks apart. -/
  keeps : ∀ ts : List Turn, m.leave.StartsNone (ts.map .turn) →
    m.leave.takenIn (ts.map .turn) = [] ∧
      (m.leave.follow (ts.map .turn)).table =
        (m.callAll (m.leave.callsIn (ts.map .turn))).1.table
  /-- A second word to leave, whenever it comes, changes nothing, so two stops are as one. -/
  twice : (m.apply .stopTwice).1 = m.stop ∧
    (∀ mvs, m.leave.StartsNone mvs → (m.leave.follow mvs).leave = m.leave.follow mvs) ∧
    (m.stop.isRunning = false → m.stop.stop = m.stop)
  /-- After a stop nobody is left, and time passes without effect until somebody is started. -/
  stopped : m.stop.isRunning = false → ∀ mvs, m.stop.StartsNone mvs →
    (m.stop.follow mvs).sweepers = [] ∧ (m.stop.follow mvs).settle = m.stop.follow mvs ∧
      ∀ ms, (m.stop.follow mvs).sleep ms =
        { m.stop.follow mvs with clock := (m.stop.follow mvs).clock + ms }
  /-- Whoever is started then can do nothing before it looks, and at its first look takes out
  exactly what is due by then, in the order of the ends. -/
  starts : m.isRunning = false → ∀ mvs, (∀ mv ∈ mvs, Spares m.sweepers.length mv) →
    let m' := m.start.follow mvs
    (∀ t, t.sweeper = m.sweepers.length → m'.canTake t = true → t = .look m.sweepers.length) ∧
      m'.canTake (.look m.sweepers.length) = true ∧
      m'.table.Drains m'.now (m'.taken (.turn (.look m.sweepers.length)))
        (m'.turn (.look m.sweepers.length)).table

theorem Steady.windsDown (h : m.Steady) : m.WindsDown where
  tells := ⟨by simp [moves, stopMoves], rfl⟩
  takes_nothing t s hs hl := ⟨taken_eq_nil_of_leaving hs hl, table_turn_of_leaving hs hl⟩
  hands_over j s hs hl mvs hne := by
    obtain ⟨s', hs', hp⟩ := h.passes_follow hs hne
    have htaken := h.takenByIn_of_leaving hs hl hne
    refine ⟨s', hs', hp.leaving hl, htaken, fun hw => ?_⟩
    have hkept := hp.kept hw
    rw [htaken, List.append_nil] at hkept
    refine ⟨hkept, fun hdone => ?_⟩
    have hbatch : s'.batch = [] := by simp [Sweeper.batch, hdone]
    rwa [Sweeper.inHand, Sweeper.inHand, hbatch, List.append_nil] at hkept
  ends := by
    refine ⟨fun ts hts => h.length_le_turnsLeft hts, fun hr s hs hl => ?_⟩
    have hfinished := h.isFinished_of_isAtRest hr hs hl
    obtain ⟨i, hi⟩ := List.mem_iff_getElem?.1 hs
    have hdone := done_of_isAtRest hr hi (h.fitted s hs).room hl
    exact ⟨hdone, (List.append_eq_nil_iff.1 (Sweeper.inHand_of_isFinished hfinished)).1⟩
  keeps ts hcs := by
    have hleft := m.isRunning_leave
    refine ⟨(follow_of_not_running hleft hcs).1, ?_⟩
    rw [table_turns_of_not_running hleft hcs, table_callAll, table_callAll]
    rfl
  twice := by
    refine ⟨?_, fun mvs hcs => leave_eq_self (follow_of_not_running m.isRunning_leave hcs).2,
      fun hr => stop_of_nil (h.sweepers_stop hr)⟩
    change m.leave.stop = m.stop
    rw [LiveMap.stop, leave_eq_self m.isRunning_leave]
    rfl
  stopped hr mvs hcs := by
    have hnil := sweepers_follow_of_nil (h.sweepers_stop hr) hcs
    exact ⟨hnil, settle_eq_self (isAtRest_of_nil hnil), sleep_of_nil hnil⟩
  starts hr mvs hmvs := by
    have hi := getElem?_follow_of_spares (getElem?_start hr) hmvs
    have hm' := (h.move (.call .start)).follow mvs
    have hq : m.newSweeper.queued = [] := (List.append_eq_nil_iff.1 m.inHand_newSweeper).1
    refine ⟨fun t ht hcan => ?_, canTake_look hi rfl, hm'.drains_look hi rfl rfl⟩
    rw [← ht] at hi ⊢
    exact eq_look_of_canTake hi rfl hq hcan

/-- However a map is set up and whatever has happened to it, in whatever order, to shut it down
takes nothing more out of it and loses nothing of what was taken out. -/
theorem shutdown_loses_nothing (h : open? settings callback? hasRuntime = .ok m)
    (mvs : List (Move ν)) : (m.follow mvs).WindsDown :=
  ((steady_of_open? h).follow mvs).windsDown

/-- The map is caught with two entries taken out and none handed over. -/
theorem shutdown_loses_nothing_relapsing :
    open? { workers := 1 } (some relapse) true = .ok relapsing ∧
      (relapsing.follow (lateRemoval.take 3)).sweepers.map (·.batch.length) = [2] ∧
      (relapsing.follow (lateRemoval.take 3)).WindsDown := by
  have hopen : open? { workers := 1 } (some relapse) true = .ok relapsing := rfl
  exact ⟨hopen, by decide +kernel, shutdown_loses_nothing hopen (lateRemoval.take 3)⟩

end ExpiringMap.LiveMap
