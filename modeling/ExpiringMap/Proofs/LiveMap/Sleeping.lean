import ExpiringMap.Proofs.LiveMap.OnTime
import ExpiringMap.Proofs.LiveMap.Recalling
import ExpiringMap.Proofs.LiveMap.Staffing

namespace ExpiringMap

section

variable {α : Type} {le : α → α → Bool}
  (htrans : ∀ a b c, le a b = true → le b c = true → le a c = true)
  (htotal : ∀ a b, (le a b || le b a) = true)

include htrans htotal

theorem mergeSort_cons_eq (x : α) (xs : List α) : (x :: xs).mergeSort le =
    (xs.mergeSort le).filter (!le x ·) ++ x :: (xs.mergeSort le).filter (le x ·) := by
  obtain ⟨ys, zs, hcons, hxs, hys⟩ := List.mergeSort_cons htrans htotal x xs
  have hsorted := List.pairwise_mergeSort htrans htotal (x :: xs)
  rw [hcons, List.pairwise_append, List.pairwise_cons] at hsorted
  have hzs := hsorted.2.1.1
  rw [hcons, hxs, List.filter_append, List.filter_append, List.filter_eq_self.2 hys,
    List.filter_eq_self.2 hzs, List.filter_eq_nil_iff.2, List.filter_eq_nil_iff.2]
  · simp
  · simpa using hys
  · simpa using hzs

theorem mergeSort_append {xs ys : List α} (h : ∀ x ∈ xs, ∀ y ∈ ys, le x y = true) :
    (xs ++ ys).mergeSort le = xs.mergeSort le ++ ys.mergeSort le := by
  induction xs with
  | nil => simp
  | cons x xs ih =>
    rw [List.forall_mem_cons] at h
    have hys : ∀ y ∈ ys.mergeSort le, le x y = true := fun y hy => h.1 y (List.mem_mergeSort.1 hy)
    have hnone : (ys.mergeSort le).filter (!le x ·) = [] := by
      rw [List.filter_eq_nil_iff]
      simpa using hys
    rw [List.cons_append, mergeSort_cons_eq htrans htotal, mergeSort_cons_eq htrans htotal, ih h.2,
      List.filter_append, List.filter_append, hnone, List.filter_eq_self.2 hys]
    simp

end

variable {ν : Type}

theorem Event.notAfter_trans (a b c : Event ν) (hab : a.notAfter b = true)
    (hbc : b.notAfter c = true) : a.notAfter c = true := by
  simp only [notAfter, Bool.or_eq_true, Bool.and_eq_true, decide_eq_true_eq, beq_iff_eq] at *
  grind

theorem Event.notAfter_total (a b : Event ν) : (a.notAfter b || b.notAfter a) = true := by
  simp only [notAfter, Bool.or_eq_true, Bool.and_eq_true, decide_eq_true_eq, beq_iff_eq]
  grind

/-- What was delivered earlier is listed before the rest. -/
theorem Event.listing_append (workers : Nat) {es es' : List (Event ν)}
    (h : ∀ e ∈ es, ∀ e' ∈ es', e.time < e'.time) :
    listing workers (es ++ es') = listing workers es ++ listing workers es' := by
  unfold listing
  split
  · have hapart : ∀ e ∈ es.getLast?, ∀ e' ∈ es'.head?, together e e' = false := by
      intro e he e' he'
      have hlt := h e (List.mem_of_getLast? he) e' (List.mem_of_head? he')
      simp [together, hlt.ne]
    rw [sortRuns, List.splitBy_append hapart, List.flatMap_append, sortRuns, sortRuns]
  · apply mergeSort_append notAfter_trans notAfter_total
    intro e he e' he'
    simp [notAfter, h e he e' he']

theorem Event.listing_nil (workers : Nat) : listing workers ([] : List (Event ν)) = [] := by
  unfold listing
  split
  · rfl
  · exact List.mergeSort_nil

namespace LiveMap

variable {settings : Settings} {callback? : Option (Callback ν)} {hasRuntime : Bool}
  {m : LiveMap ν} {t clock target : Nat}

theorem isAtRest_of_turn?_eq_none (h : ∀ t, m.turn? t = none) : m.isAtRest = true := by
  apply isAtRest_of_nextTurn?_eq_none (r := {})
  rw [nextTurn?, List.find?_eq_none]
  intro p _
  simp [canTake, h]

theorem lt_alarm_of_waiting (ht : ∀ t, m.nextTimer? = some t → clock < t) {i : Nat}
    {s : Sweeper ν} (hi : m.sweepers[i]? = some s) {a : Instant}
    (hp : s.phase = .waiting (some a)) : Instant.ofMillis clock < a := by
  have hmem : (Instant.ceilMillis a).toNat ∈ m.sweepers.filterMap (·.timerMillis?) :=
    List.mem_filterMap.2 ⟨s, List.mem_of_getElem? hi, by simp [Sweeper.timerMillis?, hp]⟩
  obtain ⟨t, hmin⟩ := Option.isSome_iff_exists.1 (List.isSome_min?_of_mem hmem)
  have hle := (List.le_min?_iff hmin).1 (Nat.le_refl t) _ hmem
  have hlt := ht t hmin
  rw [← Instant.lt_ceilMillis_iff]
  omega

theorem isAtRest_clock (h : m.isAtRest = true) (ht : ∀ t, m.nextTimer? = some t → clock < t) :
    ({ m with clock } : LiveMap ν).isAtRest = true := by
  apply isAtRest_of_turn?_eq_none
  intro t
  cases t with
  | hand i =>
    rw [turn?_hand, Option.map_eq_none_iff, Option.bind_eq_none_iff]
    exact fun s hi => hand?_of_isAtRest h hi
  | work i =>
    rw [turn?_work, Option.map_eq_none_iff, Option.bind_eq_none_iff]
    exact fun s hi => take?_of_isAtRest h hi
  | look i =>
    rw [turn?_look, Option.map_eq_none_iff, Option.bind_eq_none_iff]
    intro s hi
    cases hs : s.phase with
    | looking => exact absurd hs (not_looking_of_isAtRest h hi)
    | handing | waiting | done => simp [Sweeper.look?, hs]
  | release i r =>
    rw [turn?_release, Option.map_eq_none_iff, Option.bind_eq_none_iff]
    intro s hi
    cases r with
    | leave => simpa [Sweeper.release?] using release?_of_isAtRest h hi .leave
    | wake => simpa [Sweeper.release?] using release?_of_isAtRest h hi .wake
    | timer =>
      cases hs : s.phase with
      | looking | handing | done => simp [Sweeper.release?, hs]
      | waiting alarm? =>
        cases alarm? with
        | none => simp [Sweeper.release?, hs]
        | some a =>
          have hlt := lt_alarm_of_waiting ht hi hs
          simp only [Sweeper.release?, hs]
          exact if_neg hlt.not_ge

theorem advanceTo_eq (h : m.isAtRest = true) (ht : ∀ t, m.nextTimer? = some t → clock < t) :
    m.advanceTo clock = { m with clock } := settle_eq_self (isAtRest_clock h ht)

theorem sleepUntil_of_timer (ht : m.nextTimer? = some t) (hlt : m.clock < t) (hle : t ≤ target) :
    m.sleepUntil target = (m.advanceTo t).sleepUntil target := by
  rw [sleepUntil, ht]
  exact if_pos ⟨hlt, hle⟩

theorem sleepUntil_of_lt (h : m.isAtRest = true) (ht : ∀ t, m.nextTimer? = some t → target < t) :
    m.sleepUntil target = { m with clock := target } := by
  rw [sleepUntil]
  split
  · next t hn =>
    rw [if_neg fun hle => (ht t hn).not_ge hle.2]
    exact advanceTo_eq h ht
  · exact advanceTo_eq h ht

/-- A sleep goes from timer to timer, and in the end sets the clock. -/
theorem Sound.sleepUntil_induct {P : LiveMap ν → LiveMap ν → Prop}
    (last : ∀ n : LiveMap ν, n.isAtRest = true → n.clock ≤ target →
      (∀ t, n.nextTimer? = some t → target < t) → P n { n with clock := target })
    (timer : ∀ (n n' : LiveMap ν) (t : Nat), n.nextTimer? = some t → n.clock < t → t ≤ target →
      P (n.advanceTo t) n' → P n n')
    (h : m.Sound) (hr : m.isAtRest = true) (hle : m.clock ≤ target) :
    P m (m.sleepUntil target) := by
  fun_induction LiveMap.sleepUntil target m with
  | case1 m t ht hlt ih =>
    refine timer m _ t ht hlt.1 hlt.2 (ih (h.advanceTo t) (h.isAtRest_advanceTo t) ?_)
    rw [clock_advanceTo]
    exact hlt.2
  | case2 m t ht hnot =>
    have hlate := clock_lt_nextTimer hr ht
    have hafter : ∀ t', m.nextTimer? = some t' → target < t' := by
      intro t' ht'
      rw [ht] at ht'
      cases ht'
      omega
    rw [advanceTo_eq hr hafter]
    exact last m hr hle hafter
  | case3 m ht =>
    have hafter : ∀ t', m.nextTimer? = some t' → target < t' := by
      intro t' ht'
      rw [ht] at ht'
      cases ht'
    rw [advanceTo_eq hr hafter]
    exact last m hr hle hafter

namespace Sound

variable (h : m.Sound) (hr : m.isAtRest = true)

include h hr

theorem clock_sleepUntil (hle : m.clock ≤ target) : (m.sleepUntil target).clock = target :=
  h.sleepUntil_induct (P := fun _ n => n.clock = target) (fun _ _ _ _ => rfl)
    (fun _ _ _ _ _ _ ih => ih) hr hle

theorem sleepUntil_sleepUntil {stop : Nat} (hle : m.clock ≤ stop) (hle' : stop ≤ target) :
    (m.sleepUntil stop).sleepUntil target = m.sleepUntil target := by
  refine h.sleepUntil_induct (P := fun n n' => n'.sleepUntil target = n.sleepUntil target)
    ?_ ?_ hr hle
  · -- The last step before the stop only sets the clock, so the timer that comes next is the same.
    intro n hrest hstop hafter
    have hrest' := isAtRest_clock hrest hafter
    by_cases hlate : ∀ t, n.nextTimer? = some t → target < t
    · rw [sleepUntil_of_lt hrest hlate, sleepUntil_of_lt hrest' hlate]
    · push Not at hlate
      obtain ⟨t, ht, htle⟩ := hlate
      have hlt := hafter t ht
      have hstopped : ({ n with clock := stop } : LiveMap ν).sleepUntil target =
          (n.advanceTo t).sleepUntil target := sleepUntil_of_timer (m := { n with clock := stop })
        ht hlt htle
      rw [hstopped, sleepUntil_of_timer ht (hstop.trans_lt hlt) htle]
  · -- A timer before the stop is a timer before the target.
    intro n n' t ht hlt htle ih
    rw [ih, sleepUntil_of_timer ht hlt (htle.trans hle')]

/-- What is delivered in a sleep is delivered after its beginning and by its end. -/
theorem delivered_sleepUntil (hle : m.clock ≤ target) :
    ∃ es, (m.sleepUntil target).delivered = m.delivered ++ es ∧
      ∀ e ∈ es, m.clock < e.time ∧ e.time ≤ target := by
  refine h.sleepUntil_induct (P := fun n n' => ∃ es, n'.delivered = n.delivered ++ es ∧
    ∀ e ∈ es, n.clock < e.time ∧ e.time ≤ target) ?_ ?_ hr hle
  · intro n _ _ _
    exact ⟨[], (List.append_nil _).symm, fun e he => absurd he List.not_mem_nil⟩
  · intro n n' t _ hlt htle ⟨es, hes, htimes⟩
    rw [clock_advanceTo] at htimes
    let n₁ : LiveMap ν := { n with clock := t }
    have hsettle : (n.advanceTo t).delivered = n.delivered ++ n₁.madeIn n₁.settleMoves :=
      delivered_settle n₁
    refine ⟨n₁.madeIn n₁.settleMoves ++ es, ?_, ?_⟩
    · rw [hes, hsettle, List.append_assoc]
    · intro e he
      rcases List.mem_append.1 he with he | he
      · have htime : e.time = t := time_of_mem_madeIn he
        omega
      · have htime := htimes e he
        omega

end Sound

theorem Sound.isAtRest_sleep (h : m.Sound) (ms : Nat) : (m.sleep ms).isAtRest = true :=
  h.settle.isAtRest_sleepUntil _

section

variable (h : m.Sound)

include h

theorem Sound.clock_sleep (ms : Nat) : (m.sleep ms).clock = m.clock + ms :=
  h.settle.clock_sleepUntil h.isAtRest_settle (by simp)

theorem Sound.sleep_sleep (a b : Nat) : (m.sleep a).sleep b = m.sleep (a + b) := by
  have hrest := h.isAtRest_sleep a
  rw [sleep, settle_eq_self hrest, h.clock_sleep, Nat.add_assoc]
  exact h.settle.sleepUntil_sleepUntil h.isAtRest_settle (by simp) (by omega)

theorem Sound.time_le_of_sleep {ms : Nat} (hnone : m.delivered = []) {e : Event ν}
    (he : e ∈ (m.sleep ms).delivered) : e.time ≤ m.clock + ms := by
  have hle : m.settle.clock ≤ m.clock + ms := by simp
  obtain ⟨es, hes, htimes⟩ := h.settle.delivered_sleepUntil h.isAtRest_settle hle
  rw [sleep, hes, delivered_settle, hnone, List.nil_append, List.mem_append] at he
  rcases he with he | he
  · have htime : e.time = m.clock := time_of_mem_madeIn he
    omega
  · exact (htimes e he).2

theorem Sound.lt_time_of_sleep (hr : m.isAtRest = true) {ms : Nat} (hnone : m.delivered = [])
    {e : Event ν} (he : e ∈ (m.sleep ms).delivered) : m.clock < e.time := by
  obtain ⟨es, hes, htimes⟩ := h.delivered_sleepUntil hr (Nat.le_add_right m.clock ms)
  rw [sleep, settle_eq_self hr, hes, hnone, List.nil_append] at he
  exact (htimes e he).1

theorem Sound.settings_sleep (ms : Nat) : (m.sleep ms).settings = m.settings := by
  obtain ⟨mvs, hpath⟩ : ∃ mvs, m.sleep ms = m.follow mvs :=
    ⟨_, (h.path_apply (.sleep ms)).eq_follow⟩
  rw [hpath, settings_follow]

end

/-- To sleep for `a` and then for `b` is to sleep once for both, and a map that has waited has
nothing left to do. -/
structure SleepAdds (m : LiveMap ν) (a b : Nat) : Prop where
  report : (m.report (.sleep (a + b))).1 =
    { ((m.report (.sleep a)).2.report (.sleep b)).1 with
      events := (m.report (.sleep a)).1.events ++
        ((m.report (.sleep a)).2.report (.sleep b)).1.events }
  map : (m.report (.sleep (a + b))).2 =
    { ((m.report (.sleep a)).2.report (.sleep b)).2 with
      delivered := (m.report (.sleep a)).2.delivered ++
        ((m.report (.sleep a)).2.report (.sleep b)).2.delivered }
  settle : ∀ op, op = .settle ∨ (∃ ms, op = .sleep ms) →
    (m.report op).2.report .settle =
      ({ (m.report op).1 with events := [] }, { (m.report op).2 with delivered := [] })

namespace Sound

variable (h : m.Sound)

include h

/-- The whole sleep leaves what the second part leaves, with the deliveries of the first before. -/
theorem sleep_eq_recalling (a b : Nat) :
    m.sleep (a + b) = (({ m.sleep a with delivered := [] } : LiveMap ν).sleep b).recalling
      (m.sleep a).delivered := by
  have hself : m.sleep a =
      ({ m.sleep a with delivered := [] } : LiveMap ν).recalling (m.sleep a).delivered := by
    simp only [recalling, List.append_nil]
  rw [← h.sleep_sleep, ← sleep_recalling, ← hself]

theorem report_settle {op : Operation ν} (hop : op = .settle ∨ ∃ ms, op = .sleep ms) :
    (m.report op).2.report .settle =
      ({ (m.report op).1 with events := [] }, { (m.report op).2 with delivered := [] }) := by
  let rested : LiveMap ν := { (m.report op).2 with delivered := [] }
  have hself : rested.settle = rested := by
    apply settle_eq_self
    rw [isAtRest_with_delivered]
    exact h.isAtRest_wait hop
  have hreport : (m.report op).2.report .settle =
      (⟨rested.settle.clock, .done, some rested.settle.table.statistics,
        Event.listing (m.report op).2.settings.workers rested.settle.delivered⟩,
        rested.settle) := rfl
  rw [hreport, hself, Event.listing_nil]
  rcases hop with rfl | ⟨ms, rfl⟩ <;> rfl

theorem sleepAdds (a b : Nat) : m.SleepAdds a b := by
  -- A report starts from an empty list, so `q` begins the first sleep and `r` the second.
  let q : LiveMap ν := { m with delivered := [] }
  have hq : q.Sound := h.with_callback m.callback? []
  let r : LiveMap ν := { q.sleep a with delivered := [] }
  have hr : r.Sound := (hq.apply (.sleep a)).with_callback (q.sleep a).callback? []
  have hrest : r.isAtRest = true := by
    rw [isAtRest_with_delivered]
    exact hq.isAtRest_sleep a
  have hwhole : q.sleep (a + b) = (r.sleep b).recalling (q.sleep a).delivered :=
    hq.sleep_eq_recalling a b
  refine ⟨?_, hwhole, fun op => h.report_settle⟩
  have hclock : r.clock = q.clock + a := hq.clock_sleep a
  have hapart : ∀ e ∈ (q.sleep a).delivered, ∀ e' ∈ (r.sleep b).delivered, e.time < e'.time := by
    intro e he e' he'
    have hle := hq.time_le_of_sleep rfl he
    have hlt := hr.lt_time_of_sleep hrest rfl he'
    omega
  -- The two lists are sorted apart, and may be put together since no time is in both.
  have hevents : Event.listing m.settings.workers (q.sleep (a + b)).delivered =
      Event.listing m.settings.workers (q.sleep a).delivered ++
        Event.listing (q.sleep a).settings.workers (r.sleep b).delivered := by
    rw [hwhole, hq.settings_sleep]
    exact Event.listing_append _ hapart
  have hreport : (m.report (.sleep (a + b))).1 =
      ⟨(q.sleep (a + b)).clock, .done, some (q.sleep (a + b)).table.statistics,
        Event.listing m.settings.workers (q.sleep (a + b)).delivered⟩ := rfl
  rw [hreport, hevents, hwhole]
  rfl

end Sound

/-- At every point of every course of a map, between two operations and within them, running or
not and whatever its callback does, to sleep twice is to sleep once, and after a sleep there is
nothing to settle. -/
theorem sleep_additive {n : LiveMap ν} {mvs : List (Move ν)}
    (hopen : open? settings callback? hasRuntime = .ok m) (hpath : Path m mvs n) (a b : Nat) :
    n.SleepAdds a b :=
  ((sound_of_open? hopen).follow hpath).sleepAdds a b

theorem sleep_additive_looping :
    (looping.after [.call (.putUntil "k" () (.due 1500000)), .sleep 1]).SleepAdds 2 3 := by
  have hopen : open? {} looping.callback? true = .ok looping := rfl
  exact sleep_additive hopen ((sound_of_open? hopen).path_history _) 2 3

end LiveMap

end ExpiringMap
