import ExpiringMap.Proofs.LiveMap.Lone
import ExpiringMap.Proofs.LiveMap.Sweeps

/-!
In whatever order the sweeper of a running map and its workers take their turns, the same comes of
it: what is in hand and what is due is delivered one after the other. This holds as long as no
callback ends its worker, and none makes an entry that has ended already, for then it would depend
on the order of turns when the sweeper finds that entry.
-/

namespace ExpiringMap

variable {ν : Type}

/-- Whether a call makes an entry that has ended already. -/
def Call.makesDue (now : Instant) : Call ν → Bool
  | .putUntil _ _ deadline => deadline.hasPassed now
  | _ => false

theorem Watched.dueCount_make_le {w : Watched ν} (h : w.table.Consistent) {now : Instant}
    {c : Call ν} (hc : c.makesDue now = false) :
    (w.make now c).table.dueCount now ≤ w.table.dueCount now := by
  cases c with
  | put k v =>
    refine h.dueCount_update_le_of_not_due (h.put k v) fun b hb => ?_
    cases hb
    rfl
  | putUntil k v d =>
    rw [make, putUntil, table_note]
    refine h.dueCount_update_le_of_not_due (h.putUntil k v d) fun b hb => ?_
    cases hb
    exact hc
  | putFor k v ttl =>
    rw [make, putUntil, table_note]
    refine h.dueCount_update_le_of_not_due (h.putUntil k v _) fun b hb => ?_
    cases hb
    exact Deadline.hasPassed_ofSpan now ttl
  | erase k => exact h.dueCount_update_le_of_not_due (h.erase k) (by simp)
  | eraseMany ks => exact h.dueCount_eraseMany_le ks
  | clear => exact (Table.dueCount_clear w.table now).trans_le (Nat.zero_le _)
  | keep k =>
    refine h.dueCount_update_le_of_not_due (h.keep k) fun b hb => ?_
    obtain ⟨_, -, rfl⟩ := Option.map_eq_some_iff.1 hb
    rfl
  | reschedule k d =>
    rw [make, reschedule, table_note]
    refine h.dueCount_update_le_of_not_due (h.reschedule k d now) fun b hb => ?_
    obtain ⟨b', -, hb'⟩ := Option.bind_eq_some_iff.1 hb
    split at hb'
    · cases hb'
    · next hd =>
      cases hb'
      simpa using hd
  | get | getMany | contains | size | isEmpty | keys | values | statistics | timeLeft | visit
  | start | isRunning | describe => exact le_rfl

namespace LiveMap

variable {m n : LiveMap ν} {s : Sweeper ν} {t : Turn}

theorem dueCount_callAll_le (h : m.table.Consistent) {cs : List (Call ν)}
    (hcs : ∀ c ∈ cs, c.makesDue m.now = false) :
    (m.callAll cs).1.table.dueCount m.now ≤ m.table.dueCount m.now := by
  induction cs generalizing m with
  | nil => exact le_rfl
  | cons c cs ih =>
    obtain ⟨hc, hcs⟩ := List.forall_mem_cons.1 hcs
    have hnow : (m.call c).1.now = m.now := by rw [now, now, clock_call]
    have hrest := ih (consistent_call h c) (by rwa [hnow])
    rw [hnow] at hrest
    refine hrest.trans ?_
    cases hs : c.isStart with
    | true => rw [call_start hs, table_start]
    | false =>
      rw [call_make hs]
      exact Watched.dueCount_make_le h hc

/-- What is to be delivered before the clock moves, in this order. -/
def plan (m : LiveMap ν) : List (Expired ν) :=
  if m.callback?.isSome then m.sweepers.flatMap (·.inHand) ++ m.sweep.1 else []

/-- The map without the entries that are due. -/
def swept (m : LiveMap ν) : LiveMap ν :=
  { m with watched := { m.watched with table := m.sweep.2 } }

/-- What comes of the plan, if nothing else comes up. -/
def outcome (m : LiveMap ν) : LiveMap ν := m.plan.foldl deliver m.swept

/-- Delivering these entries one after the other ends no worker and makes nothing due. -/
def Mild (m : LiveMap ν) : List (Expired ν) → Prop
  | [] => True
  | x :: xs => ((∀ c ∈ m.callsFor x, c.makesDue m.now = false) ∧ m.endsWorker x.key = false) ∧
    (m.deliver x).Mild xs

theorem mild_append {xs ys : List (Expired ν)} :
    m.Mild (xs ++ ys) ↔ m.Mild xs ∧ (xs.foldl deliver m).Mild ys := by
  induction xs generalizing m with
  | nil => simp [Mild]
  | cons x xs ih => simp only [List.cons_append, List.foldl_cons, Mild, ih, and_assoc]

theorem Kindred.mild (h : Kindred m n) {xs : List (Expired ν)} (hm : m.Mild xs) : n.Mild xs := by
  induction xs generalizing m n with
  | nil => trivial
  | cons x xs ih =>
    obtain ⟨⟨hcalls, hends⟩, hrest⟩ := hm
    have hends' : n.endsWorker x.key = m.endsWorker x.key := by
      rw [endsWorker, endsWorker, h.callback?]
    rw [h.callsFor, h.now] at hcalls
    exact ⟨⟨hcalls, hends'.trans hends⟩, ih (h.deliver x) hrest⟩

/-- From `m` to `n` the entries `xs` of the plan have been delivered. -/
structure Proceeds (m n : LiveMap ν) (xs : List (Expired ν)) : Prop where
  plan : m.plan = xs ++ n.plan
  mild : m.swept.Mild xs
  kindred : Kindred (xs.foldl deliver m.swept) n.swept

namespace Proceeds

variable {xs : List (Expired ν)} (h : m.Proceeds n xs)

include h

theorem outcome : Kindred m.outcome n.outcome := by
  rw [LiveMap.outcome, h.plan, List.foldl_append]
  exact h.kindred.deliverAll n.plan

theorem mild_iff : m.swept.Mild m.plan ↔ n.swept.Mild n.plan := by
  rw [h.plan, mild_append]
  exact ⟨fun hm => h.kindred.mild hm.2, fun hn => ⟨h.mild, h.kindred.symm.mild hn⟩⟩

end Proceeds

/-- If there is anybody to tell, the one sweeper has nothing in hand while something is due. -/
structure Tended (m : LiveMap ν) (s : Sweeper ν) : Prop extends m.Lone s where
  steady : m.Steady
  ready : m.callback?.isSome → s.inHand = [] ∨ m.sweep.1 = []

/-- In this turn no worker is ended, and nothing is made due. -/
def MildTurn (m : LiveMap ν) (t : Turn) : Prop :=
  (∀ c ∈ m.callsOf (.turn t), c.makesDue m.now = false) ∧
    ∀ e ∈ m.made (.turn t), m.endsWorker e.key = false

theorem Turned.callback?_of_ne_work (ht : m.Turned t n) (hne : ∀ i, t ≠ .work i) :
    n.callback? = m.callback? := by
  cases ht with
  | work => exact absurd rfl (hne _)
  | hand | look | release => rfl

theorem kindred_swept (h : m.sweep.1 = []) : Kindred m m.swept := by
  have htable : m.table = m.sweep.2 := by
    unfold sweep at h ⊢
    split at h
    · next hr => rw [if_pos hr, Table.takeDue_eq_self h]
    · next hr => rw [if_neg hr]
  exact ⟨⟨rfl, htable, rfl⟩, rfl, rfl, rfl⟩

theorem sweep_deliver (hc : m.table.Consistent) (hr : m.isRunning = true) {x : Expired ν}
    (hcalls : ∀ c ∈ m.callsFor x, c.makesDue m.now = false) (hnone : m.sweep.1 = []) :
    (m.deliver x).sweep.1 = [] := by
  have hdeliver : (m.deliver x).table = ((m.spend x.key).callAll (m.callsFor x)).1.table := by
    rw [deliver_eq]
    rfl
  have hconsistent : (m.deliver x).table.Consistent := by
    rw [hdeliver]
    exact consistent_callAll (m := m.spend x.key) hc _
  have hrunning : (m.deliver x).isRunning = true := by
    rw [deliver_eq]
    exact isRunning_callAll (m.spend x.key) _ hr
  have hnow : (m.deliver x).now = m.now := by rw [now, now, clock_deliver]
  have hle := dueCount_callAll_le (m := m.spend x.key) hc hcalls
  rw [sweep, if_pos hr, ← List.length_eq_zero_iff, ← hc.dueCount_eq_length] at hnone
  rw [sweep, if_pos hrunning, hnow, ← List.length_eq_zero_iff, ← hconsistent.dueCount_eq_length,
    hdeliver]
  exact Nat.le_zero.1 (hle.trans_eq hnone)

namespace Tended

variable (h : m.Tended s)

include h

theorem plan_eq : m.plan = if m.callback?.isSome then s.inHand ++ m.sweep.1 else [] := by
  simp [plan, h.alone]

theorem exists_sweeper_turn (ho : m.Orderly t) (hmild : m.MildTurn t) :
    ∃ s', (m.turn t).Lone s' ∧ (m.callback?.isSome →
      s.inHand ++ m.taken (.turn t) = (m.made (.turn t)).map Event.item ++ s'.inHand) := by
  have ht := ho.turned
  obtain ⟨s', hs'⟩ := h.toLone.turn ho hmild.2
  have hzero := h.sweeper_eq_zero ht
  obtain ⟨s'', hs'', hp⟩ := (h.steady.advances_turned ht).old 0 s h.getElem?_zero
  rw [hs'.getElem?_zero] at hs''
  cases hs''
  refine ⟨s', hs', fun hc => ?_⟩
  have hsome := isSome_callback?_move m (.turn t)
  have hworkers := hs'.staffed.workers_pos (hsome.trans hc) s' (by rw [hs'.alone]; simp)
  have hkept := hp.kept hworkers
  rwa [takenBy, madeBy, if_pos hzero, if_pos hzero] at hkept

/-- A turn in which nobody calls the map leaves as much to do as there was. -/
theorem proceeds_of_callsOf_eq_nil {s' : Sweeper ν} (hs' : (m.turn t).sweepers = [s'])
    (hkept : m.callback?.isSome →
      s.inHand ++ m.taken (.turn t) = (m.made (.turn t)).map Event.item ++ s'.inHand)
    (ho : m.Orderly t) (hcalls : m.callsOf (.turn t) = [])
    (hmade : m.made (.turn t) = []) (hcb : (m.turn t).callback? = m.callback?) :
    m.Proceeds (m.turn t) [] ∧ (m.callback?.isSome → s'.inHand = [] ∨ (m.turn t).sweep.1 = []) := by
  obtain ⟨hsweep, htaken⟩ := h.sound.sweep_turn ho hcalls
  rw [hmade, List.map_nil, List.nil_append] at hkept
  have hdelivered : (m.move (.turn t)).delivered = m.delivered ++ m.made (.turn t) :=
    delivered_move (by simp)
  rw [hmade, List.append_nil] at hdelivered
  have hkindred : Kindred m.swept (m.turn t).swept :=
    ⟨⟨Int.ofNat.inj (m.clock_turn t).symm, congrArg (·.2) hsweep,
      (ho.isRunning_turn hcalls).symm⟩, (settings_move m (.turn t)).symm, hcb.symm,
      hdelivered.symm⟩
  refine ⟨⟨?_, trivial, hkindred⟩, fun hc => ?_⟩
  · rw [h.plan_eq, plan, hcb, List.nil_append]
    split
    · next hc =>
      rw [hs', hsweep, ← List.append_assoc, hkept hc]
      simp
    · rfl
  · -- Whatever was taken out was all that was due.
    rcases htaken with htaken | hnone
    · rw [← hkept hc, htaken, List.append_nil]
      have hready := h.ready hc
      rwa [hsweep, htaken, List.nil_append] at hready
    · exact .inr hnone

/-- When a worker delivers an entry the plan begins with it, and goes on with the rest. -/
theorem proceeds_work {i : Nat} {s₁ s₂ s' : Sweeper ν} {x : Expired ν}
    (hi : m.sweepers[i]? = some s₁) (hs : s₁.take? = some (x, s₂))
    (hmild : m.MildTurn (.work i)) (ht : m.turn (.work i) = (m.setSweeper i s₂).afterWork i x)
    (hs' : (m.turn (.work i)).sweepers = [s'])
    (hkept : m.callback?.isSome → s.inHand ++ m.taken (.turn (.work i)) =
      (m.made (.turn (.work i))).map Event.item ++ s'.inHand) :
    m.Proceeds (m.turn (.work i)) [x] ∧
      (m.callback?.isSome → s'.inHand = [] ∨ (m.turn (.work i)).sweep.1 = []) := by
  obtain ⟨o, xs, hout, -, -, -⟩ := Sweeper.take?_cases hs
  have hsome := (h.steady.fitted s₁ (List.mem_of_getElem? hi)).told (by rw [hout]; rfl)
  obtain ⟨c, hc⟩ := Option.isSome_iff_exists.1 hsome
  obtain ⟨e, hevents, hitem⟩ := item_of_mem_eventsFor (m := m.setSweeper i s₂) (x := x) hc
  rw [← made_work hi hs] at hevents
  have hhand : s.inHand = x :: s'.inHand := by
    have hk := hkept hsome
    rw [hevents, List.map_singleton, hitem] at hk
    simpa [taken] using hk
  have hnone : m.sweep.1 = [] := (h.ready hsome).resolve_left (by rw [hhand]; simp)
  have hcalls : ∀ c ∈ m.callsFor x, c.makesDue m.now = false := by
    have hm := hmild.1
    simpa [callsOf, hi, hs] using hm
  have hends : m.endsWorker x.key = false := by
    rw [← hitem]
    exact hmild.2 e (by rw [hevents]; exact List.mem_singleton_self e)
  have hstays : ((m.setSweeper i s₂).deliver x).endsWorker x.key = false := by
    rw [endsWorker_of_callback? (.inr ⟨x.key, callback?_deliver (m.setSweeper i s₂) x⟩)]
    exact hends
  rw [afterWork, if_neg (by simp [hstays])] at ht
  have hset : Kindred m (m.setSweeper i s₂) :=
    ⟨⟨rfl, rfl, (isRunning_setSweeper (w := m.watched) hi (Sweeper.leaving_take? hs)).symm⟩,
      rfl, rfl, rfl⟩
  have hafter : (m.turn (.work i)).sweep.1 = [] := by
    rw [ht]
    exact sweep_deliver (m := m.setSweeper i s₂) h.sound.consistent
      (hset.isRunning.symm.trans h.isRunning) hcalls
      ((congrArg (·.1) hset.toAlike.sweep).symm.trans hnone)
  refine ⟨⟨?_, ⟨⟨hcalls, hends⟩, trivial⟩, ?_⟩, fun _ => .inr hafter⟩
  · rw [h.plan_eq, if_pos hsome, hhand, hnone, plan, hs', hafter]
    rw [if_pos (by rw [ht, callback?_deliver]; simpa [setSweeper] using hsome)]
    simp
  · rw [List.foldl_cons, List.foldl_nil]
    have hdeliver := ((kindred_swept hnone).symm.trans hset).deliver x
    rw [← ht] at hdeliver
    exact hdeliver.trans (kindred_swept hafter)

/-- A turn brings a tended map on in its plan. -/
theorem turn (ho : m.Orderly t) (hmild : m.MildTurn t) :
    ∃ s' xs, (m.turn t).Tended s' ∧ m.Proceeds (m.turn t) xs := by
  obtain ⟨s', hs', hkept⟩ := h.exists_sweeper_turn ho hmild
  have hproceeds : ∃ xs, m.Proceeds (m.turn t) xs ∧
      (m.callback?.isSome → s'.inHand = [] ∨ (m.turn t).sweep.1 = []) := by
    have ht := ho.turned
    cases t with
    | work i =>
      generalize hn : m.turn (.work i) = n at ht
      cases ht with
      | work hi hs => exact ⟨_, hn ▸ h.proceeds_work hi hs hmild hn hs'.alone hkept⟩
    | hand | look | release =>
      have hcb := ht.callback?_of_ne_work (by simp)
      exact ⟨[], h.proceeds_of_callsOf_eq_nil hs'.alone hkept ho rfl rfl hcb⟩
  obtain ⟨xs, hp, hready⟩ := hproceeds
  have hsome := isSome_callback?_move m (.turn t)
  exact ⟨s', xs, ⟨hs', h.steady.move (.turn t), fun hc => hready (hsome.symm.trans hc)⟩, hp⟩

theorem mildTurn (ho : m.Orderly t) (hmild : m.swept.Mild m.plan) : m.MildTurn t := by
  have ht := ho.turned
  cases t with
  | work i =>
    generalize m.turn (.work i) = n at ht
    cases ht with
    | @work _ s₁ x s₂ hi hs =>
      have hmem := List.mem_of_getElem? hi
      rw [h.alone, List.mem_singleton] at hmem
      subst hmem
      obtain ⟨o, xs, hout, -, hq, -⟩ := Sweeper.take?_cases hs
      have hsome := (h.steady.fitted s₁ (List.mem_of_getElem? hi)).told (by rw [hout]; rfl)
      have hplan : m.plan = x :: (xs ++ s₁.batch ++ m.sweep.1) := by
        simp [h.plan_eq, hsome, Sweeper.inHand, Sweeper.queued_of_outbox? hout, hq]
      rw [hplan] at hmild
      have hcalls : ∀ c ∈ m.callsFor x, c.makesDue m.now = false := hmild.1.1
      have hends : m.endsWorker x.key = false := hmild.1.2
      obtain ⟨c, hc⟩ := Option.isSome_iff_exists.1 hsome
      obtain ⟨e, hevents, hitem⟩ := item_of_mem_eventsFor (m := m.setSweeper i s₂) (x := x) hc
      refine ⟨by simpa [callsOf, hi, hs] using hcalls, fun e' he' => ?_⟩
      rw [made_work hi hs, hevents, List.mem_singleton] at he'
      rw [he', show e.key = x.key from congrArg (·.key) hitem]
      exact hends
  | hand | look | release => exact ⟨by simp [callsOf], by simp [made]⟩

theorem plan_of_isAtRest (hr : m.isAtRest = true) : m.plan = [] := by
  have hhand : s.inHand = [] := h.steady.inHand_of_isAtRest hr (by rw [h.alone]; simp)
  rw [h.plan_eq, hhand, h.sound.sweep_of_isAtRest hr]
  simp

theorem kindred_outcome (hr : m.isAtRest = true) : Kindred m.outcome m := by
  rw [outcome, h.plan_of_isAtRest hr]
  exact (kindred_swept (by rw [h.sound.sweep_of_isAtRest hr])).symm

/-- A tended map whose plan is mild carries it out. -/
theorem settle (hmild : m.swept.Mild m.plan) :
    ∃ s', m.settle.Tended s' ∧ Kindred m.outcome m.settle := by
  obtain ⟨s', hs', -, hk⟩ := settle_induct
    (P := fun n => ∃ s', n.Tended s' ∧ n.swept.Mild n.plan ∧ Kindred m.outcome n.outcome)
    (fun n t hn ho => by
      obtain ⟨s₁, hs₁, hmild, hk⟩ := hn
      obtain ⟨s₂, xs, hs₂, hp⟩ := hs₁.turn ho (hs₁.mildTurn ho hmild)
      exact ⟨s₂, hs₂, hp.mild_iff.1 hmild, hk.trans hp.outcome⟩)
    ⟨s, h, hmild, .refl _⟩
  exact ⟨s', hs', hk.trans (hs'.kindred_outcome h.sound.isAtRest_settle)⟩

end Tended

/-- No call made in a callback in the course of these moves makes an entry that has ended. -/
def MakesNoneDue (m : LiveMap ν) (mvs : List (Move ν)) : Prop :=
  ∀ before t rest, mvs = before ++ .turn t :: rest →
    ∀ c ∈ (m.follow before).callsOf (.turn t), c.makesDue (m.follow before).now = false

namespace MakesNoneDue

variable {mvs mvs' : List (Move ν)}

theorem of_append (h : m.MakesNoneDue (mvs ++ mvs')) :
    m.MakesNoneDue mvs ∧ (m.follow mvs).MakesNoneDue mvs' := by
  refine ⟨fun before t rest he => ?_, fun before t rest he => ?_⟩
  · exact h before t (rest ++ mvs') (by rw [he]; simp)
  · have hlater := h (mvs ++ before) t rest (by rw [he]; simp)
    rwa [follow, List.foldl_append] at hlater

theorem of_cons {mv : Move ν} (h : m.MakesNoneDue (mv :: mvs)) :
    m.MakesNoneDue [mv] ∧ (m.move mv).MakesNoneDue mvs :=
  MakesNoneDue.of_append h

end MakesNoneDue

theorem scripts_follow {cb' : Callback ν} (m : LiveMap ν) (mvs : List (Move ν))
    (h : (m.follow mvs).callback? = some cb') :
    ∃ cb, m.callback? = some cb ∧ cb'.scripts.Sublist cb.scripts := by
  induction mvs generalizing m with
  | nil => exact ⟨cb', h, List.Sublist.refl _⟩
  | cons mv mvs ih =>
    obtain ⟨cb, hcb, hsub⟩ := ih (m.move mv) h
    rcases callback?_move m mv with hsame | ⟨k, hspent⟩
    · exact ⟨cb, hsame ▸ hcb, hsub⟩
    · obtain ⟨cb₀, hcb₀, rfl⟩ := Option.map_eq_some_iff.1 (hspent.symm.trans hcb)
      exact ⟨cb₀, hcb₀, hsub.trans List.eraseP_sublist⟩

theorem makesDue_of_mem_callsFor {cb : Callback ν} {x : Expired ν} {c : Call ν}
    (hcb : m.callback? = some cb) (hc : c ∈ m.callsFor x)
    (hscripts : ∀ script ∈ cb.scripts, ∀ c ∈ script.2, c.makesDue m.now = false) :
    c.makesDue m.now = false := by
  simp only [callsFor, hcb] at hc
  rcases List.mem_append.1 hc with hc | hc
  · cases hs : cb.script? x.key with
    | none => simp [hs] at hc
    | some cs =>
      obtain ⟨l₁, l₂, he, -⟩ := List.lookup_eq_some_iff.1 hs
      exact hscripts (x.key, cs) (by simp [he]) c (by simpa [hs] using hc)
  · obtain ⟨r, -, he⟩ := Option.bind_eq_some_iff.1 (Option.mem_toList.1 hc)
    obtain ⟨v, -, rfl⟩ := Option.map_eq_some_iff.1 he
    rfl

theorem makesNoneDue_of_scripts {cb : Callback ν} (hcb : m.callback? = some cb)
    (hscripts : ∀ script ∈ cb.scripts, ∀ c ∈ script.2, ∀ now, c.makesDue now = false)
    (mvs : List (Move ν)) : m.MakesNoneDue mvs := by
  intro before t rest _ c hc
  cases t with
  | work i =>
    cases hi : (m.follow before).sweepers[i]?.bind (·.take?) with
    | none => simp [callsOf, hi] at hc
    | some p =>
      simp only [callsOf, hi] at hc
      cases hcb' : (m.follow before).callback? with
      | none => simp [callsFor, hcb'] at hc
      | some cb' =>
        obtain ⟨cb₀, hcb₀, hsub⟩ := scripts_follow m before hcb'
        obtain rfl : cb = cb₀ := Option.some.inj (hcb.symm.trans hcb₀)
        exact makesDue_of_mem_callsFor hcb' hc fun script hs c hc =>
          hscripts script (hsub.subset hs) c hc _
  | hand | look | release => simp [callsOf] at hc

/-- The plan of a map is mild if nothing happens that is not when it is carried out. -/
theorem Tended.mild_plan (h : m.Tended s) (hcalls : m.MakesNoneDue m.settleMoves)
    (hspare : ∀ e ∈ m.madeIn m.settleMoves, m.endsWorker e.key = false) :
    m.swept.Mild m.plan := by
  have hsteps (k : Nat) {m : LiveMap ν} {s : Sweeper ν} (r : Rota) (h : m.Tended s)
      (hcalls : m.MakesNoneDue ((stepTurns k m r).map .turn))
      (hspare : ∀ e ∈ m.madeIn ((stepTurns k m r).map .turn), m.endsWorker e.key = false) :
      ∃ s', (m.steps k r).Tended s' ∧
        ((m.steps k r).swept.Mild (m.steps k r).plan → m.swept.Mild m.plan) := by
    induction k generalizing m s r with
    | zero => exact ⟨s, h, id⟩
    | succ k ih =>
      rw [steps_succ]
      rw [stepTurns] at hcalls hspare
      split
      · next t r' hn =>
        simp only [hn, List.map_cons] at hcalls hspare
        obtain ⟨hfirst, hrest⟩ := hcalls.of_cons
        obtain ⟨hspare, hspares⟩ := List.forall_mem_append.1 hspare
        have ho := orderly_of_nextTurn? hn
        obtain ⟨s₁, xs, hs₁, hp⟩ := h.turn ho ⟨hfirst [] t [] rfl, hspare⟩
        obtain ⟨s', hs', hback⟩ := ih (m.rotaAfter r' t (m.turn t)) hs₁ hrest fun e he => by
          rw [endsWorker_of_callback? ho.turned.callback?]
          exact hspares e he
        exact ⟨s', hs', fun hmild => hp.mild_iff.2 (hback hmild)⟩
      · exact ⟨s, h, id⟩
  obtain ⟨s', hs', hmild⟩ := hsteps m.turnsLeft m.rota h hcalls hspare
  apply hmild
  have hplan : m.settle.plan = [] := hs'.plan_of_isAtRest h.sound.isAtRest_settle
  change m.settle.swept.Mild m.settle.plan
  rw [hplan]
  trivial

end LiveMap

end ExpiringMap
