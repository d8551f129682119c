import ExpiringMap.Proofs.LiveMap.OnTime
import ExpiringMap.Proofs.LiveMap.Staffing
import ExpiringMap.Proofs.LiveMap.Sweeps

/-!
Callbacks that call nobody make no difference to the entries. Two maps are run side by side, with
callbacks, workers and queues of their own: their tables are the same at every point between two
operations, and if both tell of everything they tell of the same entries.
-/

namespace ExpiringMap

variable {ν : Type}

def Callback.CallsNobody (c : Callback ν) : Prop :=
  (∀ p ∈ c.scripts, p.2 = []) ∧ ∀ k v, c.rearmCall? k v = none

theorem Callback.CallsNobody.spend {c : Callback ν} (h : c.CallsNobody) (k : Key) :
    (c.spend k).CallsNobody :=
  ⟨fun p hp => h.1 p (List.mem_of_mem_eraseP hp), h.2⟩

theorem Callback.mem_of_script? {c : Callback ν} {k : Key} {cs : List (Call ν)}
    (h : c.script? k = some cs) : (k, cs) ∈ c.scripts := by
  obtain ⟨before, rest, he, -⟩ := List.lookup_eq_some_iff.1 h
  simp [he]

/-- A report without its events, and without the text of an answer. -/
def Report.bare (r : Report ν) : Nat × Answer ν × Option Statistics :=
  (r.clock, View.textless.answer r.answer, r.statistics?)

/-- What is told of an entry. -/
def Event.told (e : Event ν) : Nat × Key × ν := (e.time, e.key, e.value)

def Expired.told (clock : Nat) (x : Expired ν) : Nat × Key × ν := (clock, x.key, x.value)

namespace LiveMap

variable {m n : LiveMap ν} {t : Turn}

def CallsNobody (m : LiveMap ν) : Prop := ∀ c, m.callback? = some c → c.CallsNobody

theorem callsFor_eq_nil (h : m.CallsNobody) (x : Expired ν) : m.callsFor x = [] := by
  unfold callsFor
  cases hc : m.callback? with
  | none => rfl
  | some c =>
    have hscript : (c.script? x.key).getD [] = [] := by
      cases hs : c.script? x.key with
      | none => rfl
      | some cs =>
        exact (h c hc).1 _ (Callback.mem_of_script? hs)
    simp [hscript, (h c hc).2]

theorem callsOf_eq_nil (h : m.CallsNobody) (t : Turn) : m.callsOf (.turn t) = [] := by
  cases t with
  | work i =>
    simp only [callsOf]
    split
    · exact callsFor_eq_nil h _
    · rfl
  | hand | look | release => rfl

theorem CallsNobody.of_callback? {m' : LiveMap ν} (hm : m.CallsNobody)
    (h : m'.callback? = m.callback? ∨ ∃ k, m'.callback? = m.callback?.map (·.spend k)) :
    m'.CallsNobody := by
  intro c hc
  rcases h with h | ⟨k, h⟩
  · exact hm c (h ▸ hc)
  · rw [h] at hc
    obtain ⟨c₀, hc₀, rfl⟩ := Option.map_eq_some_iff.1 hc
    exact (hm c₀ hc₀).spend k

theorem CallsNobody.turn (h : m.CallsNobody) (ho : m.Orderly t) : (m.turn t).CallsNobody :=
  h.of_callback? ho.turned.callback?

theorem CallsNobody.isRunning_turn (h : m.CallsNobody) (ho : m.Orderly t) :
    (m.turn t).isRunning = m.isRunning :=
  ho.isRunning_turn (callsOf_eq_nil h t)

theorem Sound.sweep_steps (hm : m.Sound) (h : m.CallsNobody) (k : Nat) (r : Rota) :
    m.sweep = (m.takenIn ((stepTurns k m r).map .turn) ++ (m.steps k r).sweep.1,
      (m.steps k r).sweep.2) ∧ (m.steps k r).isRunning = m.isRunning ∧
      (m.steps k r).CallsNobody := by
  induction k generalizing m r with
  | zero => exact ⟨rfl, rfl, h⟩
  | succ k ih =>
    rw [steps_succ, stepTurns]
    split
    · next t r' hn =>
      have ho := orderly_of_nextTurn? hn
      obtain ⟨hsweep, hrunning, hcalls⟩ :=
        ih (hm.turn ho) (h.turn ho) (m.rotaAfter r' t (m.turn t))
      refine ⟨?_, hrunning.trans (h.isRunning_turn ho), hcalls⟩
      rw [(hm.sweep_turn ho (callsOf_eq_nil h t)).1, hsweep, ← List.append_assoc]
      rfl
    · exact ⟨rfl, rfl, h⟩

section

variable (hm : m.Sound) (h : m.CallsNobody)

include hm h

/-- When a map settles everything that is due is taken out, and nothing else. -/
theorem Sound.sweep_settle : m.sweep = (m.takenIn m.settleMoves, m.settle.table) := by
  have hsteps := (hm.sweep_steps h m.turnsLeft m.rota).1
  change m.sweep = (m.takenIn m.settleMoves ++ m.settle.sweep.1, m.settle.sweep.2) at hsteps
  rw [hm.settle.sweep_of_isAtRest hm.isAtRest_settle, List.append_nil] at hsteps
  exact hsteps

theorem CallsNobody.isRunning_settle : m.settle.isRunning = m.isRunning :=
  (hm.sweep_steps h m.turnsLeft m.rota).2.1

theorem CallsNobody.settle : m.settle.CallsNobody := (hm.sweep_steps h m.turnsLeft m.rota).2.2

end

/-- There is a callback, all workers are there, and nothing is left over. -/
structure Attended (m : LiveMap ν) : Prop where
  told : m.callback?.isSome
  staffed : m.Staffed
  idle : ∀ s ∈ m.sweepers, s.inHand = []

theorem Steady.made_perm (h : m.Steady) (hidle : ∀ s ∈ m.sweepers, s.inHand = [])
    {mvs : List (Move ν)} (hmanned : m.Manned mvs) (hr : (m.follow mvs).isAtRest = true) :
    ((m.madeIn mvs).map Event.item).Perm (m.takenIn mvs) := by
  have hblank := Journal.matches_blank h hidle
  have hnone {β : Type} (g : Page ν → List β) (hg : g {} = []) :
      (Journal.blank m).all.flatMap g = [] := by
    rw [List.flatMap_eq_nil_iff]
    intro p hp
    obtain ⟨s, -, rfl⟩ := List.mem_map.1 hp
    exact hg
  obtain ⟨htaken, hmade⟩ := hblank.follow_perm mvs
  rw [hnone (·.taken) rfl, List.nil_append] at htaken
  rw [hnone (·.made) rfl, List.nil_append] at hmade
  have hclosed := hblank.closed_complete hmanned (by simp [Journal.blank])
  have hworkers := hmanned mvs [] (List.append_nil _).symm
  have hcomplete (p : Page ν) (hp : p ∈ ((Journal.blank m).follow m mvs).all) : p.Complete :=
    (Journal.mem_all.1 hp).elim (hclosed p) ((hblank.follow mvs).complete hr hworkers)
  rw [Journal.flatMap_taken_eq hcomplete] at htaken
  exact (hmade.map Event.item).symm.trans htaken

/-- When a map settles everybody to be told is told of what is taken out. -/
theorem Attended.settle (h : m.Attended) (hs : m.Steady) (hspare : m.settle.Sparing) :
    m.settle.Attended ∧ (m.settle.delivered.map Event.told).Perm
      (m.delivered.map Event.told ++ (m.takenIn m.settleMoves).map (Expired.told m.clock)) := by
  have hspared := hspare.of_settle.2
  have hmanned := h.staffed.manned h.told hspared
  have hfollow := (path_settle m).eq_follow
  have hrest := hs.isAtRest_settle
  have hstaffed : m.settle.Staffed := by
    rw [hfollow]
    exact h.staffed.follow hspared
  have htold : m.settle.callback?.isSome := by
    rw [hfollow, isSome_callback?_follow]
    exact h.told
  refine ⟨⟨htold, hstaffed, fun s hmem => ?_⟩, ?_⟩
  · exact hs.settle.inHand_of_isAtRest hrest hmem
  · have hperm := (hs.made_perm h.idle hmanned (hfollow ▸ hrest)).map (Expired.told m.clock)
    rw [delivered_settle, List.map_append]
    refine .append (.refl _) ?_
    have htold : (m.madeIn m.settleMoves).map Event.told =
        ((m.madeIn m.settleMoves).map Event.item).map (Expired.told m.clock) := by
      rw [List.map_map]
      refine List.map_congr_left fun e he => ?_
      rw [Event.told, time_of_mem_madeIn he]
      rfl
    rw [htold]
    exact hperm

namespace Alike

variable (h : Alike m n)

include h

theorem later (clock : Nat) : Alike { m with clock }.rouse { n with clock }.rouse where
  clock := rfl
  table := h.table
  isRunning := (isRunning_realarm _ _).trans (h.isRunning.trans (isRunning_realarm _ _).symm)

end Alike

/-- Everything is in order, and the callback calls nobody. -/
structure Quiet (m : LiveMap ν) : Prop where
  sound : m.Sound
  steady : m.Steady
  callsNobody : m.CallsNobody

namespace Quiet

variable (h : m.Quiet)

include h

theorem call (c : Call ν) : (m.call c).1.Quiet :=
  ⟨h.sound.call c, h.steady.move (.call c), fun d hd => h.callsNobody d (callback?_call m c ▸ hd)⟩

theorem settle : m.settle.Quiet :=
  ⟨h.sound.settle, h.steady.settle, h.callsNobody.settle h.sound⟩

theorem leave : m.leave.Quiet := ⟨h.sound.leave, h.steady.move .leave, h.callsNobody⟩

theorem prune : m.prune.Quiet := ⟨h.sound.prune, h.steady.move .prune, h.callsNobody⟩

theorem report : { m with delivered := [] }.Quiet :=
  ⟨h.sound.with_callback m.callback? [], h.steady.move .report, h.callsNobody⟩

theorem later (clock : Nat) : { m with clock }.rouse.Quiet where
  sound := (h.sound.clock clock).rouse
  steady := by
    have hwait := h.steady.move (.wait clock)
    refine ⟨hwait.idlePoll_pos, hwait.capacity_pos, hwait.consistent, fun s hs => ?_⟩
    obtain ⟨s, hmem, rfl⟩ := List.mem_map.1 hs
    have hf := hwait.fitted s hmem
    exact ⟨hf.room, hf.unmanned, hf.told⟩
  callsNobody := h.callsNobody

end Quiet

section

variable (h : Alike m n) (hm : m.Quiet) (hn : n.Quiet)

include h hm hn

theorem alike_settle : Alike m.settle n.settle where
  clock := by rw [clock_settle, clock_settle, h.clock]
  table := by
    have hsweep := h.sweep
    rw [hm.sound.sweep_settle hm.callsNobody, hn.sound.sweep_settle hn.callsNobody] at hsweep
    exact congrArg (·.2) hsweep
  isRunning := by
    rw [hm.callsNobody.isRunning_settle hm.sound, hn.callsNobody.isRunning_settle hn.sound,
      h.isRunning]

theorem takenIn_settleMoves : m.takenIn m.settleMoves = n.takenIn n.settleMoves := by
  have hsweep := h.sweep
  rw [hm.sound.sweep_settle hm.callsNobody, hn.sound.sweep_settle hn.callsNobody] at hsweep
  exact congrArg (·.1) hsweep

theorem alike_prune : Alike m.prune n.prune :=
  ⟨h.clock, h.table, by rw [isRunning_prune hm.sound, isRunning_prune hn.sound, h.isRunning]⟩

end

/-- Two maps whose callbacks call nobody, alike but for these. -/
structure Matched (m n : LiveMap ν) : Prop extends Alike m n where
  left : m.Quiet
  right : n.Quiet

namespace Matched

variable (h : Matched m n)

include h

theorem call (c : Call ν) : Matched (m.call c).1 (n.call c).1 :=
  ⟨h.toAlike.call c, h.left.call c, h.right.call c⟩

theorem settle : Matched m.settle n.settle :=
  ⟨alike_settle h.toAlike h.left h.right, h.left.settle, h.right.settle⟩

theorem leave : Matched m.leave n.leave := ⟨h.toAlike.leave, h.left.leave, h.right.leave⟩

theorem prune : Matched m.prune n.prune :=
  ⟨alike_prune h.toAlike h.left h.right, h.left.prune, h.right.prune⟩

theorem report : Matched { m with delivered := [] } { n with delivered := [] } :=
  ⟨⟨h.clock, h.table, h.isRunning⟩, h.left.report, h.right.report⟩

theorem later (clock : Nat) : Matched { m with clock }.rouse { n with clock }.rouse :=
  ⟨h.toAlike.later clock, h.left.later clock, h.right.later clock⟩

theorem tick : Matched m.tick n.tick := by
  have hlater := (h.later (m.clock + 1)).settle
  rw [LiveMap.tick, LiveMap.tick, ← h.clock]
  exact hlater

omit h in
theorem ticks (h : Matched m n) (k : Nat) : Matched (m.ticks k) (n.ticks k) := by
  induction k generalizing m n with
  | zero => exact h
  | succ k ih => exact ih h.tick

theorem stop : Matched m.stop n.stop := h.leave.settle.prune

theorem applyChecking (op : Operation ν) :
    Matched (m.applyWith sleepChecking op).1 (n.applyWith sleepChecking op).1 := by
  cases op with
  | call c => exact h.call c
  | settle => exact h.settle
  | sleep ms => exact h.settle.ticks ms
  | stop => exact h.stop
  | stopTwice => exact h.leave.stop
  | restart => exact h.stop.call .start
  | drop => exact h.leave

end Matched

namespace Attended

variable (h : m.Attended)

include h

theorem call (c : Call ν) : (m.call c).1.Attended := by
  obtain ⟨ss, hss, hnew, -⟩ := sweepers_call m c
  refine ⟨by rw [callback?_call]; exact h.told, h.staffed.move (.call c) (by simp [made]),
    fun s hs => ?_⟩
  rw [hss] at hs
  rcases List.mem_append.1 hs with hs | hs
  · exact h.idle s hs
  · exact hnew s hs ▸ m.inHand_newSweeper

theorem leave : m.leave.Attended := by
  refine ⟨h.told, h.staffed.move .leave (by simp [made]), fun s hs => ?_⟩
  obtain ⟨s, hmem, rfl⟩ := List.mem_map.1 hs
  exact h.idle s hmem

theorem later (clock : Nat) : { m with clock }.rouse.Attended := by
  refine ⟨h.told, h.staffed.of_mem rfl fun s hs => ?_, fun s hs => ?_⟩
  · obtain ⟨s, hmem, rfl⟩ := List.mem_map.1 hs
    exact .inr ⟨s, hmem, rfl⟩
  · obtain ⟨s, hmem, rfl⟩ := List.mem_map.1 hs
    simpa [Sweeper.inHand] using h.idle s hmem

theorem prune : m.prune.Attended :=
  ⟨h.told, h.staffed.move .prune (by simp [made]),
    fun s hs => h.idle s (List.mem_filter.1 hs).1⟩

theorem report : { m with delivered := [] }.Attended := ⟨h.told, h.staffed, h.idle⟩

end Attended

theorem Sparing.of_ticks {k : Nat} (h : (m.ticks k).Sparing) : m.Sparing := by
  induction k generalizing m with
  | zero => exact h
  | succ k ih => exact (ih h).of_settle.1

/-- Matched, and both tell everything and have told the same so far. -/
structure Told (m n : LiveMap ν) : Prop extends Matched m n where
  attended : m.Attended ∧ n.Attended
  perm : (m.delivered.map Event.told).Perm (n.delivered.map Event.told)

namespace Told

variable (h : Told m n)

include h

theorem call (c : Call ν) : Told (m.call c).1 (n.call c).1 where
  toMatched := h.toMatched.call c
  attended := ⟨h.attended.1.call c, h.attended.2.call c⟩
  perm := by
    rw [delivered_call, delivered_call]
    exact h.perm

theorem settle (hm : m.settle.Sparing) (hn : n.settle.Sparing) : Told m.settle n.settle := by
  obtain ⟨ham, hpm⟩ := h.attended.1.settle h.left.steady hm
  obtain ⟨han, hpn⟩ := h.attended.2.settle h.right.steady hn
  refine ⟨h.toMatched.settle, ⟨ham, han⟩, ?_⟩
  rw [takenIn_settleMoves h.toAlike h.left h.right, h.clock] at hpm
  exact hpm.trans ((h.perm.append_right _).trans hpn.symm)

theorem leave : Told m.leave n.leave :=
  ⟨h.toMatched.leave, ⟨h.attended.1.leave, h.attended.2.leave⟩, h.perm⟩

theorem prune : Told m.prune n.prune :=
  ⟨h.toMatched.prune, ⟨h.attended.1.prune, h.attended.2.prune⟩, h.perm⟩

theorem report : Told { m with delivered := [] } { n with delivered := [] } :=
  ⟨h.toMatched.report, ⟨h.attended.1.report, h.attended.2.report⟩, .refl _⟩

theorem later (clock : Nat) : Told { m with clock }.rouse { n with clock }.rouse :=
  ⟨h.toMatched.later clock, ⟨h.attended.1.later clock, h.attended.2.later clock⟩, h.perm⟩

theorem tick (hm : m.tick.Sparing) (hn : n.tick.Sparing) : Told m.tick n.tick := by
  have hlater := h.later (m.clock + 1)
  rw [LiveMap.tick] at hm hn ⊢
  rw [LiveMap.tick]
  rw [← h.clock] at hn ⊢
  exact hlater.settle hm hn

omit h in
theorem ticks (h : Told m n) {k : Nat} (hm : (m.ticks k).Sparing) (hn : (n.ticks k).Sparing) :
    Told (m.ticks k) (n.ticks k) := by
  induction k generalizing m n with
  | zero => exact h
  | succ k ih =>
    refine ih (h.tick ?_ ?_) hm hn
    · exact Sparing.of_ticks (m := m.tick) hm
    · exact Sparing.of_ticks (m := n.tick) hn

theorem stop (hm : m.stop.Sparing) (hn : n.stop.Sparing) : Told m.stop n.stop :=
  (h.leave.settle hm hn).prune

theorem applyChecking {op : Operation ν} (hm : (m.applyWith sleepChecking op).1.Sparing)
    (hn : (n.applyWith sleepChecking op).1.Sparing) :
    Told (m.applyWith sleepChecking op).1 (n.applyWith sleepChecking op).1 := by
  have hstart {m : LiveMap ν} (h : m.start.Sparing) : m.Sparing := by
    unfold Sparing at h
    rw [← call_start (m := m) (c := .start) rfl, delivered_call] at h
    unfold Sparing
    rwa [endsWorker_of_callback? (.inl (callback?_call m .start))] at h
  cases op with
  | call c => exact h.call c
  | settle => exact h.settle hm hn
  | sleep ms => exact (h.settle hm.of_ticks hn.of_ticks).ticks hm hn
  | stop => exact h.stop hm hn
  | stopTwice => exact h.leave.stop hm hn
  | restart => exact (h.stop (hstart hm) (hstart hn)).call .start
  | drop => exact h.leave

end Told

theorem bare_report (h : Matched m n) (op : Operation ν) :
    (m.reportWith sleepChecking op).1.bare = (n.reportWith sleepChecking op).1.bare := by
  have hafter := h.report.applyChecking op
  have hanswer : View.textless.answer ({ m with delivered := [] }.applyWith sleepChecking op).2 =
      View.textless.answer ({ n with delivered := [] }.applyWith sleepChecking op).2 := by
    cases op with
    | call c => exact h.report.toAlike.answer_call c
    | settle | sleep | stop | stopTwice | restart | drop => rfl
  unfold reportWith Report.bare
  cases op with
  | drop => simp only [hafter.clock, hanswer]
  | _ => simp only [hafter.clock, hanswer, hafter.table]

theorem bare_runChecking (h : Matched m n) (ops : List (Operation ν)) :
    (m.runChecking ops).map Report.bare = (n.runChecking ops).map Report.bare := by
  induction ops generalizing m n with
  | nil => rfl
  | cons op ops ih =>
    exact congrArg₂ List.cons (bare_report h op) (ih (h.report.applyChecking op))

theorem endsWorker_ticks (k : Nat) (m : LiveMap ν) : (m.ticks k).endsWorker = m.endsWorker := by
  induction k generalizing m with
  | zero => rfl
  | succ k ih => exact (ih m.tick).trans (endsWorker_settle _)

theorem endsWorker_applyChecking (m : LiveMap ν) (op : Operation ν) :
    (m.applyWith sleepChecking op).1.endsWorker = m.endsWorker := by
  have hcall (m : LiveMap ν) (c : Call ν) : (m.call c).1.endsWorker = m.endsWorker :=
    endsWorker_of_callback? (.inl (callback?_call m c))
  cases op with
  | call c => exact hcall m c
  | settle => exact endsWorker_settle m
  | sleep ms => exact (endsWorker_ticks ms m.settle).trans (endsWorker_settle m)
  | stop => exact endsWorker_settle m.leave
  | stopTwice => exact endsWorker_settle m.leave.leave
  | restart => exact (hcall m.stop .start).trans (endsWorker_settle m.leave)
  | drop => rfl

theorem told_runChecking (h : Told m n) {ops : List (Operation ν)}
    (hm : ∀ r ∈ m.runChecking ops, ∀ e ∈ r.events, m.endsWorker e.key = false)
    (hn : ∀ r ∈ n.runChecking ops, ∀ e ∈ r.events, n.endsWorker e.key = false) :
    List.Forall₂ (fun r r' => (r.events.map Event.told).Perm (r'.events.map Event.told))
      (m.runChecking ops) (n.runChecking ops) := by
  have hspare {m : LiveMap ν} {op : Operation ν}
      (hm : ∀ e ∈ (m.reportWith sleepChecking op).1.events, m.endsWorker e.key = false) :
      ({ m with delivered := [] }.applyWith sleepChecking op).1.Sparing := by
    intro e he
    rw [endsWorker_applyChecking]
    exact hm e ((listing_perm _ _).mem_iff.2 he)
  induction ops generalizing m n with
  | nil => exact .nil
  | cons op ops ih =>
    obtain ⟨hm₁, hm₂⟩ := List.forall_mem_cons.1 hm
    obtain ⟨hn₁, hn₂⟩ := List.forall_mem_cons.1 hn
    have hafter := h.report.applyChecking (hspare hm₁) (hspare hn₁)
    have hlist (m : LiveMap ν) : ((m.reportWith sleepChecking op).1.events.map Event.told).Perm
        (({ m with delivered := [] }.applyWith sleepChecking op).1.delivered.map Event.told) :=
      (listing_perm _ _).map Event.told
    refine .cons ((hlist m).trans (hafter.perm.trans (hlist n).symm)) (ih hafter ?_ ?_)
    · intro r hr e he
      have hends := endsWorker_applyChecking { m with delivered := [] } op
      exact (congrFun hends e.key).trans (hm₂ r hr e he)
    · intro r hr e he
      have hends := endsWorker_applyChecking { n with delivered := [] } op
      exact (congrFun hends e.key).trans (hn₂ r hr e he)

section

variable {settings settings' : Settings} {callback? callback?' : Option (Callback ν)}
  {hasRuntime hasRuntime' : Bool} (h : open? settings callback? hasRuntime = .ok m)
  (h' : open? settings' callback?' hasRuntime' = .ok n)

include h

theorem callback?_of_open? : m.callback? = callback? := by
  obtain ⟨-, -, -, rfl⟩ := open?_eq_ok_iff.1 h
  rfl

theorem quiet_of_open? (hc : ∀ c, callback? = some c → c.CallsNobody) : m.Quiet :=
  ⟨sound_of_open? h, steady_of_open? h, fun c hm => hc c (callback?_of_open? h ▸ hm)⟩

theorem attended_of_open? (hc : callback?.isSome) : m.Attended :=
  ⟨by rwa [callback?_of_open? h], staffed_of_open? h, idle_of_open? h⟩

include h'

theorem alike_of_open? : Alike m n := by
  obtain ⟨-, -, -, rfl⟩ := open?_eq_ok_iff.1 h
  obtain ⟨-, -, -, rfl⟩ := open?_eq_ok_iff.1 h'
  exact ⟨rfl, rfl, rfl⟩

/-- Whoever is told of expired entries, and whatever goes wrong with it, entries are taken out at
the same time and counted in the same way; and if there are callbacks, and no worker is lost, they
are told of the same entries in every step. -/
theorem expires_whoever_is_told (hc : ∀ c, callback? = some c → c.CallsNobody)
    (hc' : ∀ c, callback?' = some c → c.CallsNobody) (ops : List (Operation ν)) :
    (m.run ops).map Report.bare = (n.run ops).map Report.bare ∧
    (callback?.isSome → callback?'.isSome → m.SparesWorkers ops → n.SparesWorkers ops →
      List.Forall₂ (fun r r' => (r.events.map Event.told).Perm (r'.events.map Event.told))
        (m.run ops) (n.run ops)) := by
  have hm := quiet_of_open? h hc
  have hn := quiet_of_open? h' hc'
  have hmatched : Matched m n := ⟨alike_of_open? h h', hm, hn⟩
  unfold SparesWorkers
  rw [hm.sound.run_eq_runChecking, hn.sound.run_eq_runChecking]
  refine ⟨bare_runChecking hmatched ops, fun hsome hsome' hspare hspare' => ?_⟩
  have hdelivered : m.delivered = n.delivered := by
    obtain ⟨-, -, -, rfl⟩ := open?_eq_ok_iff.1 h
    obtain ⟨-, -, -, rfl⟩ := open?_eq_ok_iff.1 h'
    rfl
  exact told_runChecking ⟨hmatched, ⟨attended_of_open? h hsome, attended_of_open? h' hsome'⟩,
    by rw [hdelivered]⟩ hspare hspare'

end

/-- A map whose only worker is lost to the first entry. -/
def deserted : LiveMap Unit where
  settings := { workers := 1, queueCapacity := 1 }
  callback? := some { faults := { fatal := ["a"] } }
  sweepers := [{ outbox? := some { capacity := 1, workers := 1 } }]

def unwatched : LiveMap Unit where
  settings := {}
  sweepers := [{}]

/-- A map whose only worker survives the first entry, as the callback fails before it comes to
that. -/
def faltering : LiveMap Unit where
  settings := { workers := 1, queueCapacity := 1 }
  callback? := some { faults := { failing := ["a"], fatal := ["a"] } }
  sweepers := [{ outbox? := some { capacity := 1, workers := 1 } }]

def heeded : LiveMap Unit where
  settings := {}
  callback? := some {}
  sweepers := [{ outbox? := some { capacity := 1024, workers := 4 } }]

theorem expires_whoever_is_told_deserted :
    let ops := [.call (.putUntil "a" () (.due 0)), .call (.putUntil "b" () (.due 1)), .settle,
      .sleep 1]
    (deserted.run ops).map Report.bare = (unwatched.run ops).map Report.bare ∧
      List.Forall₂ (fun r r' => (r.events.map Event.told).Perm (r'.events.map Event.told))
        (faltering.run ops) (heeded.run ops) := by
  have hdeserted : open? { workers := 1, queueCapacity := 1 } deserted.callback? true =
    .ok deserted := rfl
  have hunwatched : open? {} none true = .ok unwatched := rfl
  have hfaltering : open? { workers := 1, queueCapacity := 1 } faltering.callback? true =
    .ok faltering := rfl
  have hheeded : open? {} heeded.callback? true = .ok heeded := rfl
  constructor
  · refine (expires_whoever_is_told hdeserted hunwatched (fun c hc => ?_) (fun c hc => ?_) _).1
    · cases hc
      exact ⟨by simp, fun _ _ => rfl⟩
    · cases hc
  · refine (expires_whoever_is_told hfaltering hheeded (fun c hc => ?_) (fun c hc => ?_) _).2
      rfl rfl (fun _ _ e _ => ?_) fun _ _ _ _ => rfl
    · cases hc
      exact ⟨by simp, fun _ _ => rfl⟩
    · cases hc
      exact ⟨by simp, fun _ _ => rfl⟩
    · exact Bool.and_not_self _

end LiveMap

end ExpiringMap
