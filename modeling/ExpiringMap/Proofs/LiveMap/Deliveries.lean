import ExpiringMap.Proofs.LiveMap.Journal
import Mathlib.Data.List.Perm.Subperm
import Mathlib.Data.List.SplitBy

namespace ExpiringMap

variable {ν : Type}

namespace LiveMap

variable {m : LiveMap ν} {mv : Move ν}

theorem taken_or_calls (m : LiveMap ν) (mv : Move ν) :
    (m.taken mv = (m.table.takeDue m.now).1 ∧ (m.move mv).table = (m.table.takeDue m.now).2) ∨
      (m.taken mv = [] ∧ (m.move mv).table =
        ((m.callsOf mv).filterMap (·.deed? m.now)).foldl Table.perform m.table) := by
  rw [table_move]
  cases mv with
  | turn t =>
    cases t with
    | look i =>
      cases hi : m.sweepers[i]? with
      | none => exact .inr (by simp [taken, deedsOf, callsOf, hi])
      | some s =>
        by_cases hs : (s.isLooking && !s.leaving) = true
        · refine .inl ⟨by simp only [taken, hi, hs, if_true], ?_⟩
          simp only [deedsOf, hi, Option.any_some, hs, if_true]
          rfl
        · exact .inr (by simp [taken, deedsOf, callsOf, hi, hs])
    | hand | work | release => exact .inr ⟨rfl, rfl⟩
  | call | wait | leave | prune | report => exact .inr ⟨rfl, rfl⟩

theorem Steady.of_mem_taken (h : m.Steady) {x : Expired ν} (hx : x ∈ m.taken mv) :
    m.table.get? x.key = some (x.value, .due x.due) ∧ x.due ≤ m.now ∧
      (m.move mv).table.get? x.key = none := by
  rcases m.taken_or_calls mv with ⟨htaken, htable⟩ | ⟨hnone, -⟩
  · have hd := h.consistent.takeDue m.now
    rw [htaken, hd.mem_iff] at hx
    refine ⟨hx.1, hx.2, ?_⟩
    rw [htable, hd.binds.get?_eq, hx.1]
    simpa [Option.filter, Deadline.hasPassed] using hx.2
  · rw [hnone] at hx
    cases hx

theorem expired_foldl_calls {t : Table ν} (h : t.Consistent) (now : Instant)
    (cs : List (Call ν)) :
    ((cs.filterMap (·.deed? now)).foldl Table.perform t).tally.expired = t.tally.expired := by
  induction cs generalizing t with
  | nil => rfl
  | cons c cs ih =>
    cases hc : c.deed? now with
    | none => rw [List.filterMap_cons_none hc]; exact ih h
    | some d =>
      -- Only to take out what is due expires anything, and no call does that.
      have hnone : d.expired t = [] := by
        cases c <;> cases hc <;> rfl
      have hexpired := (h.audited d).expired
      rw [hnone] at hexpired
      rw [List.filterMap_cons_some hc]
      exact (ih (h.perform d)).trans hexpired

theorem expired_move (h : m.table.Consistent) (mv : Move ν) :
    (m.move mv).table.tally.expired = m.table.tally.expired + (m.taken mv).length := by
  rcases m.taken_or_calls mv with ⟨htaken, htable⟩ | ⟨hnone, htable⟩
  · rw [htaken, htable]
    exact (h.audited (.command (.takeDue m.now))).expired
  · rw [hnone, htable]
    exact expired_foldl_calls h m.now _

theorem Steady.expired_follow (h : m.Steady) (mvs : List (Move ν)) :
    (m.follow mvs).table.tally.expired = m.table.tally.expired + (m.takenIn mvs).length := by
  induction mvs generalizing m with
  | nil => rfl
  | cons mv mvs ih =>
    have hmove := expired_move h.consistent mv
    have hrest := ih (h.move mv)
    rw [takenIn, List.length_append]
    change ((m.move mv).follow mvs).table.tally.expired = _
    omega

theorem Steady.inHand_of_isAtRest (h : m.Steady) (hr : m.isAtRest = true) {s : Sweeper ν}
    (hs : s ∈ m.sweepers) : s.inHand = [] := by
  obtain ⟨i, hi⟩ := List.mem_iff_getElem?.1 hs
  have hfit := h.fitted s hs
  have hqueued : s.queued = [] := by
    rcases Nat.eq_zero_or_pos s.workers with hw | hw
    · exact hfit.unmanned hw
    · have ht := take?_of_isAtRest hr hi
      cases ho : s.outbox? with
      | none => simp [Sweeper.queued, ho]
      | some o =>
        have hnone : o.take? = none := by simpa [Sweeper.take?, ho] using ht
        rw [Sweeper.workers_of_outbox? ho] at hw
        rw [Sweeper.queued_of_outbox? ho]
        exact (Outbox.take?_eq_none.1 hnone).resolve_left hw.ne'
  have hbatch : s.batch = [] := by
    cases hp : s.phase with
    | handing x rest => exact absurd hp (not_handing_of_isAtRest hr hi hfit.room x rest)
    | looking | waiting | done => simp [Sweeper.batch, hp]
  rw [Sweeper.inHand, hqueued, hbatch]
  rfl

/-- No sweeper has lost all its workers, at any point of a course of moves. -/
def Manned (m : LiveMap ν) (mvs : List (Move ν)) : Prop :=
  ∀ before rest, mvs = before ++ rest → ∀ s ∈ (m.follow before).sweepers, 0 < s.workers

theorem Manned.of_cons {mvs : List (Move ν)} (h : m.Manned (mv :: mvs)) :
    (∀ s ∈ m.sweepers, 0 < s.workers) ∧ (m.move mv).Manned mvs := by
  refine ⟨h [] (mv :: mvs) rfl, fun before rest he => ?_⟩
  exact h (mv :: before) rest (by rw [he]; rfl)

end LiveMap

namespace Journal

open LiveMap (Move)

variable {j : Journal ν} {m : LiveMap ν}

theorem Matches.closed_complete (h : j.Matches m) {mvs : List (Move ν)} (hmanned : m.Manned mvs)
    (hclosed : ∀ p ∈ j.closed, p.Complete) : ∀ p ∈ (j.follow m mvs).closed, p.Complete := by
  induction mvs generalizing j m with
  | nil => exact hclosed
  | cons mv mvs ih =>
    obtain ⟨hworkers, hrest⟩ := hmanned.of_cons
    apply ih (h.enter mv) hrest
    -- Pages are closed only when sweepers are forgotten, which are finished then.
    by_cases hne : mv = .prune
    · subst hne
      intro p hp
      rcases List.mem_append.1 hp with hp | hp
      · exact hclosed p hp
      · obtain ⟨⟨s, p⟩, hsp, rfl⟩ := List.mem_map.1 hp
        obtain ⟨hzip, hfinished⟩ := List.mem_filter.1 hsp
        obtain ⟨htells, hs⟩ := h.mem_zip hzip
        exact htells.complete (hworkers s hs) (Sweeper.inHand_of_isFinished hfinished)
    · rw [enter_of_ne_prune hne]
      exact hclosed

/-- At rest everything that was taken out has been delivered, if no worker was missing. -/
theorem Matches.complete (h : j.Matches m) (hr : m.isAtRest = true)
    (hworkers : ∀ s ∈ m.sweepers, 0 < s.workers) {p : Page ν} (hp : p ∈ j.pages) : p.Complete := by
  obtain ⟨i, hi⟩ := List.mem_iff_getElem?.1 hp
  have hlt : i < m.sweepers.length := h.length ▸ (List.getElem?_eq_some_iff.1 hi).1
  have hs : m.sweepers[i] ∈ m.sweepers := List.getElem_mem hlt
  exact (h.tells i _ p (List.getElem?_eq_getElem hlt) hi).complete (hworkers _ hs)
    (h.steady.inHand_of_isAtRest hr hs)

theorem flatMap_taken_eq {pages : List (Page ν)} (h : ∀ p ∈ pages, p.Complete) :
    pages.flatMap (·.taken) = (pages.flatMap (·.made)).map Event.item := by
  rw [List.map_flatMap]
  exact List.flatMap_congr h

end Journal

namespace LiveMap

variable {settings : Settings} {callback? : Option (Callback ν)} {hasRuntime : Bool}
  {m : LiveMap ν} {mv : Move ν}

theorem delivered_afterWork (m : LiveMap ν) (i : Nat) (x : Expired ν) :
    (m.afterWork i x).delivered = m.delivered ++ m.eventsFor x := by
  have hd : (m.deliver x).delivered = m.delivered ++ m.eventsFor x := by rw [deliver_eq]
  unfold afterWork
  split <;> exact hd

theorem delivered_move (hne : mv ≠ .report) :
    (m.move mv).delivered = m.delivered ++ m.made mv := by
  cases mv with
  | call c => exact (delivered_call m c).trans (List.append_nil _).symm
  | turn t =>
    rw [move]
    rcases m.turn_eq_self_or_turned t with ⟨ht, hm⟩ | ht
    · rw [hm, made_eq_nil ht, List.append_nil]
    · generalize m.turn t = m' at ht ⊢
      cases ht with
      | @work i s x s' hi hs =>
        rw [made_work hi hs]
        exact delivered_afterWork _ i x
      | hand | look | release => exact (List.append_nil _).symm
  | wait | leave | prune => exact (List.append_nil _).symm
  | report => exact absurd rfl hne

theorem delivered_follow {mvs : List (Move ν)} (h : ∀ mv ∈ mvs, mv ≠ .report) :
    (m.follow mvs).delivered = m.delivered ++ m.madeIn mvs := by
  induction mvs generalizing m with
  | nil => exact (List.append_nil _).symm
  | cons mv mvs ih =>
    rw [List.forall_mem_cons] at h
    have hrest := ih (m := m.move mv) h.2
    rw [delivered_move h.1, List.append_assoc] at hrest
    exact hrest

theorem madeIn_append (m : LiveMap ν) (mvs mvs' : List (Move ν)) :
    m.madeIn (mvs ++ mvs') = m.madeIn mvs ++ (m.follow mvs).madeIn mvs' := by
  induction mvs generalizing m with
  | nil => rfl
  | cons mv mvs ih =>
    rw [List.cons_append, madeIn, madeIn, ih, List.append_assoc]
    rfl

theorem Path.eq_follow {m' : LiveMap ν} {mvs : List (Move ν)} (h : Path m mvs m') :
    m' = m.follow mvs := by
  induction h with
  | nil => rfl
  | cons _ _ ih => exact ih

theorem ne_report_of_mem_settleMoves (h : mv ∈ m.settleMoves) : mv ≠ .report := by
  obtain ⟨t, -, rfl⟩ := List.mem_map.1 h
  simp

theorem ne_report_of_mem_advanceMoves {clock : Nat} (h : mv ∈ m.advanceMoves clock) :
    mv ≠ .report := by
  rcases List.mem_cons.1 h with rfl | h
  · simp
  · exact ne_report_of_mem_settleMoves h

theorem ne_report_of_mem_sleepMoves {target : Nat} (h : mv ∈ m.sleepMoves target) :
    mv ≠ .report := by
  fun_induction sleepMoves target m with
  | case1 m t _ _ ih => exact (List.mem_append.1 h).elim ne_report_of_mem_advanceMoves ih
  | case2 | case3 => exact ne_report_of_mem_advanceMoves h

theorem ne_report_of_mem_stopMoves (h : mv ∈ m.stopMoves) : mv ≠ .report := by
  simp only [stopMoves, List.cons_append, List.mem_cons, List.mem_append, List.not_mem_nil,
    or_false] at h
  rcases h with rfl | h | rfl
  · simp
  · exact ne_report_of_mem_settleMoves h
  · simp

theorem ne_report_of_mem_moves {op : Operation ν} (h : mv ∈ m.moves op) : mv ≠ .report := by
  cases op with
  | call c =>
    rw [List.mem_singleton.1 h]
    simp
  | settle => exact ne_report_of_mem_settleMoves h
  | sleep ms =>
    exact (List.mem_append.1 h).elim ne_report_of_mem_settleMoves ne_report_of_mem_sleepMoves
  | stop => exact ne_report_of_mem_stopMoves h
  | stopTwice =>
    rcases List.mem_cons.1 h with rfl | h
    · simp
    · exact ne_report_of_mem_stopMoves h
  | restart =>
    rcases List.mem_append.1 h with h | h
    · exact ne_report_of_mem_stopMoves h
    · rw [List.mem_singleton.1 h]
      simp
  | drop =>
    rw [List.mem_singleton.1 h]
    simp

theorem listing_perm (workers : Nat) (es : List (Event ν)) :
    (Event.listing workers es).Perm es := by
  unfold Event.listing
  split
  · have hruns := List.Perm.flatMap_left (es.splitBy Event.together)
      fun run _ => run.mergeSort_perm fun a b : Event ν => a.key ≤ b.key
    rw [List.flatMap_id', List.flatten_splitBy] at hruns
    exact hruns
  · exact es.mergeSort_perm _

/-- The reports of a run list the deliveries made in its course. -/
theorem Sound.events_run (h : m.Sound) (ops : List (Operation ν)) :
    ((m.run ops).flatMap (·.events)).Perm (m.madeIn (m.history ops)) := by
  induction ops generalizing m with
  | nil => exact .refl _
  | cons op ops ih =>
    have hclear := h.with_callback m.callback? []
    have hafter := (hclear.path_apply op).eq_follow
    have hevents : (m.report op).1.events.Perm
        (({ m with delivered := [] } : LiveMap ν).madeIn
          (({ m with delivered := [] } : LiveMap ν).moves op)) := by
      refine (listing_perm _ _).trans ?_
      rw [hafter, delivered_follow fun mv hmv => ne_report_of_mem_moves hmv]
      exact .refl _
    have hrest := ih (h.report op)
    have hnext : (m.report op).2 = ({ m with delivered := [] } : LiveMap ν).follow _ := hafter
    have hhistory : m.madeIn (m.history (op :: ops)) =
        ({ m with delivered := [] } : LiveMap ν).madeIn
          (({ m with delivered := [] } : LiveMap ν).moves op ++ (m.report op).2.history ops) := rfl
    rw [run, List.flatMap_cons, hhistory, madeIn_append, ← hnext]
    exact hevents.append hrest

/-- In this course of moves every entry that is taken out is delivered at most once. -/
structure DeliversOnce (m : LiveMap ν) (mvs : List (Move ν)) : Prop where
  /-- For each sweeper the deliveries are of the entries that it took out first, each once and in
  their order, with their keys and values. With several workers this is the order in which they
  take entries, as a worker takes one and runs its callback in one turn. -/
  ordered : ∀ p ∈ (Journal.ofMoves m mvs).all, p.Ordered
  taken_perm : ((Journal.ofMoves m mvs).all.flatMap (·.taken)).Perm (m.takenIn mvs)
  made_perm : ((Journal.ofMoves m mvs).all.flatMap (·.made)).Perm (m.madeIn mvs)
  /-- What is taken out is what the key is bound to at that moment, and is gone then. -/
  taken : ∀ before mv rest, mvs = before ++ mv :: rest → ∀ x ∈ (m.follow before).taken mv,
    (m.follow before).table.get? x.key = some (x.value, .due x.due) ∧
      x.due ≤ (m.follow before).now ∧ ((m.follow before).move mv).table.get? x.key = none
  made : ∀ before mv rest, mvs = before ++ mv :: rest → mv ≠ .report →
    ((m.follow before).move mv).delivered = (m.follow before).delivered ++ (m.follow before).made mv
  /-- At rest nothing is missing if no worker was. -/
  complete : m.Manned mvs → (m.follow mvs).isAtRest = true →
    (m.madeIn mvs).length = (m.follow mvs).table.statistics.expired

theorem idle_of_open? (h : open? settings callback? hasRuntime = .ok m) :
    ∀ s ∈ m.sweepers, s.inHand = [] := by
  obtain ⟨-, -, -, rfl⟩ := open?_eq_ok_iff.1 h
  intro s hs
  obtain rfl : s = _ := List.mem_singleton.1 hs
  exact inHand_newSweeper _

/-- However a map with a callback is set up, and whatever clients, sweepers and workers do in
whatever order, entries that are taken out are delivered once at most, as they were when they were
taken out, and nothing else is. The reports of a run list these deliveries. -/
theorem delivered_once {callback : Callback ν}
    (h : open? settings (some callback) hasRuntime = .ok m) :
    (∀ mvs, m.DeliversOnce mvs) ∧
      ∀ ops, m.after ops = m.follow (m.history ops) ∧
        ((m.run ops).flatMap (·.events)).Perm (m.madeIn (m.history ops)) := by
  have hsteady := steady_of_open? h
  have hsound := sound_of_open? h
  have hblank := Journal.matches_blank hsteady (idle_of_open? h)
  have hnone {β : Type} (g : Page ν → List β) (hg : g {} = []) :
      (Journal.blank m).all.flatMap g = [] := by
    rw [List.flatMap_eq_nil_iff]
    intro p hp
    obtain ⟨s, -, rfl⟩ := List.mem_map.1 hp
    exact hg
  refine ⟨fun mvs => ?_, fun ops => ⟨(hsound.path_history ops).eq_follow, hsound.events_run ops⟩⟩
  have hend := hblank.follow mvs
  obtain ⟨htaken, hmade⟩ := hblank.follow_perm mvs
  rw [hnone (·.taken) rfl, List.nil_append] at htaken
  rw [hnone (·.made) rfl, List.nil_append] at hmade
  refine ⟨fun p hp => hend.ordered hp, htaken, hmade, fun before mv rest _ x hx => ?_,
    fun before mv rest _ hne => delivered_move hne, fun hmanned hr => ?_⟩
  · exact (hsteady.follow before).of_mem_taken hx
  · have hworkers := hmanned mvs [] (List.append_nil _).symm
    have hclosed := hblank.closed_complete hmanned (by simp [Journal.blank])
    have hcomplete (p : Page ν) (hp : p ∈ (Journal.ofMoves m mvs).all) : p.Complete :=
      (Journal.mem_all.1 hp).elim (hclosed p) (hend.complete hr hworkers)
    have hlength := congrArg List.length (Journal.flatMap_taken_eq hcomplete)
    have hexpired := hsteady.expired_follow mvs
    have hstart : m.table.tally.expired = 0 := by rw [table_of_open? h]
    rw [List.length_map] at hlength
    rw [← hmade.length_eq, Table.statistics, hexpired, hstart, Nat.zero_add, ← htaken.length_eq]
    exact hlength.symm

/-- Puts one key in again, already due, and then fails. -/
def relapse : Callback Unit where
  scripts := [("a", [.putUntil "a" () (.due 0)])]
  faults := { failing := ["a"] }

def relapsing : LiveMap Unit where
  settings := { workers := 1 }
  callback? := some relapse
  sweepers := [{ outbox? := some { capacity := 1024, workers := 1 } }]

/-- One round of sweeping, in which a client removes an entry that has been taken out already. -/
def lateRemoval : List (Move Unit) :=
  [.call (.putUntil "a" () (.due 0)), .call (.putUntil "b" () (.due 0)), .turn (.look 0),
    .call (.erase "b"), .turn (.hand 0), .turn (.work 0), .turn (.hand 0), .turn (.look 0),
    .turn (.work 0)]

theorem delivered_once_relapsing :
    open? { workers := 1 } (some relapse) true = .ok relapsing ∧
      relapsing.DeliversOnce lateRemoval ∧
      (relapsing.madeIn lateRemoval).map Event.item = [⟨"a", (), 0⟩, ⟨"b", (), 0⟩] := by
  have hopen : open? { workers := 1 } (some relapse) true = .ok relapsing := rfl
  exact ⟨hopen, (delivered_once hopen).1 lateRemoval, by decide +kernel⟩

end LiveMap

end ExpiringMap
