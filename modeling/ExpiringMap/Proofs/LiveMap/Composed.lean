import ExpiringMap.Proofs.LiveMap.Lone

namespace ExpiringMap.LiveMap

variable {ν : Type} {settings : Settings} {callback? : Option (Callback ν)} {hasRuntime : Bool}
  {m n : LiveMap ν} {s s' : Sweeper ν}

/-- Nobody is leaving. -/
def Stays (m : LiveMap ν) : Prop := ∀ s ∈ m.sweepers, s.leaving = false

def Idle (m : LiveMap ν) : Prop := ∀ s ∈ m.sweepers, s.inHand = []

theorem eq_newSweeper_of_mem_call {c : Call ν} (hs : s ∈ (m.call c).1.sweepers) :
    s ∈ m.sweepers ∨ s = m.newSweeper := by
  obtain ⟨ss, hss, hnew, -⟩ := sweepers_call m c
  rw [hss] at hs
  exact (List.mem_append.1 hs).imp_right (hnew s)

theorem Stays.call (h : m.Stays) (c : Call ν) : (m.call c).1.Stays := by
  intro s hs
  rcases eq_newSweeper_of_mem_call hs with hs | rfl
  · exact h s hs
  · rfl

theorem Idle.call (h : m.Idle) (c : Call ν) : (m.call c).1.Idle := by
  intro s hs
  rcases eq_newSweeper_of_mem_call hs with hs | rfl
  · exact h s hs
  · exact m.inHand_newSweeper

theorem Stays.of_set {i : Nat} {ss : List (Sweeper ν)} (h : m.Stays)
    (hn : n.sweepers = m.sweepers.set i s' ++ ss) (hi : m.sweepers[i]? = some s)
    (hl : s'.leaving = s.leaving) (hss : ∀ s ∈ ss, s = m.newSweeper) : n.Stays := by
  intro s₁ hs₁
  rw [hn, List.mem_append] at hs₁
  rcases hs₁ with hs₁ | hs₁
  · rcases List.mem_or_eq_of_mem_set hs₁ with hs₁ | rfl
    · exact h s₁ hs₁
    · exact hl.trans (h s (List.mem_of_getElem? hi))
  · rw [hss s₁ hs₁]
    rfl

theorem Stays.turned {t : Turn} (h : m.Stays) (ht : m.Turned t n) : n.Stays := by
  cases ht with
  | hand hi hs => exact h.of_set (List.append_nil _).symm hi (Sweeper.leaving_hand? hs) (by simp)
  | look hi hs => exact h.of_set (List.append_nil _).symm hi (Sweeper.leaving_look? hs) (by simp)
  | release hi hs =>
    exact h.of_set (List.append_nil _).symm hi (Sweeper.leaving_release? hs) (by simp)
  | @work i s x s' hi hs =>
    obtain ⟨s₂, ss, hss, hs₂, hnew, -⟩ := sweepers_work hi s' x
    have hl : s₂.leaving = s.leaving := by
      rw [← Sweeper.leaving_take? hs]
      rcases hs₂ with rfl | rfl <;> rfl
    exact h.of_set hss hi hl hnew

theorem Hushed.call (h : m.Hushed) (c : Call ν) : (m.call c).1.Hushed := by
  have hnow : (m.call c).1.now = m.now := by rw [now, now, clock_call]
  intro s hs a hp
  rw [hnow]
  rcases eq_newSweeper_of_mem_call hs with hs | rfl
  · exact h s hs a hp
  · cases hp

theorem Stays.settle (h : m.Stays) : m.settle.Stays :=
  settle_induct (fun _ _ hm ho => hm.turned ho.turned) h

theorem Stays.sleepUntil (h : m.Stays) (target : Nat) : (m.sleepUntil target).Stays := by
  fun_induction LiveMap.sleepUntil target m with
  | case1 m t _ _ ih => exact ih (settle (m := { m with clock := t }) h)
  | case2 m => exact settle (m := { m with clock := target }) h
  | case3 m => exact settle (m := { m with clock := target }) h

theorem Steady.stays_stop (h : m.Steady) : m.stop.Stays := by
  intro s hs
  obtain ⟨hmem, hnot⟩ := List.mem_filter.1 hs
  rw [Bool.eq_false_iff]
  intro hl
  have hrest := (h.move .leave).isAtRest_settle
  rw [(h.move .leave).settle.isFinished_of_isAtRest hrest hmem hl] at hnot
  cases hnot

theorem Steady.idle_stop (h : m.Steady) : m.stop.Idle := fun _ hs =>
  (h.move .leave).settle.inHand_of_isAtRest (h.move .leave).isAtRest_settle (List.mem_filter.1 hs).1

theorem Stays.apply (h : m.Stays) (hs : m.Steady) {op : Operation ν} (hop : op ≠ .drop) :
    (m.apply op).1.Stays := by
  cases op with
  | call c => exact h.call c
  | settle => exact h.settle
  | sleep ms => exact h.settle.sleepUntil _
  | stop => exact hs.stays_stop
  | stopTwice => exact (hs.move .leave).stays_stop
  | restart => exact hs.stays_stop.call .start
  | drop => exact absurd rfl hop

theorem Sound.hushed_stop (h : m.Sound) : m.stop.Hushed := fun s hs =>
  hushed_of_isAtRest h.leave.isAtRest_settle s (List.mem_filter.1 hs).1

/-- A map between two operations, as long as no worker is lost. -/
structure Composed (m : LiveMap ν) : Prop where
  sound : m.Sound
  steady : m.Steady
  staffed : m.Staffed
  stays : m.Stays
  idle : m.Idle
  hushed : m.Hushed

namespace Composed

theorem apply (h : m.Composed) {op : Operation ν} (hop : op ≠ .drop)
    (hspare : ∀ e ∈ m.madeIn (m.moves op), m.endsWorker e.key = false) :
    (m.apply op).1.Composed := by
  have hpath := (h.sound.path_apply op).eq_follow
  have hsteady : (m.apply op).1.Steady := by
    rw [hpath]
    exact h.steady.follow _
  have hstaffed : (m.apply op).1.Staffed := by
    rw [hpath]
    exact h.staffed.follow hspare
  refine ⟨h.sound.apply op, hsteady, hstaffed, h.stays.apply h.steady hop, ?_, ?_⟩
  · cases op with
    | call c => exact h.idle.call c
    | settle => exact fun s hs => hsteady.inHand_of_isAtRest h.sound.isAtRest_settle hs
    | sleep ms =>
      exact fun s hs => hsteady.inHand_of_isAtRest (h.sound.settle.isAtRest_sleepUntil _) hs
    | stop => exact h.steady.idle_stop
    | stopTwice => exact (h.steady.move .leave).idle_stop
    | restart => exact h.steady.idle_stop.call .start
    | drop => exact absurd rfl hop
  · cases op with
    | call c => exact h.hushed.call c
    | settle => exact hushed_of_isAtRest h.sound.isAtRest_settle
    | sleep ms => exact hushed_of_isAtRest (h.sound.settle.isAtRest_sleepUntil _)
    | stop => exact h.sound.hushed_stop
    | stopTwice => exact h.sound.leave.hushed_stop
    | restart => exact h.sound.hushed_stop.call .start
    | drop => exact absurd rfl hop

theorem report (h : m.Composed) : { m with delivered := [] }.Composed :=
  ⟨h.sound.with_callback m.callback? [], h.steady.move .report, h.staffed, h.stays, h.idle,
    h.hushed⟩

theorem sweeper (h : m.Composed) (hs : s ∈ m.sweepers) :
    (s.phase = .looking ∨ ∃ alarm?, s.phase = .waiting alarm?) ∧
      s.outbox? = m.newSweeper.outbox? := by
  obtain ⟨hqueued, hbatch⟩ := List.append_eq_nil_iff.1 (h.idle s hs)
  constructor
  · cases hp : s.phase with
    | looking => exact .inl rfl
    | waiting alarm? => exact .inr ⟨alarm?, rfl⟩
    | handing x rest => simp [Sweeper.batch, hp] at hbatch
    | done => exact absurd hp ((h.sound.fit s hs).present (h.stays s hs))
  · rw [← h.staffed s hs]
    cases ho : s.outbox? with
    | none => rfl
    | some o =>
      rw [Sweeper.queued_of_outbox? ho] at hqueued
      simp [Outbox.emptied, ← hqueued]

theorem exists_lone (h : m.Composed) (hr : m.isRunning = true) : ∃ s, m.Lone s := by
  obtain ⟨i, s, hi, hl⟩ := exists_of_isRunning hr
  have hmem := List.mem_of_getElem? hi
  have halone : m.sweepers = [s] := by
    have hone := List.pairwise_map.1 h.sound.one
    match hss : m.sweepers with
    | [] => simp [hss] at hmem
    | [s₁] =>
      rw [hss, List.mem_singleton] at hmem
      rw [hmem]
    | s₁ :: s₂ :: ss =>
      rw [hss] at hone
      have h₁ := h.stays s₁ (by simp [hss])
      have h₂ := h.stays s₂ (by simp [hss])
      have hpair := (List.pairwise_cons.1 hone).1 s₂ (by simp)
      simp [h₁, h₂] at hpair
  exact ⟨s, h.sound, h.staffed, halone, hl⟩

end Composed

/-- All sweepers are to leave and have nothing in hand; otherwise the map is as `m`. -/
def Emptying (m n : LiveMap ν) : Prop :=
  n = { m with sweepers := n.sweepers } ∧ ∀ s ∈ n.sweepers, s.leaving = true ∧ s.inHand = []

theorem Emptying.turn {t : Turn} (h : m.Emptying n) (ho : n.Orderly t) : m.Emptying (n.turn t) := by
  obtain ⟨hn, hss⟩ := h
  have hleft {i : Nat} {s : Sweeper ν} (hi : n.sweepers[i]? = some s) :
      m.Emptying (n.setSweeper i { s with phase := .done }) := by
    refine ⟨by rw [setSweeper, hn], fun s₁ hs₁ => ?_⟩
    rcases List.mem_or_eq_of_mem_set hs₁ with hs₁ | rfl
    · exact hss s₁ hs₁
    · obtain ⟨hl, hhand⟩ := hss s (List.mem_of_getElem? hi)
      exact ⟨hl, List.append_eq_nil_iff.2 ⟨(List.append_eq_nil_iff.1 hhand).1, rfl⟩⟩
  have ht := ho.turned
  generalize n.turn t = n' at ht ⊢
  cases ht with
  | hand hi hs =>
    obtain ⟨x, rest, hp, -⟩ := Sweeper.hand?_cases hs
    have hhand := (hss _ (List.mem_of_getElem? hi)).2
    simp [Sweeper.inHand, Sweeper.batch, hp] at hhand
  | work hi hs =>
    obtain ⟨o, xs, hout, -, hq, -⟩ := Sweeper.take?_cases hs
    have hhand := (hss _ (List.mem_of_getElem? hi)).2
    simp [Sweeper.inHand, Sweeper.queued_of_outbox? hout, hq] at hhand
  | look hi hs =>
    obtain ⟨-, hs⟩ := Sweeper.look?_cases hs
    have hl := (hss _ (List.mem_of_getElem? hi)).1
    cases hs with
    | leaves => exact hleft hi
    | waits hstays | drops hstays | hands hstays => simp [hl] at hstays
  | @release i r s w s' hi hs =>
    obtain ⟨alarm?, hp, hs⟩ := Sweeper.release?_cases hs
    have hl := (hss _ (List.mem_of_getElem? hi)).1
    obtain rfl := ho.eq_leave (canTake_leave hi hp hl)
    obtain ⟨-, rfl, rfl⟩ := hs
    exact hleft hi

/-- To stop a map that has nothing in hand takes away its sweepers and nothing else. -/
theorem Composed.stop_eq (h : m.Composed) : m.stop = { m with sweepers := [] } := by
  have hleave : m.Emptying m.leave := by
    refine ⟨rfl, fun s hs => ?_⟩
    obtain ⟨s, hmem, rfl⟩ := List.mem_map.1 hs
    exact ⟨rfl, h.idle s hmem⟩
  obtain ⟨hsettled, hss⟩ := settle_induct (P := m.Emptying) (fun _ _ hn ho => hn.turn ho) hleave
  have hleft : m.stop.sweepers = [] := by
    rw [stop, prune, List.filter_eq_nil_iff]
    intro s hs
    have hfinished := (h.steady.move .leave).settle.isFinished_of_isAtRest
      (h.steady.move .leave).isAtRest_settle hs (hss s hs).1
    simp [hfinished]
  have hstop : m.stop = { m with sweepers := m.stop.sweepers } := by
    rw [stop, prune]
    exact congrArg (fun n : LiveMap ν =>
      { n with sweepers := m.leave.settle.sweepers.filter (!·.isFinished) }) hsettled
  rw [hleft] at hstop
  exact hstop

/-- The map with a new sweeper in place of the old. -/
def fresh (m : LiveMap ν) : LiveMap ν := { m with sweepers := [m.newSweeper] }

theorem Composed.start_stop (h : m.Composed) : m.stop.start = m.fresh := by
  rw [h.stop_eq]
  rfl

theorem Composed.fresh (h : m.Composed) : m.fresh.Composed where
  sound := by
    rw [← h.start_stop]
    exact h.sound.apply .restart
  steady := by
    rw [← h.start_stop]
    exact h.steady.stop.move (.call .start)
  staffed s hs := by
    rw [List.mem_singleton.1 hs]
    exact m.emptied_newSweeper
  stays s hs := by
    rw [List.mem_singleton.1 hs]
    rfl
  idle s hs := by
    rw [List.mem_singleton.1 hs]
    exact m.inHand_newSweeper
  hushed s hs a hp := by
    rw [List.mem_singleton.1 hs] at hp
    cases hp

section

variable (h : open? settings callback? hasRuntime = .ok m)

include h

theorem stays_of_open? : m.Stays := by
  obtain ⟨-, -, -, rfl⟩ := open?_eq_ok_iff.1 h
  intro s hs
  obtain rfl : s = _ := List.mem_singleton.1 hs
  rfl

theorem composed_of_open? : m.Composed := by
  refine ⟨sound_of_open? h, steady_of_open? h, staffed_of_open? h, stays_of_open? h,
    idle_of_open? h, ?_⟩
  obtain ⟨-, -, -, rfl⟩ := open?_eq_ok_iff.1 h
  intro s hs a hp
  obtain rfl : s = _ := List.mem_singleton.1 hs
  cases hp

end

end ExpiringMap.LiveMap
