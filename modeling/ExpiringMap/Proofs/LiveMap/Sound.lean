import ExpiringMap.LiveMap.Operation
import ExpiringMap.Proofs.LiveMap.Calls
import ExpiringMap.Proofs.LiveMap.Turns

/-!
What holds of a map throughout a run: its table is consistent, there is room in every outbox, at
most one sweeper has not been told to leave, and if that one waits it will look in time.
-/

namespace ExpiringMap

variable {ν : Type}

structure Sweeper.Fit (w : Watched ν) (s : Sweeper ν) : Prop where
  room : ∀ o, s.outbox? = some o → 0 < o.capacity
  present : s.leaving = false → s.phase ≠ .done
  awake : s.leaving = false → ∀ alarm?, s.phase = .waiting alarm? → w.Alert alarm?

namespace LiveMap

structure Sound (m : LiveMap ν) : Prop where
  idlePoll_pos : 0 < m.settings.idlePoll
  capacity_pos : 0 < m.settings.queueCapacity
  consistent : m.table.Consistent
  fit : ∀ s ∈ m.sweepers, s.Fit m.watched
  /-- Of any two sweepers one is leaving. -/
  one : (m.sweepers.map (·.leaving)).Pairwise fun a b => a = true ∨ b = true

variable {m : LiveMap ν}

theorem isRunning_eq (m : LiveMap ν) : m.isRunning = (m.sweepers.map (·.leaving)).any (!·) := by
  rw [isRunning, List.any_map]
  rfl

theorem exists_of_isRunning (h : m.isRunning = true) :
    ∃ (i : Nat) (s : Sweeper ν), m.sweepers[i]? = some s ∧ s.leaving = false := by
  obtain ⟨s, hs, hl⟩ := List.any_eq_true.1 h
  obtain ⟨i, hi⟩ := List.mem_iff_getElem?.1 hs
  exact ⟨i, s, hi, by simpa using hl⟩

theorem isRunning_of_getElem? {i : Nat} {s : Sweeper ν} (hi : m.sweepers[i]? = some s)
    (hl : s.leaving = false) : m.isRunning = true :=
  List.any_eq_true.2 ⟨s, List.mem_of_getElem? hi, by simp [hl]⟩

namespace Sound

theorem unique (h : m.Sound) {i j : Nat} {s s' : Sweeper ν} (hi : m.sweepers[i]? = some s)
    (hj : m.sweepers[j]? = some s') (hs : s.leaving = false) (hs' : s'.leaving = false) :
    i = j := by
  have hone := List.pairwise_iff_getElem.1 (List.pairwise_map.1 h.one)
  obtain ⟨hin, hi⟩ := List.getElem?_eq_some_iff.1 hi
  obtain ⟨hjn, hj⟩ := List.getElem?_eq_some_iff.1 hj
  rcases Nat.lt_trichotomy i j with hlt | heq | hgt
  · have := hone i j hin hjn hlt
    rw [hi, hj, hs, hs'] at this
    simp at this
  · exact heq
  · have := hone j i hjn hin hgt
    rw [hi, hj, hs, hs'] at this
    simp at this

end Sound

theorem canTake_leave {i : Nat} {s : Sweeper ν} {alarm? : Option Instant}
    (hi : m.sweepers[i]? = some s) (hp : s.phase = .waiting alarm?) (hl : s.leaving = true) :
    m.canTake (.release i .leave) = true := by
  simp [canTake, turn?, hi, Sweeper.release?, hp, hl]

/-- Whether a turn leaves the wake permit to the sweeper that stays, if there is one. -/
def Courteous (m : LiveMap ν) (t : Turn) : Prop :=
  ∀ i s, t = .release i .wake → m.sweepers[i]? = some s → m.isRunning = true → s.leaving = false

theorem phase_of_canTake_release {i : Nat} {r : Release} {s : Sweeper ν}
    (hi : m.sweepers[i]? = some s) (ht : m.canTake (.release i r) = true) :
    ∃ alarm?, s.phase = .waiting alarm? := by
  rw [canTake, turn?_release, hi, Option.isSome_map, Option.bind_some] at ht
  obtain ⟨⟨w, s'⟩, hr⟩ := Option.isSome_iff_exists.1 ht
  obtain ⟨alarm?, hp, -⟩ := Sweeper.release?_cases hr
  exact ⟨alarm?, hp⟩

theorem Orderly.courteous {t : Turn} (h : m.Orderly t) : m.Courteous t := by
  rintro i s rfl hi -
  obtain ⟨alarm?, hp⟩ := phase_of_canTake_release hi h.canTake
  cases hl : s.leaving with
  | true => cases h.eq_leave (canTake_leave hi hp hl)
  | false => rfl

theorem map_set_eq_map {α β : Type} {f : α → β} {xs : List α} {i : Nat} {a a' : α}
    (hi : xs[i]? = some a) (h : f a' = f a) : (xs.set i a').map f = xs.map f := by
  rw [List.map_set, h]
  apply List.ext_getElem?
  intro j
  rw [List.getElem?_set]
  split
  · next hij =>
    subst hij
    obtain ⟨hlt, hi⟩ := List.getElem?_eq_some_iff.1 hi
    simp [hlt, hi]
  · rfl

theorem map_leaving_loseWorker (m : LiveMap ν) (i : Nat) :
    (m.loseWorker i).sweepers.map (·.leaving) = m.sweepers.map (·.leaving) := by
  apply List.ext_getElem?
  intro j
  rw [loseWorker, List.getElem?_map, List.getElem?_map, List.getElem?_modify,
    Option.map_eq_map, Option.map_map]
  congr 1
  funext s
  rw [Function.comp_apply]
  split
  · rfl
  · rfl

namespace Sound

/-- One sweeper takes a turn, and no alarm of another that stays is missed for it. -/
theorem set (h : m.Sound) {i : Nat} {s s' : Sweeper ν} {w : Watched ν}
    (hi : m.sweepers[i]? = some s) (hl : s'.leaving = s.leaving) (hc : w.table.Consistent)
    (hfit : s'.Fit w)
    (hw : ∀ j sj, j ≠ i → m.sweepers[j]? = some sj → sj.leaving = false →
      ∀ alarm?, m.watched.Alert alarm? → w.Alert alarm?) :
    ({ m with watched := w }.setSweeper i s').Sound where
  idlePoll_pos := h.idlePoll_pos
  capacity_pos := h.capacity_pos
  consistent := hc
  fit sj hj := by
    obtain ⟨j, hj⟩ := List.mem_iff_getElem?.1 hj
    simp only [setSweeper, List.getElem?_set] at hj
    split at hj
    · split at hj
      · cases hj
        exact hfit
      · cases hj
    · next hij =>
      have hf := h.fit sj (List.mem_of_getElem? hj)
      exact ⟨hf.room, hf.present, fun hsj alarm? ha =>
        hw j sj (Ne.symm hij) hj hsj alarm? (hf.awake hsj alarm? ha)⟩
  one := by
    rw [setSweeper, map_set_eq_map hi hl]
    exact h.one

theorem watch (h : m.Sound) {w : Watched ν} (hc : w.table.Consistent)
    (ha : ∀ alarm?, m.watched.Alert alarm? → w.Alert alarm?) : { m with watched := w }.Sound where
  idlePoll_pos := h.idlePoll_pos
  capacity_pos := h.capacity_pos
  consistent := hc
  fit s hs := by
    have hf := h.fit s hs
    exact ⟨hf.room, hf.present, fun hl alarm? hp => ha alarm? (hf.awake hl alarm? hp)⟩
  one := h.one

theorem start (h : m.Sound) : m.start.Sound := by
  unfold LiveMap.start
  split
  · exact h
  · next hr =>
    rw [Bool.not_eq_true, isRunning_eq, List.any_eq_false] at hr
    refine ⟨h.idlePoll_pos, h.capacity_pos, h.consistent, ?_, ?_⟩
    · intro s hs
      rcases List.mem_append.1 hs with hs | hs
      · exact h.fit s hs
      · rw [List.mem_singleton.1 hs]
        refine ⟨fun o ho => ?_, by simp [newSweeper], by simp [newSweeper]⟩
        obtain ⟨_, -, rfl⟩ := Option.map_eq_some_iff.1 ho
        exact h.capacity_pos
    · rw [List.map_append, List.pairwise_append]
      refine ⟨h.one, List.pairwise_singleton _ _, fun a ha b _ => .inl ?_⟩
      simpa using hr a ha

theorem call (h : m.Sound) (c : Call ν) : (m.call c).1.Sound := by
  cases hs : c.isStart with
  | true =>
    rw [call_start hs]
    exact h.start
  | false =>
    rw [call_make hs]
    have hc := Watched.changes_make h.consistent m.now c
    exact h.watch hc.consistent hc.alert

theorem callAll (h : m.Sound) (cs : List (Call ν)) : (m.callAll cs).1.Sound := by
  induction cs generalizing m with
  | nil => exact h
  | cons c cs ih => exact ih (h.call c)

theorem with_callback (h : m.Sound) (callback? : Option (Callback ν))
    (delivered : List (Event ν)) : { m with callback?, delivered }.Sound :=
  ⟨h.idlePoll_pos, h.capacity_pos, h.consistent, h.fit, h.one⟩

theorem deliver (h : m.Sound) (x : Expired ν) : (m.deliver x).Sound := by
  rw [deliver_eq]
  have hcalls := (h.with_callback (m.spend x.key).callback? m.delivered).callAll (m.callsFor x)
  exact hcalls.with_callback _ _

theorem loseWorker (h : m.Sound) (i : Nat) : (m.loseWorker i).Sound where
  idlePoll_pos := h.idlePoll_pos
  capacity_pos := h.capacity_pos
  consistent := h.consistent
  fit s hs := by
    obtain ⟨j, hj⟩ := List.mem_iff_getElem?.1 hs
    rw [LiveMap.loseWorker, List.getElem?_modify] at hj
    obtain ⟨s₀, hs₀, rfl⟩ := Option.map_eq_some_iff.1 hj
    have hf := h.fit s₀ (List.mem_of_getElem? hs₀)
    split
    · refine ⟨fun o ho => ?_, hf.present, hf.awake⟩
      obtain ⟨o₀, ho₀, rfl⟩ := Option.map_eq_some_iff.1 ho
      exact hf.room o₀ ho₀
    · exact hf
  one := by
    rw [map_leaving_loseWorker]
    exact h.one

theorem afterWork (h : m.Sound) (i : Nat) (x : Expired ν) : (m.afterWork i x).Sound := by
  unfold LiveMap.afterWork
  split
  · exact (h.deliver x).loseWorker i
  · exact h.deliver x

theorem hand (h : m.Sound) {i : Nat} {s s' : Sweeper ν} (hi : m.sweepers[i]? = some s)
    (hh : s.hand? = some s') : (m.setSweeper i s').Sound := by
  have hf := h.fit s (List.mem_of_getElem? hi)
  have hl := Sweeper.leaving_hand? hh
  obtain ⟨x, rest, -, hh⟩ := Sweeper.hand?_cases hh
  have hfit : s'.Fit m.watched := by
    cases hh with
    | @accepted o ho hw hroom =>
      refine ⟨fun o' ho' => ?_, fun _ => Phase.ofItems_ne_done rest,
        fun _ alarm? hp => absurd hp (Phase.ofItems_ne_waiting rest alarm?)⟩
      cases ho'
      exact hf.room o ho
    | lost => exact ⟨by simp, by simp, by simp⟩
  exact h.set hi hl h.consistent hfit fun _ _ _ _ _ _ ha => ha

theorem look (h : m.Sound) {i : Nat} {s s' : Sweeper ν} {w : Watched ν}
    (hi : m.sweepers[i]? = some s)
    (hl : s.look? m.now m.settings.idlePoll m.watched = some (w, s')) :
    ({ m with watched := w }.setSweeper i s').Sound := by
  have hf := h.fit s (List.mem_of_getElem? hi)
  have hd := h.consistent.takeDue m.now
  have hw (alarm? : Option Instant) (ha : m.watched.Alert alarm?) :
      ({ m.watched with table := (m.table.takeDue m.now).2 } : Watched ν).Alert alarm? :=
    ha.imp_left fun hg => hg.takeDue h.consistent m.now
  obtain ⟨hp, hl⟩ := Sweeper.look?_cases hl
  cases hl with
  | leaves hlv =>
    exact h.set hi rfl h.consistent ⟨hf.room, by simp [hlv], by simp⟩ fun _ _ _ _ _ _ ha => ha
  | waits hlv hdue =>
    refine h.set hi rfl h.consistent ⟨hf.room, by simp, fun _ alarm? ha => .inl ?_⟩
      fun _ _ _ _ _ _ ha => ha
    cases ha
    exact h.consistent.guards_nextDue? _
  | drops hlv hdue ho =>
    exact h.set hi rfl hd.binds.consistent ⟨hf.room, by simp [hp], by simp [hp]⟩
      fun _ _ _ _ _ alarm? ha => hw alarm? ha
  | hands hlv hdue ho =>
    exact h.set hi rfl hd.binds.consistent ⟨hf.room, by simp, by simp⟩
      fun _ _ _ _ _ alarm? ha => hw alarm? ha

/-- The one permit goes to the one sweeper that stays. -/
theorem release (h : m.Sound) {i : Nat} {r : Release} {s s' : Sweeper ν} {w : Watched ν}
    (hc : m.Courteous (.release i r)) (hi : m.sweepers[i]? = some s)
    (hr : s.release? m.now m.watched r = some (w, s')) :
    ({ m with watched := w }.setSweeper i s').Sound := by
  have hf := h.fit s (List.mem_of_getElem? hi)
  obtain ⟨alarm?, hp, hr⟩ := Sweeper.release?_cases hr
  cases r with
  | leave =>
    obtain ⟨hl, rfl, rfl⟩ := hr
    exact h.set hi rfl h.consistent ⟨hf.room, by simp [hl], by simp⟩ fun _ _ _ _ _ _ ha => ha
  | wake =>
    obtain ⟨-, rfl, rfl⟩ := hr
    refine h.set hi rfl h.consistent ⟨hf.room, by simp, by simp⟩ ?_
    intro j sj hji hj hsj
    exact absurd (h.unique hj hi hsj (hc i s rfl hi (isRunning_of_getElem? hj hsj))) hji
  | timer =>
    obtain ⟨t, -, -, rfl, rfl⟩ := hr
    exact h.set hi rfl h.consistent ⟨hf.room, by simp, by simp⟩ fun _ _ _ _ _ _ ha => ha

theorem take (h : m.Sound) {i : Nat} {s s' : Sweeper ν} {x : Expired ν}
    (hi : m.sweepers[i]? = some s) (ht : s.take? = some (x, s')) : (m.setSweeper i s').Sound := by
  have hf := h.fit s (List.mem_of_getElem? hi)
  obtain ⟨o, xs, ho, -, -, rfl⟩ := Sweeper.take?_cases ht
  refine h.set (w := m.watched) hi rfl h.consistent ⟨fun o' ho' => ?_, hf.present, hf.awake⟩
    fun _ _ _ _ _ _ ha => ha
  cases ho'
  exact hf.room o ho

theorem work (h : m.Sound) {i : Nat} {s s' : Sweeper ν} {x : Expired ν}
    (hi : m.sweepers[i]? = some s) (ht : s.take? = some (x, s')) :
    ((m.setSweeper i s').afterWork i x).Sound :=
  (h.take hi ht).afterWork i x

theorem turned (h : m.Sound) {t : Turn} {m' : LiveMap ν} (hc : m.Courteous t)
    (ht : m.Turned t m') : m'.Sound := by
  cases ht with
  | hand hi hs => exact h.hand hi hs
  | work hi hs => exact h.work hi hs
  | look hi hs => exact h.look hi hs
  | release hi hs => exact h.release hc hi hs

theorem turn (h : m.Sound) {t : Turn} (ho : m.Orderly t) : (m.turn t).Sound :=
  h.turned ho.courteous ho.turned

theorem settle (h : m.Sound) : m.settle.Sound := settle_induct (fun _ _ hm ho => hm.turn ho) h

theorem leave (h : m.Sound) : m.leave.Sound where
  idlePoll_pos := h.idlePoll_pos
  capacity_pos := h.capacity_pos
  consistent := h.consistent
  fit s hs := by
    obtain ⟨s₀, hs₀, rfl⟩ := List.mem_map.1 hs
    exact ⟨(h.fit s₀ hs₀).room, by simp [Sweeper.leave], by simp [Sweeper.leave]⟩
  one := by simp [LiveMap.leave, Sweeper.leave, Function.comp_def]

theorem prune (h : m.Sound) : m.prune.Sound where
  idlePoll_pos := h.idlePoll_pos
  capacity_pos := h.capacity_pos
  consistent := h.consistent
  fit s hs := h.fit s (List.mem_filter.1 hs).1
  one := by
    rw [List.pairwise_map, LiveMap.prune]
    exact (List.pairwise_map.1 h.one).filter _

theorem clock (h : m.Sound) (clock : Nat) : { m with clock }.Sound :=
  ⟨h.idlePoll_pos, h.capacity_pos, h.consistent, h.fit, h.one⟩

end Sound

end LiveMap

end ExpiringMap
