import ExpiringMap.Proofs.LiveMap.Deliveries
import ExpiringMap.Proofs.LiveMap.Shutdown

namespace ExpiringMap

variable {ν : Type}

/-- An outbox as it was at first, if no worker is lost. -/
def Outbox.emptied {α : Type} (o : Outbox α) : Outbox α := { o with queued := [] }

namespace LiveMap

variable {m n : LiveMap ν} {t : Turn}

theorem callback?_deliver (m : LiveMap ν) (x : Expired ν) :
    (m.deliver x).callback? = m.callback?.map (·.spend x.key) := by
  rw [deliver_eq]
  exact callback?_callAll _ _

theorem callback?_afterWork (m : LiveMap ν) (i : Nat) (x : Expired ν) :
    (m.afterWork i x).callback? = m.callback?.map (·.spend x.key) := by
  unfold afterWork
  split <;> exact callback?_deliver m x

theorem Turned.callback? (h : m.Turned t n) :
    n.callback? = m.callback? ∨ ∃ k, n.callback? = m.callback?.map (·.spend k) := by
  cases h with
  | work => exact .inr ⟨_, callback?_afterWork _ _ _⟩
  | hand | look | release => exact .inl rfl

theorem callback?_move (m : LiveMap ν) (mv : Move ν) :
    (m.move mv).callback? = m.callback? ∨
      ∃ k, (m.move mv).callback? = m.callback?.map (·.spend k) := by
  cases mv with
  | call c => exact .inl (callback?_call m c)
  | turn t =>
    rw [move]
    rcases m.turn_eq_self_or_turned t with ⟨-, hm⟩ | ht
    · rw [hm]
      exact .inl rfl
    · exact ht.callback?
  | wait | leave | prune | report => exact .inl rfl

theorem endsWorker_of_callback?
    (h : n.callback? = m.callback? ∨ ∃ k, n.callback? = m.callback?.map (·.spend k)) :
    n.endsWorker = m.endsWorker := by
  funext k
  unfold endsWorker
  rcases h with h | ⟨j, h⟩
  · rw [h]
  · rw [h, Option.any_map]
    rfl

theorem endsWorker_move (m : LiveMap ν) (mv : Move ν) : (m.move mv).endsWorker = m.endsWorker :=
  endsWorker_of_callback? (callback?_move m mv)

theorem endsWorker_follow (m : LiveMap ν) (mvs : List (Move ν)) :
    (m.follow mvs).endsWorker = m.endsWorker := by
  induction mvs generalizing m with
  | nil => rfl
  | cons mv mvs ih => exact (ih (m.move mv)).trans (endsWorker_move m mv)

theorem isSome_callback?_follow (m : LiveMap ν) (mvs : List (Move ν)) :
    (m.follow mvs).callback?.isSome = m.callback?.isSome := by
  induction mvs generalizing m with
  | nil => rfl
  | cons mv mvs ih => exact (ih (m.move mv)).trans (isSome_callback?_move m mv)

theorem endsWorker_settle (m : LiveMap ν) : m.settle.endsWorker = m.endsWorker := by
  rw [(path_settle m).eq_follow]
  exact endsWorker_follow m _

/-- Every sweeper has all the workers that it had at first. -/
def Staffed (m : LiveMap ν) : Prop :=
  ∀ s ∈ m.sweepers, s.outbox?.map Outbox.emptied = m.newSweeper.outbox?

theorem newSweeper_congr (hs : n.settings = m.settings)
    (hc : n.callback?.isSome = m.callback?.isSome) : n.newSweeper = m.newSweeper := by
  unfold newSweeper
  rw [hs]
  revert hc
  cases n.callback? <;> cases m.callback? <;> simp

theorem newSweeper_move (m : LiveMap ν) (mv : Move ν) : (m.move mv).newSweeper = m.newSweeper :=
  newSweeper_congr (settings_move m mv) (isSome_callback?_move m mv)

theorem emptied_newSweeper (m : LiveMap ν) :
    m.newSweeper.outbox?.map Outbox.emptied = m.newSweeper.outbox? := by
  cases hc : m.callback? <;> simp [newSweeper, Outbox.emptied, hc]

theorem workers_pos_of_emptied {s : Sweeper ν} {o : Outbox (Expired ν)}
    (h : s.outbox?.map Outbox.emptied = m.newSweeper.outbox?) (ho : s.outbox? = some o) :
    0 < o.workers := by
  rw [ho, newSweeper] at h
  obtain ⟨c, -, he⟩ := Option.map_eq_some_iff.1 h.symm
  have hw : o.workers = m.settings.workerCount := (congrArg (·.workers) he).symm
  exact hw ▸ m.settings.workerCount_pos

namespace Staffed

theorem workers_pos (h : m.Staffed) (hc : m.callback?.isSome) :
    ∀ s ∈ m.sweepers, 0 < s.workers := by
  intro s hs
  have he := h s hs
  obtain ⟨c, hc⟩ := Option.isSome_iff_exists.1 hc
  cases ho : s.outbox? with
  | none =>
    rw [ho, newSweeper, hc] at he
    cases he
  | some o =>
    rw [Sweeper.workers_of_outbox? ho]
    exact workers_pos_of_emptied he ho

theorem of_mem (h : m.Staffed) (hn : n.newSweeper = m.newSweeper)
    (hmem : ∀ s ∈ n.sweepers, s = m.newSweeper ∨
      ∃ s₀ ∈ m.sweepers, s.outbox?.map Outbox.emptied = s₀.outbox?.map Outbox.emptied) :
    n.Staffed := by
  intro s hs
  rw [hn]
  rcases hmem s hs with rfl | ⟨s₀, hs₀, he⟩
  · exact emptied_newSweeper m
  · rw [he]
    exact h s₀ hs₀

theorem set_append {i : Nat} {s s' : Sweeper ν} {ss : List (Sweeper ν)} (h : m.Staffed)
    (hi : m.sweepers[i]? = some s)
    (hs : s'.outbox?.map Outbox.emptied = s.outbox?.map Outbox.emptied)
    (hss : ∀ s ∈ ss, s = m.newSweeper) (hn : n.newSweeper = m.newSweeper)
    (he : n.sweepers = m.sweepers.set i s' ++ ss) : n.Staffed := by
  refine h.of_mem hn fun s₁ hs₁ => ?_
  rw [he] at hs₁
  rcases List.mem_append.1 hs₁ with hs₁ | hs₁
  · rcases List.mem_or_eq_of_mem_set hs₁ with hs₁ | rfl
    · exact .inr ⟨s₁, hs₁, rfl⟩
    · exact .inr ⟨s, List.mem_of_getElem? hi, hs⟩
  · exact .inl (hss s₁ hs₁)

/-- Nobody is lost but to a callback that ends its worker. -/
theorem turn (h : m.Staffed) {t : Turn}
    (hspare : ∀ e ∈ m.made (.turn t), m.endsWorker e.key = false) : (m.turn t).Staffed := by
  have hnew := newSweeper_move m (.turn t)
  rw [move] at hnew
  rcases m.turn_eq_self_or_turned t with ⟨-, hm⟩ | ht
  · rwa [hm]
  generalize m.turn t = n at hnew ht ⊢
  cases ht with
  | hand hi hs =>
    refine h.set_append hi ?_ (by simp) hnew (List.append_nil _).symm
    obtain ⟨x, rest, -, hs⟩ := Sweeper.hand?_cases hs
    cases hs with
    | accepted ho => rw [ho]; rfl
    | lost hnone =>
      rcases hnone with ho | ⟨o, ho, hzero⟩
      · rw [ho]
      · have hpos := workers_pos_of_emptied (h _ (List.mem_of_getElem? hi)) ho
        omega
  | look hi hs =>
    refine h.set_append hi ?_ (by simp) hnew (List.append_nil _).symm
    obtain ⟨-, hs⟩ := Sweeper.look?_cases hs
    cases hs <;> rfl
  | @release i r s w s' hi hs =>
    refine h.set_append hi ?_ (by simp) hnew (List.append_nil _).symm
    obtain ⟨alarm?, -, hs⟩ := Sweeper.release?_cases hs
    cases r with
    | leave | wake => rw [hs.2.2]
    | timer =>
      obtain ⟨a, -, -, -, rfl⟩ := hs
      rfl
  | @work i s x s' hi hs =>
    have hends : ((m.setSweeper i s').deliver x).endsWorker x.key = false := by
      rw [endsWorker_of_callback? (.inr ⟨x.key, callback?_deliver (m.setSweeper i s') x⟩)]
      cases hc : m.callback? with
      | none => simp [endsWorker, setSweeper, hc]
      | some c =>
        -- The one event of the turn is of the key that the worker delivers.
        obtain ⟨e, he, hitem⟩ := item_of_mem_eventsFor (m := m.setSweeper i s') (x := x) hc
        rw [← hitem]
        exact hspare e (by rw [made_work hi hs, he]; exact List.mem_singleton_self e)
    obtain ⟨ss, hss, hfresh, -⟩ := m.sweepers_deliver i s' x
    have hout : s'.outbox?.map Outbox.emptied = s.outbox?.map Outbox.emptied := by
      obtain ⟨o, xs, ho, -, -, rfl⟩ := Sweeper.take?_cases hs
      rw [ho]
      rfl
    refine h.set_append hi hout hfresh hnew ?_
    rw [afterWork, if_neg (by simp [hends]), hss]

theorem move (h : m.Staffed) (mv : Move ν)
    (hspare : ∀ e ∈ m.made mv, m.endsWorker e.key = false) : (m.move mv).Staffed := by
  cases mv with
  | call c =>
    obtain ⟨ss, hss, hfresh, -⟩ := sweepers_call m c
    refine h.of_mem (newSweeper_call m c) fun s hs => ?_
    rw [LiveMap.move, hss] at hs
    rcases List.mem_append.1 hs with hs | hs
    · exact .inr ⟨s, hs, rfl⟩
    · exact .inl (hfresh s hs)
  | turn t => exact h.turn hspare
  | leave =>
    intro s hs
    obtain ⟨s, hmem, rfl⟩ := List.mem_map.1 hs
    exact h s hmem
  | prune => exact fun s hs => h s (List.mem_filter.1 hs).1
  | wait | report => exact h

theorem follow (h : m.Staffed) {mvs : List (Move ν)}
    (hspare : ∀ e ∈ m.madeIn mvs, m.endsWorker e.key = false) : (m.follow mvs).Staffed := by
  induction mvs generalizing m with
  | nil => exact h
  | cons mv mvs ih =>
    obtain ⟨hfirst, hrest⟩ := List.forall_mem_append.1 hspare
    refine ih (h.move mv hfirst) fun e he => ?_
    rw [endsWorker_move]
    exact hrest e he

theorem manned (h : m.Staffed) (hc : m.callback?.isSome) {mvs : List (Move ν)}
    (hspare : ∀ e ∈ m.madeIn mvs, m.endsWorker e.key = false) : m.Manned mvs := by
  rintro before rest rfl
  rw [madeIn_append] at hspare
  refine (h.follow fun e he => hspare e (List.mem_append_left _ he)).workers_pos ?_
  rw [isSome_callback?_follow]
  exact hc

end Staffed

/-- No callback that has run ended its worker. -/
def Sparing (m : LiveMap ν) : Prop := ∀ e ∈ m.delivered, m.endsWorker e.key = false

theorem delivered_settle (m : LiveMap ν) :
    m.settle.delivered = m.delivered ++ m.madeIn m.settleMoves := by
  rw [(path_settle m).eq_follow]
  exact delivered_follow fun _ hmv => ne_report_of_mem_settleMoves hmv

theorem time_of_mem_madeIn {ts : List Turn} {e : Event ν} (he : e ∈ m.madeIn (ts.map .turn)) :
    e.time = m.clock := by
  induction ts generalizing m with
  | nil => cases he
  | cons t ts ih =>
    rcases List.mem_append.1 he with he | he
    · cases t with
      | work i =>
        simp only [made] at he
        split at he
        · unfold eventsFor at he
          split at he
          · rw [List.mem_singleton.1 he]
            rfl
          · cases he
        · cases he
      | hand | look | release => cases he
    · have hclock := m.clock_turn t
      rw [ih he]
      exact Int.ofNat.inj hclock

theorem Sparing.of_settle (h : m.settle.Sparing) :
    m.Sparing ∧ ∀ e ∈ m.madeIn m.settleMoves, m.endsWorker e.key = false := by
  unfold Sparing at h
  rw [delivered_settle, endsWorker_settle, List.forall_mem_append] at h
  exact h

variable {settings : Settings} {callback? : Option (Callback ν)} {hasRuntime : Bool}

theorem staffed_of_open? (h : open? settings callback? hasRuntime = .ok m) : m.Staffed := by
  obtain ⟨-, -, -, rfl⟩ := open?_eq_ok_iff.1 h
  intro s hs
  obtain rfl : s = _ := List.mem_singleton.1 hs
  exact emptied_newSweeper _

/-- No callback that runs in the course of these operations ends its worker. -/
def SparesWorkers (m : LiveMap ν) (ops : List (Operation ν)) : Prop :=
  ∀ r ∈ m.run ops, ∀ e ∈ r.events, m.endsWorker e.key = false

theorem Sound.sparesWorkers_cons (h : m.Sound) {op : Operation ν} {ops : List (Operation ν)}
    (hspare : m.SparesWorkers (op :: ops)) :
    (∀ e ∈ { m with delivered := [] }.madeIn ({ m with delivered := [] }.moves op),
      m.endsWorker e.key = false) ∧ (m.report op).2.SparesWorkers ops := by
  obtain ⟨hfirst, hrest⟩ := List.forall_mem_cons.1 hspare
  have hpath := ((h.with_callback m.callback? []).path_apply op).eq_follow
  have hends : (m.report op).2.endsWorker = m.endsWorker := by
    change ({ m with delivered := [] }.apply op).1.endsWorker = m.endsWorker
    rw [hpath]
    exact endsWorker_follow { m with delivered := [] } _
  constructor
  · intro e he
    apply hfirst e
    have hdelivered : ({ m with delivered := [] }.apply op).1.delivered =
        { m with delivered := [] }.madeIn ({ m with delivered := [] }.moves op) := by
      rw [hpath]
      exact delivered_follow fun _ hmv => ne_report_of_mem_moves hmv
    exact (listing_perm _ _).mem_iff.2 (hdelivered ▸ he)
  · unfold SparesWorkers
    rw [hends]
    exact hrest

end LiveMap

end ExpiringMap
