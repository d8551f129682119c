import ExpiringMap.Proofs.LiveMap.Accounts

/-!
What sweepers have in hand. Whatever is taken out of the table goes through the hands of one sweeper
and its outbox in the order in which it was taken, and as long as a worker is left all of it is
either delivered or still in hand. Turns may come in any order, and clients may do what they like
meanwhile.
-/

namespace ExpiringMap

variable {ν : Type}

/-- The entry that was delivered. -/
def Event.item (e : Event ν) : Expired ν := ⟨e.key, e.value, e.due⟩

namespace Sweeper

/-- What has been taken out and not delivered yet, oldest first. -/
def inHand (s : Sweeper ν) : List (Expired ν) := s.queued ++ s.batch

theorem inHand_of_isFinished {s : Sweeper ν} (h : s.isFinished = true) : s.inHand = [] := by
  unfold isFinished at h
  split at h
  · next hp => simp [inHand, batch, hp, List.isEmpty_iff.1 h]
  · cases h

/-- A sweeper has room in its outbox and nothing in one without workers, and has no outbox if no
callback is `told`. -/
structure Fitted (told : Bool) (s : Sweeper ν) : Prop where
  room : ∀ o, s.outbox? = some o → 0 < o.capacity
  unmanned : s.workers = 0 → s.queued = []
  told : s.outbox?.isSome → told = true

/-- On the way from `s` to `s'` a sweeper took entries out, and its workers made deliveries. -/
structure Passes (s s' : Sweeper ν) (taken : List (Expired ν)) (made : List (Event ν)) : Prop where
  leaving : s.leaving = true → s'.leaving = true
  fitted : ∀ told, s.Fitted told → s'.Fitted told
  workers_le : s'.workers ≤ s.workers
  made_of_unmanned : s.workers = 0 → made = []
  made_isPrefix : made.map Event.item <+: s.inHand ++ taken
  /-- While a worker is left nothing is lost. -/
  kept : 0 < s'.workers → s.inHand ++ taken = made.map Event.item ++ s'.inHand

variable {s s' s'' : Sweeper ν} {taken taken' : List (Expired ν)} {made made' : List (Event ν)}

namespace Passes

theorem refl (s : Sweeper ν) : Passes s s [] [] where
  leaving h := h
  fitted _ h := h
  workers_le := le_rfl
  made_of_unmanned _ := rfl
  made_isPrefix := List.nil_prefix
  kept _ := by simp

theorem trans (h : Passes s s' taken made) (h' : Passes s' s'' taken' made') :
    Passes s s'' (taken ++ taken') (made ++ made') where
  leaving hl := h'.leaving (h.leaving hl)
  fitted told hf := h'.fitted told (h.fitted told hf)
  workers_le := h'.workers_le.trans h.workers_le
  made_of_unmanned hw := by
    have hw' := h.workers_le
    rw [h.made_of_unmanned hw, h'.made_of_unmanned (by omega)]
    rfl
  made_isPrefix := by
    rw [List.map_append, ← List.append_assoc]
    -- Without workers nothing more is delivered, and with one nothing has been lost so far.
    rcases Nat.eq_zero_or_pos s'.workers with hw | hw
    · rw [h'.made_of_unmanned hw, List.map_nil, List.append_nil]
      exact h.made_isPrefix.trans (List.prefix_append _ _)
    · rw [h.kept hw, List.append_assoc]
      exact (List.prefix_append_right_inj _).2 h'.made_isPrefix
  kept hw := by
    rw [← List.append_assoc, h.kept (hw.trans_le h'.workers_le), List.append_assoc, h'.kept hw,
      List.map_append, List.append_assoc]

theorem of_phase {p : Phase ν} (h : ({ s with phase := p } : Sweeper ν).batch = s.batch ++ taken) :
    Passes s { s with phase := p } taken [] where
  leaving h := h
  fitted _ h := ⟨h.room, h.unmanned, h.told⟩
  workers_le := le_rfl
  made_of_unmanned _ := rfl
  made_isPrefix := List.nil_prefix
  kept _ := by
    rw [inHand, inHand, h, List.append_assoc]
    rfl

end Passes

theorem passes_hand (h : s.hand? = some s') : Passes s s' [] [] := by
  obtain ⟨x, rest, hp, h⟩ := hand?_cases h
  cases h with
  | @accepted o ho hw hroom =>
    have hbatch : s.batch = x :: rest := by simp [batch, hp]
    have hqueued := queued_of_outbox? ho
    have hworkers := workers_of_outbox? ho
    have hrest : ({ s with phase := Phase.ofItems rest } : Sweeper ν).batch = rest := by
      cases rest <;> rfl
    refine ⟨fun h => h, fun told hf => ⟨?_, ?_, ?_⟩, ?_, fun _ => rfl, List.nil_prefix, fun _ => ?_⟩
    · intro o' ho'
      cases ho'
      exact hf.room o ho
    · intro hz
      exact absurd hz hw.ne'
    · exact fun _ => hf.told (by rw [ho]; rfl)
    · rw [hworkers]
      exact le_rfl
    · rw [inHand, hbatch, hqueued, List.append_nil, List.map_nil, List.nil_append]
      change _ = (o.queued ++ [x]) ++ ({ s with phase := Phase.ofItems rest } : Sweeper ν).batch
      rw [hrest, List.append_assoc]
      rfl
  | lost h =>
    refine ⟨fun h => h, fun told _ => ⟨?_, fun _ => rfl, ?_⟩, Nat.zero_le _, fun _ => rfl,
      List.nil_prefix, fun hw => absurd hw (Nat.lt_irrefl 0)⟩
    · rintro o ⟨⟩
    · rintro ⟨⟩

theorem passes_look {now : Instant} {idlePoll : Span} {w w' : Watched ν}
    (h : s.look? now idlePoll w = some (w', s')) :
    Passes s s' (if s.leaving then [] else (w.table.takeDue now).1) [] := by
  obtain ⟨hp, h⟩ := look?_cases h
  have hbatch : s.batch = [] := by simp [batch, hp]
  cases h with
  | leaves hl =>
    rw [if_pos hl]
    exact .of_phase (by rw [hbatch]; rfl)
  | waits hl hdue =>
    rw [if_neg (by simp [hl]), hdue]
    exact .of_phase (by rw [hbatch]; rfl)
  | drops hl hdue ho =>
    refine ⟨fun h => h, fun _ h => h, le_rfl, fun _ => rfl, List.nil_prefix, fun hw => ?_⟩
    simp [workers, ho] at hw
  | hands hl hdue =>
    rw [if_neg (by simp [hl]), hdue]
    exact .of_phase (by rw [hbatch]; rfl)

theorem passes_release {now : Instant} {w w' : Watched ν} {r : Release}
    (h : s.release? now w r = some (w', s')) : Passes s s' [] [] := by
  obtain ⟨alarm?, hp, h⟩ := release?_cases h
  have hbatch : s.batch = [] := by simp [batch, hp]
  cases r with
  | leave =>
    obtain ⟨-, -, rfl⟩ := h
    exact .of_phase (by rw [hbatch]; rfl)
  | wake =>
    obtain ⟨-, -, rfl⟩ := h
    exact .of_phase (by rw [hbatch]; rfl)
  | timer =>
    obtain ⟨t, -, -, -, rfl⟩ := h
    exact .of_phase (by rw [hbatch]; rfl)

theorem passes_take {x : Expired ν} (h : s.take? = some (x, s')) {e : Event ν}
    (he : e.item = x) : Passes s s' [] [e] := by
  obtain ⟨o, xs, ho, hw, hq, rfl⟩ := take?_cases h
  have hqueued : s.queued = x :: xs := (queued_of_outbox? ho).trans hq
  have hworkers := workers_of_outbox? ho
  have hhand : s.inHand = x :: (xs ++ s.batch) := by rw [inHand, hqueued]; rfl
  refine ⟨fun h => h, fun told hf => ⟨?_, ?_, ?_⟩, ?_, ?_, ?_, fun _ => ?_⟩
  · intro o' ho'
    cases ho'
    exact hf.room o ho
  · intro hz
    exact absurd hz hw.ne'
  · exact fun _ => hf.told (by rw [ho]; rfl)
  · rw [hworkers]
    exact le_rfl
  · intro hz
    omega
  · rw [hhand, List.map_singleton, he, List.append_nil]
    exact List.prefix_append [x] _
  · rw [hhand, List.map_singleton, he, List.append_nil]
    rfl

theorem passes_leave (s : Sweeper ν) : Passes s s.leave [] [] where
  leaving _ := rfl
  fitted _ h := ⟨h.room, h.unmanned, h.told⟩
  workers_le := le_rfl
  made_of_unmanned _ := rfl
  made_isPrefix := List.nil_prefix
  kept _ := List.append_nil _

theorem passes_loseWorker (s : Sweeper ν) : Passes s s.loseWorker [] [] := by
  cases ho : s.outbox? with
  | none =>
    have hs : s.loseWorker = s := by
      rw [loseWorker, ho, Option.map_none, ← ho]
    rw [hs]
    exact .refl s
  | some o =>
    have hout : s.loseWorker.outbox? = some o.loseWorker := by simp [loseWorker, ho]
    have hworkers : s.loseWorker.workers = o.workers - 1 := workers_of_outbox? hout
    have hqueued : s.loseWorker.queued = if o.workers ≤ 1 then [] else s.queued := by
      rw [queued_of_outbox? hout, queued_of_outbox? ho, Outbox.loseWorker]
    refine ⟨fun h => h, fun told hf => ⟨?_, ?_, ?_⟩, ?_, fun _ => rfl, List.nil_prefix,
      fun hw => ?_⟩
    · intro o' ho'
      rw [hout] at ho'
      cases ho'
      exact hf.room o ho
    · intro hz
      rw [hqueued, if_pos (by omega)]
    · exact fun _ => hf.told (by rw [ho]; rfl)
    · rw [hworkers, workers, ho]
      exact Nat.sub_le _ _
    · rw [inHand, inHand, hqueued, if_neg (by omega), List.append_nil, List.map_nil,
        List.nil_append]
      rfl

end Sweeper

namespace LiveMap

variable {settings : Settings} {callback? : Option (Callback ν)} {hasRuntime : Bool}
  {m : LiveMap ν}

def Turn.sweeper : Turn → Nat
  | .hand i | .work i | .look i | .release i _ => i

/-- The deliveries that a move makes. -/
def made (m : LiveMap ν) : Move ν → List (Event ν)
  | .turn (.work i) =>
    match m.sweepers[i]?.bind (·.take?) with
    | some (x, s) => (m.setSweeper i s).eventsFor x
    | none => []
  | _ => []

/-- What sweeper `j` takes out in a move. -/
def takenBy (m : LiveMap ν) (j : Nat) : Move ν → List (Expired ν)
  | .turn t => if t.sweeper = j then m.taken (.turn t) else []
  | _ => []

/-- The deliveries that the workers of sweeper `j` make in a move. -/
def madeBy (m : LiveMap ν) (j : Nat) : Move ν → List (Event ν)
  | .turn t => if t.sweeper = j then m.made (.turn t) else []
  | _ => []

/-- From `m` to `m'` each sweeper has done what is said of it, and who is new is as at the start. -/
structure Advances (m m' : LiveMap ν) (taken : Nat → List (Expired ν))
    (made : Nat → List (Event ν)) : Prop where
  old : ∀ (j : Nat) (s : Sweeper ν), m.sweepers[j]? = some s →
    ∃ s', m'.sweepers[j]? = some s' ∧ Sweeper.Passes s s' (taken j) (made j)
  new : ∀ (j : Nat) (s' : Sweeper ν), m'.sweepers[j]? = some s' → m.sweepers.length ≤ j →
    s' = m.newSweeper

theorem Advances.length_le {m' : LiveMap ν} {taken : Nat → List (Expired ν)}
    {made : Nat → List (Event ν)} (h : m.Advances m' taken made) :
    m.sweepers.length ≤ m'.sweepers.length := by
  by_contra hlt
  obtain ⟨s', hs', -⟩ := h.old m'.sweepers.length _ (List.getElem?_eq_getElem (Nat.not_le.1 hlt))
  exact absurd (List.getElem?_eq_some_iff.1 hs').1 (Nat.lt_irrefl _)

theorem newSweeper_call (m : LiveMap ν) (c : Call ν) :
    (m.call c).1.newSweeper = m.newSweeper := by
  cases hs : c.isStart with
  | true =>
    rw [call_start hs, start]
    split <;> rfl
  | false => rw [call_make hs]; rfl

theorem sweepers_call (m : LiveMap ν) (c : Call ν) :
    ∃ ss, (m.call c).1.sweepers = m.sweepers ++ ss ∧ (∀ s ∈ ss, s = m.newSweeper) ∧
      (c.isStart = false → ss = []) := by
  cases hs : c.isStart with
  | true =>
    rw [call_start hs, start]
    split
    · exact ⟨[], (List.append_nil _).symm, by simp, by simp⟩
    · exact ⟨[m.newSweeper], rfl, by simp, by simp⟩
  | false => exact ⟨[], by rw [call_make hs, List.append_nil], by simp, fun _ => rfl⟩

theorem sweepers_callAll (m : LiveMap ν) (cs : List (Call ν)) :
    ∃ ss, (m.callAll cs).1.sweepers = m.sweepers ++ ss ∧ (∀ s ∈ ss, s = m.newSweeper) ∧
      ((∀ c ∈ cs, c.isStart = false) → ss = []) := by
  induction cs generalizing m with
  | nil => exact ⟨[], (List.append_nil _).symm, by simp, fun _ => rfl⟩
  | cons c cs ih =>
    obtain ⟨ss, hss, hnew, hnone⟩ := sweepers_call m c
    obtain ⟨ss', hss', hnew', hnone'⟩ := ih (m.call c).1
    rw [newSweeper_call] at hnew'
    refine ⟨ss ++ ss', ?_, ?_, fun hcs => ?_⟩
    · rw [callAll, hss', hss, List.append_assoc]
    · exact fun s hs => (List.mem_append.1 hs).elim (hnew s) (hnew' s)
    · rw [List.forall_mem_cons] at hcs
      rw [hnone hcs.1, hnone' hcs.2]
      rfl

theorem advances_of_append {m' : LiveMap ν} {ss : List (Sweeper ν)}
    (h : m'.sweepers = m.sweepers ++ ss) (hss : ∀ s ∈ ss, s = m.newSweeper) :
    m.Advances m' (fun _ => []) (fun _ => []) where
  old j s hj := by
    refine ⟨s, ?_, .refl s⟩
    rw [h, List.getElem?_append_left (List.getElem?_eq_some_iff.1 hj).1, hj]
  new j s' hj hle := by
    rw [h, List.getElem?_append_right hle] at hj
    exact hss s' (List.mem_of_getElem? hj)

theorem advances_of_set {m' : LiveMap ν} {i : Nat} {s s' : Sweeper ν} {ss : List (Sweeper ν)}
    {taken : List (Expired ν)} {made : List (Event ν)} (hi : m.sweepers[i]? = some s)
    (h : m'.sweepers = m.sweepers.set i s' ++ ss) (hss : ∀ s ∈ ss, s = m.newSweeper)
    (hp : s.Passes s' taken made) :
    m.Advances m' (fun j => if i = j then taken else []) (fun j => if i = j then made else []) where
  old j sj hj := by
    have hlt := (List.getElem?_eq_some_iff.1 hj).1
    rw [h, List.getElem?_append_left (by rwa [List.length_set]), List.getElem?_set]
    by_cases hij : i = j
    · subst hij
      rw [hi] at hj
      cases hj
      simp only [if_true, hlt]
      exact ⟨s', rfl, hp⟩
    · simp only [hij, if_false]
      exact ⟨sj, hj, .refl sj⟩
  new j sj hj hle := by
    rw [h, List.getElem?_append_right (by rwa [List.length_set])] at hj
    exact hss sj (List.mem_of_getElem? hj)

theorem modify_set_append {α : Type} {f : α → α} {xs ys : List α} {i : Nat} {a b : α}
    (hi : xs[i]? = some b) : (xs.set i a ++ ys).modify i f = xs.set i (f a) ++ ys := by
  induction xs generalizing i with
  | nil => cases hi
  | cons x xs ih =>
    cases i with
    | zero => rfl
    | succ i => exact congrArg (x :: ·) (ih hi)

/-- A worker that has taken an item delivers it; a callback may start sweepers. -/
theorem sweepers_deliver (m : LiveMap ν) (i : Nat) (s₁ : Sweeper ν) (x : Expired ν) :
    ∃ ss, ((m.setSweeper i s₁).deliver x).sweepers = m.sweepers.set i s₁ ++ ss ∧
      (∀ s ∈ ss, s = m.newSweeper) ∧ ((∀ c ∈ m.callsFor x, c.isStart = false) → ss = []) := by
  obtain ⟨ss, hss, hnew, hnone⟩ :=
    sweepers_callAll ((m.setSweeper i s₁).spend x.key) (m.callsFor x)
  have hfresh : ((m.setSweeper i s₁).spend x.key).newSweeper = m.newSweeper := by
    cases hc : m.callback? <;> simp [newSweeper, spend, setSweeper, hc]
  rw [hfresh] at hnew
  refine ⟨ss, ?_, hnew, hnone⟩
  rw [deliver_eq]
  exact hss

theorem sweepers_work {i : Nat} {s : Sweeper ν} (hi : m.sweepers[i]? = some s)
    (s₁ : Sweeper ν) (x : Expired ν) :
    ∃ s₂ ss, ((m.setSweeper i s₁).afterWork i x).sweepers = m.sweepers.set i s₂ ++ ss ∧
      (s₂ = s₁ ∨ s₂ = s₁.loseWorker) ∧ (∀ s ∈ ss, s = m.newSweeper) ∧
      ((∀ c ∈ m.callsFor x, c.isStart = false) → ss = []) := by
  obtain ⟨ss, hss, hnew, hnone⟩ := m.sweepers_deliver i s₁ x
  unfold afterWork
  split
  · refine ⟨s₁.loseWorker, ss, ?_, .inr rfl, hnew, hnone⟩
    rw [loseWorker, hss, modify_set_append hi]
  · exact ⟨s₁, ss, hss, .inl rfl, hnew, hnone⟩

theorem item_of_mem_eventsFor {x : Expired ν} {callback : Callback ν}
    (hc : m.callback? = some callback) : ∃ e, m.eventsFor x = [e] ∧ e.item = x := by
  unfold eventsFor
  rw [hc]
  exact ⟨_, rfl, rfl⟩

/-- Sweepers whose outboxes are as they should be, on a table that is. Nothing is said of the order
in which turns come. -/
structure Steady (m : LiveMap ν) : Prop where
  idlePoll_pos : 0 < m.settings.idlePoll
  capacity_pos : 0 < m.settings.queueCapacity
  consistent : m.table.Consistent
  fitted : ∀ s ∈ m.sweepers, s.Fitted m.callback?.isSome

theorem taken_look {i : Nat} {s : Sweeper ν} (hi : m.sweepers[i]? = some s)
    (hp : s.phase = .looking) :
    m.taken (.turn (.look i)) = if s.leaving then [] else (m.table.takeDue m.now).1 := by
  cases hl : s.leaving <;> simp [taken, hi, Sweeper.isLooking, hp, hl]

theorem made_work {i : Nat} {s s' : Sweeper ν} {x : Expired ν} (hi : m.sweepers[i]? = some s)
    (ht : s.take? = some (x, s')) :
    m.made (.turn (.work i)) = (m.setSweeper i s').eventsFor x := by
  simp [made, hi, ht]

theorem taken_eq_nil {t : Turn} (h : m.turn? t = none) : m.taken (.turn t) = [] := by
  cases t with
  | look i =>
    rw [turn?_look, Option.map_eq_none_iff] at h
    cases hi : m.sweepers[i]? with
    | none => simp [taken, hi]
    | some s =>
      rw [hi, Option.bind_some] at h
      cases hp : s.phase with
      | looking =>
        simp only [Sweeper.look?, hp] at h
        split at h <;> cases h
      | handing | waiting | done => simp [taken, hi, Sweeper.isLooking, hp]
  | hand | work | release => rfl

theorem made_eq_nil {t : Turn} (h : m.turn? t = none) : m.made (.turn t) = [] := by
  cases t with
  | work i =>
    rw [turn?_work, Option.map_eq_none_iff] at h
    simp [made, h]
  | hand | look | release => rfl

theorem advances_leave (m : LiveMap ν) : m.Advances m.leave (fun _ => []) (fun _ => []) where
  old j s hj := by
    refine ⟨s.leave, ?_, s.passes_leave⟩
    rw [leave, List.getElem?_map, hj]
    rfl
  new j s' hj hle := by
    have hlt := (List.getElem?_eq_some_iff.1 hj).1
    rw [leave, List.length_map] at hlt
    omega

theorem advances_self (m : LiveMap ν) : m.Advances m (fun _ => []) (fun _ => []) :=
  advances_of_append (List.append_nil _).symm (by simp)

namespace Steady

variable (h : m.Steady)

include h

theorem exists_passes_turned {t : Turn} {m' : LiveMap ν} (ht : m.Turned t m') :
    ∃ s s' ss, m.sweepers[t.sweeper]? = some s ∧ m'.sweepers = m.sweepers.set t.sweeper s' ++ ss ∧
      (∀ s ∈ ss, s = m.newSweeper) ∧ s.Passes s' (m.taken (.turn t)) (m.made (.turn t)) := by
  cases ht with
  | @hand i s s' hi hs =>
    exact ⟨s, s', [], hi, (List.append_nil _).symm, by simp, Sweeper.passes_hand hs⟩
  | @release i r s w s' hi hs =>
    exact ⟨s, s', [], hi, (List.append_nil _).symm, by simp, Sweeper.passes_release hs⟩
  | @look i s w s' hi hs =>
    have hp := Sweeper.passes_look hs
    rw [← table, ← taken_look hi (Sweeper.look?_cases hs).1] at hp
    exact ⟨s, s', [], hi, (List.append_nil _).symm, by simp, hp⟩
  | @work i s x s' hi hs =>
    obtain ⟨o, xs, ho, -⟩ := Sweeper.take?_cases hs
    have htold := (h.fitted s (List.mem_of_getElem? hi)).told (by rw [ho]; rfl)
    obtain ⟨callback, hc⟩ := Option.isSome_iff_exists.1 htold
    obtain ⟨e, hmade, he⟩ := item_of_mem_eventsFor (m := m.setSweeper i s') (x := x) hc
    rw [← made_work hi hs] at hmade
    obtain ⟨s₂, ss, hsweepers, hs₂, hnew, -⟩ := sweepers_work hi s' x
    have hp : s.Passes s₂ [] (m.made (.turn (.work i))) := by
      rw [hmade]
      rcases hs₂ with rfl | rfl
      · exact Sweeper.passes_take hs he
      · exact (Sweeper.passes_take hs he).trans s'.passes_loseWorker
    exact ⟨s, s₂, ss, hi, hsweepers, hnew, hp⟩

theorem advances_turned {t : Turn} {m' : LiveMap ν} (ht : m.Turned t m') :
    m.Advances m' (m.takenBy · (.turn t)) (m.madeBy · (.turn t)) := by
  obtain ⟨s, s', ss, hi, hsweepers, hnew, hp⟩ := h.exists_passes_turned ht
  exact advances_of_set hi hsweepers hnew hp

/-- Every move but to forget sweepers keeps them in their places. -/
theorem advances_move {mv : Move ν} (hne : mv ≠ .prune) :
    m.Advances (m.move mv) (m.takenBy · mv) (m.madeBy · mv) := by
  cases mv with
  | call c =>
    obtain ⟨ss, hss, hnew, -⟩ := sweepers_call m c
    exact advances_of_append hss hnew
  | turn t =>
    rw [LiveMap.move]
    rcases m.turn_eq_self_or_turned t with ⟨ht, hm⟩ | ht
    · simp only [takenBy, madeBy, taken_eq_nil ht, made_eq_nil ht, ite_self, hm]
      exact advances_self m
    · exact h.advances_turned ht
  | wait | report => exact advances_of_append (List.append_nil _).symm (by simp)
  | leave => exact advances_leave m
  | prune => exact absurd rfl hne

end Steady

theorem settings_callAll (m : LiveMap ν) (cs : List (Call ν)) :
    (m.callAll cs).1.settings = m.settings := by
  induction cs generalizing m with
  | nil => rfl
  | cons c cs ih =>
    rw [callAll, ih]
    cases hs : c.isStart with
    | true =>
      rw [call_start hs, start]
      split <;> rfl
    | false => rw [call_make hs]

theorem settings_afterWork (m : LiveMap ν) (i : Nat) (x : Expired ν) :
    (m.afterWork i x).settings = m.settings := by
  have hd : (m.deliver x).settings = m.settings := by
    rw [deliver_eq]
    exact settings_callAll _ _
  unfold afterWork
  split <;> exact hd

theorem settings_move (m : LiveMap ν) (mv : Move ν) : (m.move mv).settings = m.settings := by
  cases mv with
  | call c => exact settings_callAll m [c]
  | turn t =>
    rw [move]
    rcases m.turn_eq_self_or_turned t with ⟨-, hm⟩ | ht
    · rw [hm]
    · generalize m.turn t = m' at ht ⊢
      cases ht with
      | work => exact settings_afterWork _ _ _
      | hand | look | release => rfl
  | wait | leave | prune | report => rfl

theorem settings_follow (m : LiveMap ν) (mvs : List (Move ν)) :
    (m.follow mvs).settings = m.settings := by
  induction mvs generalizing m with
  | nil => rfl
  | cons mv mvs ih => exact (ih (m.move mv)).trans (settings_move m mv)

theorem isSome_callback?_afterWork (m : LiveMap ν) (i : Nat) (x : Expired ν) :
    (m.afterWork i x).callback?.isSome = m.callback?.isSome := by
  have hd : (m.deliver x).callback?.isSome = m.callback?.isSome := by
    rw [deliver_eq]
    simp [callback?_callAll, spend]
  unfold afterWork
  split <;> exact hd

theorem isSome_callback?_move (m : LiveMap ν) (mv : Move ν) :
    (m.move mv).callback?.isSome = m.callback?.isSome := by
  cases mv with
  | call c => rw [move, callback?_call]
  | turn t =>
    rw [move]
    rcases m.turn_eq_self_or_turned t with ⟨-, hm⟩ | ht
    · rw [hm]
    · generalize m.turn t = m' at ht ⊢
      cases ht with
      | work => exact isSome_callback?_afterWork _ _ _
      | hand | look | release => rfl
  | wait | leave | prune | report => rfl

theorem consistent_move (h : m.table.Consistent) (mv : Move ν) :
    (m.move mv).table.Consistent := by
  rw [table_move]
  exact h.performAll _

theorem inHand_newSweeper (m : LiveMap ν) : m.newSweeper.inHand = [] := by
  cases hc : m.callback? <;>
    simp [newSweeper, Sweeper.inHand, Sweeper.queued, Sweeper.batch, hc]

theorem fitted_newSweeper (hcapacity : 0 < m.settings.queueCapacity) :
    m.newSweeper.Fitted m.callback?.isSome where
  room o ho := by
    obtain ⟨-, -, rfl⟩ := Option.map_eq_some_iff.1 ho
    exact hcapacity
  unmanned _ := by cases hc : m.callback? <;> simp [newSweeper, Sweeper.queued, hc]
  told := by simp [newSweeper]

namespace Steady

theorem move (h : m.Steady) (mv : Move ν) : (m.move mv).Steady where
  idlePoll_pos := by rw [settings_move]; exact h.idlePoll_pos
  capacity_pos := by rw [settings_move]; exact h.capacity_pos
  consistent := consistent_move h.consistent mv
  fitted s' hs' := by
    rw [isSome_callback?_move]
    by_cases hmv : mv = .prune
    · subst hmv
      exact h.fitted s' (List.mem_filter.1 hs').1
    · obtain ⟨j, hj⟩ := List.mem_iff_getElem?.1 hs'
      have hadv := h.advances_move hmv
      -- Whoever is there afterwards was there before, and fitted, or is new.
      cases hold : m.sweepers[j]? with
      | some s =>
        obtain ⟨s'', hj'', hp⟩ := hadv.old j s hold
        rw [hj, Option.some.injEq] at hj''
        exact hj'' ▸ hp.fitted _ (h.fitted s (List.mem_of_getElem? hold))
      | none =>
        rw [hadv.new j s' hj (List.getElem?_eq_none_iff.1 hold)]
        exact fitted_newSweeper h.capacity_pos

theorem follow (h : m.Steady) (mvs : List (Move ν)) : (m.follow mvs).Steady := by
  induction mvs generalizing m with
  | nil => exact h
  | cons mv mvs ih => exact ih (h.move mv)

end Steady

theorem steady_of_open? (h : open? settings callback? hasRuntime = .ok m) : m.Steady := by
  obtain ⟨hproblem, -, -, rfl⟩ := open?_eq_ok_iff.1 h
  obtain ⟨hq, hp⟩ := problem?_eq_none_iff.1 hproblem
  have hempty : ({ settings, callback? } : LiveMap ν).Steady :=
    ⟨hp, hq, Table.consistent_empty, by simp⟩
  exact hempty.move (.call .start)

end LiveMap

end ExpiringMap
