import ExpiringMap.Proofs.LiveMap.Lone
import ExpiringMap.Proofs.LiveMap.Rotas

/-!
How far the round is decides who comes next only if somebody joins while somebody else rests.
Between a sweeper and one worker there is nothing to decide, and among several workers nobody rests
unless the sweeper goes on for a whole stint, which leaves that many entries in the queue.
-/

namespace ExpiringMap.LiveMap

variable {ν : Type} {m n m' n' : LiveMap ν} {s : Sweeper ν} {r r' r₁ : Rota} {t : Turn}

/-- Fewer entries wait for a worker than a sweeper hands over in one stint. -/
def Uncrowded (m : LiveMap ν) : Prop :=
  ∀ s ∈ m.sweepers, s.queued.length < Rota.stintAllowance

theorem rotaAfter_of_ne_work (m : LiveMap ν) (r : Rota) (m' : LiveMap ν)
    (ht : ∀ i, t ≠ .work i) :
    m.rotaAfter r t m' = m'.enrol { r with allowance := r.allowance - Rota.cost t } := by
  cases t with
  | work i => exact absurd rfl (ht i)
  | hand | look | release => rfl

theorem rotaAfter_work {i : Nat} {s s' : Sweeper ν} {x : Expired ν}
    (hi : m.sweepers[i]? = some s) (hs : s.take? = some (x, s')) (r : Rota) (m' : LiveMap ν) :
    m.rotaAfter r (.work i) m' = m'.enrol (
      let q := (m.setSweeper i s').enrol { r with allowance := r.allowance - Rota.cost (.work i) }
      if 1 < s.workers then { q with holder? := none, line := q.line ++ [.worker i] } else q) := by
  simp only [rotaAfter, hi, hs, Option.bind_some, Option.map_some]

theorem complete_rotaAfter (m : LiveMap ν) (r : Rota) (t : Turn) (m' : LiveMap ν) :
    m'.Complete (m.rotaAfter r t m') := by
  cases t with
  | work i =>
    rw [rotaAfter]
    split
    · exact complete_enrol _ _
    · exact complete_enrol _ _
  | hand | look | release => exact complete_enrol _ _

def Turn.agent : Turn → Agent
  | .work i => .worker i
  | .hand i | .look i | .release i _ => .sweeper i

theorem mem_turns_iff {a : Agent} : t ∈ a.turns ↔ a = t.agent := by
  cases a with
  | worker j => cases t <;> simp [Agent.turns, Turn.agent, eq_comm]
  | sweeper j =>
    cases t with
    | release i q => cases q <;> simp [Agent.turns, Turn.agent, eq_comm]
    | hand | work | look => simp [Agent.turns, Turn.agent, eq_comm]

theorem holder?_of_find? (h : r.holderTurns.find? m.canTake = some t) :
    r.holder? = some t.agent := by
  have hmem := List.mem_of_find?_eq_some h
  unfold Rota.holderTurns at hmem
  cases ha : r.holder? with
  | none => simp [ha] at hmem
  | some a =>
    rw [ha] at hmem
    exact congrArg some (mem_turns_iff.1 hmem)

theorem Lone.agent_eq (h : m.Lone s) (ht : m.Turned t n) (hne : ∀ i, t ≠ .work i) :
    t.agent = .sweeper 0 := by
  cases ht with
  | work => exact absurd rfl (hne _)
  | hand hi | look hi | release hi => exact congrArg Agent.sweeper (h.eq_of_getElem? hi).1

/-- A worker that passes the thread on waits for it again, and everybody else still does. -/
theorem has_pass {a : Agent} {i : Nat} (hw : r.holder? = some (.worker i)) (ha : r.has a = true) :
    ({ r with holder? := none, line := r.line ++ [.worker i] } : Rota).has a = true := by
  rw [Rota.has_iff] at ha ⊢
  rcases ha with hholder | hqueue
  · rw [hw, Option.some.injEq] at hholder
    simp [Rota.queue, hholder]
  · rw [Rota.queue, List.mem_append] at hqueue
    simp only [Rota.queue, List.mem_append]
    tauto

theorem has_rotaAfter {a : Agent} (ht : m.canTake t = true) (hh : r.holder? = some t.agent)
    (ha : r.has a = true) :
    (m.rotaAfter r t m').has a = true := by
  cases t with
  | hand | look | release => exact has_enrol_of_has ha
  | work i =>
    obtain ⟨m₁, hm₁⟩ := Option.isSome_iff_exists.1 ht
    have hturned := turn?_cases hm₁
    cases hturned with
    | @work _ s x s' hi hs =>
      have hjoined : ((m.setSweeper i s').enrol
          { r with allowance := r.allowance - Rota.cost (.work i) }).has a = true :=
        has_enrol_of_has ha
      rw [rotaAfter_work hi hs]
      apply has_enrol_of_has
      dsimp only
      split
      · exact has_pass (by rw [holder?_enrol]; exact hh) hjoined
      · exact hjoined

/-- If whoever joins comes next in the same place on both rotas, they stay the same. -/
theorem rotaAfter_same {as : List Agent} (hs : Rota.Same r r') (hl : Rota.Level as r r')
    (hcrew : ∀ s ∈ m.sweepers, 1 < s.workers → r.resting = [] ∧ r'.resting = [])
    (ht : m.canTake t = true) (hh : r.holder? = some t.agent)
    (hsweepers : n.sweepers = m.sweepers) (has : m.agents = as) (has' : m'.agents = as)
    (hn' : n'.agents = as)
    (hset : ∀ i s x s', m.sweepers[i]? = some s → s.take? = some (x, s') → ∀ a ∈ as,
      r.has a = false → (n.setSweeper i s').canGo a = (m.setSweeper i s').canGo a)
    (hgo : ∀ a ∈ as, r.has a = false → n'.canGo a = m'.canGo a) :
    Rota.Same (m.rotaAfter r t m') (n.rotaAfter r' t n') := by
  have hpaid : Rota.Same { r with allowance := r.allowance - Rota.cost t }
      { r' with allowance := r'.allowance - Rota.cost t } :=
    ⟨hs.holder?, by rw [hs.allowance], hs.queue⟩
  cases t with
  | hand | look | release => exact enrol_same has' hn' hpaid hl hgo
  | work i =>
    obtain ⟨m₁, hm₁⟩ := Option.isSome_iff_exists.1 ht
    have hturned := turn?_cases hm₁
    cases hturned with
    | @work _ s x s' hi hs' =>
      have hagents : (m.setSweeper i s').agents = as := by
        simpa [agents, setSweeper] using has
      have hagents' : (n.setSweeper i s').agents = as := by
        simpa [agents, setSweeper, hsweepers] using has
      have hjoined := enrol_same hagents hagents' hpaid hl (hset i s x s' hi hs')
      have hkeeps {a : Agent} (ha : r.has a = true) : ((m.setSweeper i s').enrol
          { r with allowance := r.allowance - Rota.cost (.work i) }).has a = true :=
        has_enrol_of_has ha
      rw [rotaAfter_work hi hs', rotaAfter_work (hsweepers ▸ hi) hs']
      dsimp only
      split
      · next hmany =>
        obtain ⟨hr, hr'⟩ := hcrew s (List.mem_of_getElem? hi) hmany
        refine enrol_same has' hn' ⟨rfl, hjoined.allowance, ?_⟩ (.inl ?_) fun a ha hnot => ?_
        · have hqueue := hjoined.queue
          simp only [Rota.queue, resting_enrol, hr, hr', List.append_nil] at hqueue ⊢
          rw [hqueue]
        · rw [resting_enrol, resting_enrol]
          exact ⟨hr, hr'⟩
        · refine hgo a ha ?_
          rw [Bool.eq_false_iff] at hnot ⊢
          exact fun hhad => hnot (has_pass (by rw [holder?_enrol]; exact hh) (hkeeps hhad))
      · refine enrol_same has' hn' hjoined (level_enrol hl) fun a ha hnot => hgo a ha ?_
        rw [Bool.eq_false_iff] at hnot ⊢
        exact fun hhad => hnot (hkeeps hhad)

/-- A rota on which the round does not matter. With at most one worker somebody has the thread, and
nobody but the worker and the sweeper is there. With several nobody rests: what the sweeper has used
up of its stint is in the queue. -/
structure Pace (m : LiveMap ν) (r : Rota) : Prop where
  pair : m.newSweeper.workers ≤ 1 → r.Held m.agents
  crew : 1 < m.newSweeper.workers → r.resting = [] ∧
    ∀ s ∈ m.sweepers, ∀ i, r.holder? = some (.sweeper i) →
      Rota.stintAllowance ≤ r.allowance + s.queued.length

/-- Between two turns, moreover, everybody who can go on is there, and no worker among several has
the thread. -/
structure Paced (m : LiveMap ν) (r : Rota) : Prop extends m.Pace r where
  complete : m.Complete r
  passes : 1 < m.newSweeper.workers → ∀ i, r.holder? ≠ some (.worker i)

theorem Lone.level (h : m.Lone s) (hp : m.Pace r) (hp' : m.Pace r') (hs : Rota.Same r r') :
    Rota.Level m.agents r r' := by
  rcases Nat.lt_or_ge 1 m.newSweeper.workers with hmany | hfew
  · exact .inl ⟨(hp.crew hmany).1, (hp'.crew hmany).1⟩
  · have hheld := hp.pair hfew
    have hsingle := hheld.single
    obtain ⟨a, ha⟩ := Option.isSome_iff_exists.1 hheld.holder
    cases hq : r.queue with
    | nil => exact .inl ⟨(List.append_eq_nil_iff.1 hq).2, (List.append_eq_nil_iff.1
        (hs.queue.symm.trans hq)).2⟩
    | cons b bs =>
      -- Two of two agents are there.
      have hne : a ≠ b := by
        unfold Rota.Single at hsingle
        rw [ha, hq] at hsingle
        exact fun he => (List.nodup_cons.1 hsingle).1 (he ▸ List.mem_cons_self)
      have hhas : r.has a = true := Rota.has_iff.2 (.inl ha)
      have hhas' : r.has b = true := Rota.has_iff.2 (.inr (by rw [hq]; exact List.mem_cons_self))
      have hmem := hheld.mem a hhas
      have hmem' := hheld.mem b hhas'
      rw [h.agents] at hmem hmem' ⊢
      refine .inr fun c hc => ?_
      simp only [List.mem_cons, List.not_mem_nil, or_false] at hmem hmem' hc
      rcases hmem with rfl | rfl <;> rcases hmem' with rfl | rfl <;> rcases hc with rfl | rfl <;>
        first | exact hhas | exact hhas' | exact absurd rfl hne

namespace Paced

/-- Nobody among several workers, nor their sweeper, uses an allowance up. -/
theorem relieve_eq (h : m.Paced r) (hmany : 1 < m.newSweeper.workers) (hu : m.Uncrowded) :
    m.relieve r = r := by
  have hspent : m.isSpent r = false := by
    unfold isSpent
    cases ha : r.holder? with
    | none => simp
    | some a =>
      cases a with
      | worker i => exact absurd ha (h.passes hmany i)
      | sweeper i =>
        rw [Bool.and_eq_false_imp]
        intro hzero
        cases hi : m.sweepers[i]? with
        | none => simp [hi]
        | some s =>
          have hmem := List.mem_of_getElem? hi
          have hleft := (h.crew hmany).2 s hmem i ha
          have hroom := hu s hmem
          rw [decide_eq_true_iff] at hzero
          omega
  rw [relieve, hspent]
  rfl

theorem pace (h : m.Paced r) (hu : 1 < m.newSweeper.workers → m.Uncrowded)
    (hskips : n.Skips (m.relieve r) r₁) (hholder : r₁.holder?.isSome) : m.Pace r₁ := by
  refine ⟨fun hfew => ?_, fun hmany => ?_⟩
  · have hheld := h.pair hfew
    refine ⟨hholder, hskips.single (single_relieve hheld.single), fun a ha => hheld.mem a ?_⟩
    rw [← has_relieve m r a]
    exact hskips.has ha
  · rw [h.relieve_eq hmany (hu hmany)] at hskips
    obtain ⟨hresting, hstint⟩ := h.crew hmany
    refine ⟨hskips.resting hresting, fun s hs i hi => ?_⟩
    rcases hskips.eq_or_allowance with rfl | hwhole
    · exact hstint s hs i hi
    · rw [hwhole]
      exact Nat.le_add_right _ _

end Paced

/-- What a turn takes off the allowance of a sweeper goes into its queue. -/
theorem Lone.cost_le {s' : Sweeper ν} (h : m.Lone s) (hm : m.Hushed) (ho : m.Orderly t)
    (hne : ∀ i, t ≠ .work i) (hs' : (m.turn t).sweepers = [s']) (hw : 0 < s.workers) :
    s.queued.length + Rota.cost t ≤ s'.queued.length := by
  have ht := ho.turned
  generalize m.turn t = n at ht hs'
  cases ht with
  | work => exact absurd rfl (hne _)
  | hand hi hs =>
    obtain ⟨rfl, rfl⟩ := h.eq_of_getElem? hi
    rw [setSweeper, h.alone, List.set_cons_zero, List.cons.injEq] at hs'
    obtain ⟨rfl, -⟩ := hs'
    obtain ⟨x, rest, -, hs⟩ := Sweeper.hand?_cases hs
    cases hs with
    | accepted ho => simp [Sweeper.queued, ho, Rota.cost]
    | lost hnone =>
      rcases hnone with ho | ⟨o, ho, hzero⟩
      · simp [Sweeper.workers, ho] at hw
      · rw [Sweeper.workers_of_outbox? ho] at hw
        omega
  | look hi hs =>
    obtain ⟨rfl, rfl⟩ := h.eq_of_getElem? hi
    rw [setSweeper, h.alone, List.set_cons_zero, List.cons.injEq] at hs'
    obtain ⟨rfl, -⟩ := hs'
    obtain ⟨-, hs⟩ := Sweeper.look?_cases hs
    cases hs <;> exact Nat.le_refl _
  | @release i r s₁ w s₂ hi hs =>
    obtain ⟨rfl, rfl⟩ := h.eq_of_getElem? hi
    rw [setSweeper, h.alone, List.set_cons_zero, List.cons.injEq] at hs'
    obtain ⟨rfl, -⟩ := hs'
    obtain ⟨alarm?, hp, hs⟩ := Sweeper.release?_cases hs
    cases r with
    | leave | wake =>
      rw [hs.2.2]
      exact Nat.le_refl _
    | timer =>
      obtain ⟨a, rfl, hle, -⟩ := hs
      have hlt := hm s₁ (List.mem_of_getElem? hi) a hp
      exact absurd hle (Int.not_le.2 hlt)

theorem Lone.agents_turn (h : m.Lone s) (ho : m.Orderly t) : (m.turn t).agents = m.agents := by
  obtain ⟨s', hs', -⟩ := h.exists_sweeper_turned ho.turned
  simp [LiveMap.agents, hs', h.alone]

/-- A turn of whoever has the thread keeps the pace. -/
theorem Lone.paced_turn (h : m.Lone s) (hm : m.Hushed) (ho : m.Orderly t) (hp : m.Pace r)
    (ht : r.holderTurns.find? m.canTake = some t) :
    (m.turn t).Paced (m.rotaAfter r t (m.turn t)) := by
  have hnew : (m.turn t).newSweeper = m.newSweeper := newSweeper_move m (.turn t)
  have hagents := h.agents_turn ho
  obtain ⟨s', hs', -⟩ := h.exists_sweeper_turned ho.turned
  by_cases hwork : ∃ i, t = .work i
  · obtain ⟨i, rfl⟩ := hwork
    have hturned := ho.turned
    have hcomplete := complete_rotaAfter m r (.work i) (m.turn (.work i))
    generalize m.turn (.work i) = n at hnew hagents hturned hcomplete hs' ⊢
    cases hturned with
    | @work _ s₁ x s₂ hi hs =>
      obtain ⟨rfl, rfl⟩ := h.eq_of_getElem? hi
      have hset : (m.setSweeper 0 s₂).agents = m.agents := by
        simp [LiveMap.agents, setSweeper]
      rw [rotaAfter_work hi hs, h.workers] at hcomplete ⊢
      refine ⟨⟨fun hfew => ?_, fun hmany => ?_⟩, hcomplete, fun hmany i => ?_⟩
      · rw [hnew] at hfew
        rw [if_neg (Nat.not_lt.2 hfew), hagents]
        have hheld := hp.pair hfew
        exact held_enrol hagents (held_enrol hset ⟨hheld.holder, hheld.single, hheld.mem⟩)
      · rw [hnew] at hmany
        rw [if_pos hmany]
        simp [(hp.crew hmany).1]
      · rw [hnew] at hmany
        rw [if_pos hmany]
        simp
  · have hne : ∀ i, t ≠ .work i := fun i hi => hwork ⟨i, hi⟩
    have hcomplete := complete_rotaAfter m r t (m.turn t)
    rw [rotaAfter_of_ne_work m r _ hne] at hcomplete ⊢
    refine ⟨⟨fun hfew => ?_, fun hmany => ?_⟩, hcomplete, fun hmany i => ?_⟩
    · rw [hnew] at hfew
      have hheld := hp.pair hfew
      rw [hagents]
      exact held_enrol hagents ⟨hheld.holder, hheld.single, hheld.mem⟩
    · rw [hnew] at hmany
      obtain ⟨hresting, hstint⟩ := hp.crew hmany
      refine ⟨(resting_enrol _ _).trans hresting, fun s₁ hs₁ i hi => ?_⟩
      rw [hs', List.mem_singleton] at hs₁
      subst hs₁
      rw [holder?_enrol] at hi
      rw [allowance_enrol]
      have hleft := hstint s (by rw [h.alone]; exact List.mem_singleton_self s) i hi
      have hcost := h.cost_le hm ho hne hs' (by rw [h.workers]; omega)
      dsimp only
      omega
    · rw [holder?_enrol, holder?_of_find? ht, h.agent_eq ho.turned hne]
      simp

theorem Sparing.made_turn (h : (m.turn t).Sparing) :
    ∀ e ∈ m.made (.turn t), m.endsWorker e.key = false := by
  have hdelivered : (m.move (.turn t)).delivered = m.delivered ++ m.made (.turn t) :=
    delivered_move (by simp)
  have hends : (m.turn t).endsWorker = m.endsWorker := endsWorker_move m (.turn t)
  change ∀ e ∈ (m.move (.turn t)).delivered, (m.turn t).endsWorker e.key = false at h
  rw [hdelivered, hends] at h
  exact (List.forall_mem_append.1 h).2

theorem steps_one_add (hn : m.nextTurn? r = some (t, r₁)) (k : Nat) :
    m.steps (k + 1) r = (m.turn t).steps k (m.rotaAfter r₁ t (m.turn t)) := by
  rw [steps_succ, hn]

/-- One sweeper at work on a rota that is paced. From now on no callback ends its worker, and if
there are several workers the queue does not fill up. -/
structure UnderWay (m : LiveMap ν) (s : Sweeper ν) (r : Rota) : Prop extends m.Lone s where
  hushed : m.Hushed
  paced : m.Paced r
  spare : ∀ k, (m.steps k r).Sparing
  room : 1 < m.newSweeper.workers → ∀ k, (m.steps k r).Uncrowded

namespace UnderWay

variable (h : m.UnderWay s r)

include h

theorem pace_chosen (hp : m.Paced r') (hn : n.Skips (m.relieve r') r₁)
    (ht : r₁.holderTurns.find? n.canTake = some t) : m.Pace r₁ := by
  exact hp.pace (fun hmany => h.room hmany 0) hn (by rw [holder?_of_find? ht]; rfl)

theorem made (hn : m.nextTurn? r = some (t, r₁)) :
    ∀ e ∈ m.made (.turn t), m.endsWorker e.key = false := by
  have hnext := h.spare 1
  rw [steps_one_add hn] at hnext
  exact hnext.made_turn

theorem turn (hn : m.nextTurn? r = some (t, r₁)) :
    ∃ s', (m.turn t).UnderWay s' (m.rotaAfter r₁ t (m.turn t)) := by
  have ho := orderly_of_nextTurn? hn
  obtain ⟨hskips, ht⟩ := h.paced.complete.skips_of_nextTurn? hn
  have hpace := h.pace_chosen h.paced hskips ht
  obtain ⟨s', h'⟩ := h.toLone.turn ho (h.made hn)
  refine ⟨s', h', h.sound.hushed_turn h.hushed ho, h.paced_turn h.hushed ho hpace ht,
    fun k => ?_, fun hmany k => ?_⟩
  · rw [← steps_one_add hn]
    exact h.spare (k + 1)
  · rw [← steps_one_add hn]
    have hnew : (m.turn t).newSweeper = m.newSweeper := newSweeper_move m (.turn t)
    exact h.room (hnew ▸ hmany) (k + 1)

theorem crew (hp : m.Pace r₁) (hp' : m.Pace r') :
    ∀ s ∈ m.sweepers, 1 < s.workers → r₁.resting = [] ∧ r'.resting = [] := by
  intro s₁ hs₁ hmany
  rw [h.alone, List.mem_singleton] at hs₁
  rw [hs₁, h.workers] at hmany
  exact ⟨(hp.crew hmany).1, (hp'.crew hmany).1⟩

/-- As long as rotas are paced it makes no difference how far the round is. -/
theorem steps_same (hp : m.Paced r') (hs : Rota.Same r r') (k : Nat) :
    m.steps k r = m.steps k r' := by
  induction k generalizing m s r r' with
  | zero => rfl
  | succ k ih =>
    cases hn' : m.nextTurn? r' with
    | none =>
      have hn : m.nextTurn? r = none := nextTurn?_eq_none_iff.2 (nextTurn?_eq_none_iff.1 hn')
      rw [steps_succ, steps_succ, hn, hn']
    | some p =>
      obtain ⟨t, r₁'⟩ := p
      have ho := orderly_of_nextTurn? hn'
      obtain ⟨hskips', ht'⟩ := hp.complete.skips_of_nextTurn? hn'
      obtain ⟨r₁, hskips, hsame⟩ := hskips'.same (relieve_same hs rfl) fun _ => id
      have ht : r₁.holderTurns.find? m.canTake = some t := hsame.holderTurns ▸ ht'
      have hn := h.paced.complete.nextTurn?_of_skips hskips ht
      have hpace := h.pace_chosen h.paced hskips ht
      have hpace' := h.pace_chosen hp hskips' ht'
      have hagents := h.agents_turn ho
      have hafter : Rota.Same (m.rotaAfter r₁ t (m.turn t)) (m.rotaAfter r₁' t (m.turn t)) :=
        rotaAfter_same hsame (h.level hpace hpace' hsame) (h.crew hpace hpace') ho.canTake
          (holder?_of_find? ht) rfl rfl hagents hagents (fun _ _ _ _ _ _ _ _ _ => rfl)
          fun _ _ _ => rfl
      obtain ⟨s', h'⟩ := h.turn hn
      rw [steps_one_add hn, steps_one_add hn']
      exact ih h' (h.paced_turn h.hushed ho hpace' ht') hafter

end UnderWay

theorem steps_of_isAtRest (h : m.isAtRest = true) (k : Nat) (r : Rota) : m.steps k r = m := by
  cases k with
  | zero => rfl
  | succ k => rw [steps_succ, nextTurn?_eq_none_iff.2 h]

theorem steps_eq_of_isAtRest {j k : Nat} (hj : (m.steps j r).isAtRest = true)
    (hk : (m.steps k r).isAtRest = true) : m.steps j r = m.steps k r := by
  induction j generalizing m k r with
  | zero => exact (steps_of_isAtRest hj k r).symm
  | succ j ih =>
    cases k with
    | zero => exact steps_of_isAtRest hk (j + 1) r
    | succ k =>
      cases hn : m.nextTurn? r with
      | none => rw [steps_succ, steps_succ, hn]
      | some p =>
        rw [steps_one_add hn] at hj hk ⊢
        rw [steps_one_add hn]
        exact ih hj hk

theorem stepTurns_prefix {j k : Nat} (h : j ≤ k) (m : LiveMap ν) (r : Rota) :
    stepTurns j m r <+: stepTurns k m r := by
  induction j generalizing k m r with
  | zero => exact List.nil_prefix
  | succ j ih =>
    obtain ⟨k, rfl⟩ := Nat.exists_eq_add_of_le' h
    rw [← Nat.add_assoc, stepTurns, stepTurns]
    cases m.nextTurn? r with
    | none => exact List.prefix_rfl
    | some p => exact (List.prefix_cons_inj _).2 (ih (Nat.le_add_left j k) _ _)

/-- Whatever a map passes through while it settles, it passes through in its moves. -/
theorem Sound.exists_prefix (h : m.Sound) (k : Nat) :
    ∃ before rest, m.settleMoves = before ++ rest ∧ m.steps k m.rota = m.follow before := by
  rcases Nat.le_total k m.turnsLeft with hle | hge
  · obtain ⟨rest, hrest⟩ := stepTurns_prefix hle m m.rota
    refine ⟨(stepTurns k m m.rota).map .turn, rest.map .turn, ?_, ?_⟩
    · rw [settleMoves, ← hrest, List.map_append]
    · exact (path_stepTurns k m m.rota).eq_follow
  · refine ⟨m.settleMoves, [], (List.append_nil _).symm, ?_⟩
    rw [← (path_settle m).eq_follow]
    exact steps_eq_of_isAtRest (isAtRest_steps (fun _ _ hm ho => hm.turn ho)
      (fun _ _ hm ho => turnsLeft_turned_lt hm.consistent hm.idlePoll_pos ho.turned) k h hge _)
      h.isAtRest_settle

theorem canGo_worker (hs : m.sweepers = [s]) : m.canGo (.worker 0) = s.take?.isSome := by
  simp [canGo, Agent.turns, canTake, turn?_work, hs]

theorem Lone.exists_start (h : m.Lone s) (hgo : m.canGo (.sweeper 0) = true)
    (hidle : s.take? = none) :
    ∃ r, m.Paced r ∧ r.holder? = some (.sweeper 0) ∧ r.allowance = Rota.stintAllowance ∧
      r.queue = [] ∧ ∀ k, m.steps k r = m.steps k m.rota := by
  have hworker : m.canGo (.worker 0) = false := by rw [canGo_worker h.alone, hidle]; rfl
  have hholder : m.rota.holder? = none := by rw [rota, holder?_enrol]
  have hqueue : m.rota.queue = [.sweeper 0] := by
    rw [rota, enrol_eq, h.agents]
    simp [enlist, Rota.has, hgo, hworker, Rota.queue]
  have hrelieve : m.relieve m.rota = m.rota := by
    simp [relieve, isSpent, hholder]
  have hcomplete : m.Complete m.rota := complete_enrol _ _
  obtain ⟨r, hr, hh, hallowance, hnil, -⟩ := Rota.exists_next? hqueue
  have hskips : m.Skips (m.relieve m.rota) r := by
    rw [hrelieve]
    exact .next (by simp [Rota.holderTurns, hholder]) hr (.refl r)
  have hsome : r.holder?.isSome := by rw [hh]; rfl
  have hsingle : r.Single := by simp [Rota.Single, hh, hnil]
  have hheld : r.Held m.agents := by
    refine ⟨hsome, hsingle, fun a ha => ?_⟩
    rw [Rota.has_iff, hh, hnil, Option.some.injEq] at ha
    obtain rfl : .sweeper 0 = a := ha.resolve_right (by simp)
    rw [h.agents]
    exact List.mem_cons_self
  refine ⟨r, ⟨⟨fun _ => hheld, fun _ => ⟨(List.append_eq_nil_iff.1 hnil).2, fun _ _ _ _ => ?_⟩⟩,
    hcomplete.skips hskips, fun _ i => by simp [hh]⟩, hh, hallowance, hnil,
    fun k => hcomplete.steps_of_skips hskips hsome k⟩
  rw [hallowance]
  exact Nat.le_add_right _ _

end ExpiringMap.LiveMap
