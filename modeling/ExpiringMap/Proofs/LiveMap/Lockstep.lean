import ExpiringMap.Proofs.LiveMap.View

namespace ExpiringMap.LiveMap

open Sweeper (goneOff any_goneOff)

variable {ν : Type} {v : View ν} {m m' : LiveMap ν}

theorem agents_seen (v : View ν) (m : LiveMap ν) : (m.seen v).agents = m.agents := by
  simp only [agents, seen, List.length_map]

theorem isSpent_seen (v : View ν) (m : LiveMap ν) (r : Rota) :
    (m.seen v).isSpent r = m.isSpent r := by
  unfold isSpent
  cases r.holder? with
  | none => rfl
  | some a =>
    cases a with
    | worker i => rfl
    | sweeper i => simp only [getElem?_seen, Option.any_map, Sweeper.isLooking_realarm]

theorem turnsLeft_seen (v : View ν) (m : LiveMap ν) : (m.seen v).turnsLeft = m.turnsLeft := by
  unfold turnsLeft
  rw [now_seen, sweepers_seen, Sweeper.turnsLeft_realarm (any_goneOff m.now)]
  rfl

namespace Sound

variable (h : m.Sound)

include h

theorem canTake_seen (v : View ν) (t : Turn) : (m.seen v).canTake t = m.canTake t := by
  have ht := congrArg Option.isSome (h.turn?_seen v t)
  rw [Option.isSome_map, Option.isSome_map] at ht
  exact ht

theorem canGo_seen (v : View ν) (a : Agent) : (m.seen v).canGo a = m.canGo a := by
  have hcan : (m.seen v).canTake = m.canTake := funext (h.canTake_seen v)
  rw [canGo, hcan, canGo]

theorem enrol_seen (v : View ν) (r : Rota) : (m.seen v).enrol r = m.enrol r := by
  have hgo : (m.seen v).canGo = m.canGo := funext (h.canGo_seen v)
  rw [enrol, agents_seen, hgo, enrol]

theorem rota_seen (v : View ν) : (m.seen v).rota = m.rota := by
  unfold rota
  rw [h.enrol_seen, sweepers_seen, List.foldl_map]
  simp only [Sweeper.isLooking_realarm, Sweeper.workers_realarm]

theorem nextTurn?_seen (v : View ν) (r : Rota) : (m.seen v).nextTurn? r = m.nextTurn? r := by
  have hproposals : (m.seen v).proposals r = m.proposals r := by
    rw [proposals, isSpent_seen, turns, agents_seen, proposals, turns]
  unfold nextTurn?
  rw [hproposals]
  congr 1
  funext p
  exact h.canTake_seen v p.1

theorem rotaAfter_seen (h' : m'.Sound) (v : View ν) (r : Rota) (t : Turn) :
    (m.seen v).rotaAfter r t (m'.seen v) = m.rotaAfter r t m' := by
  cases t with
  | work i =>
    simp only [rotaAfter, getElem?_seen]
    cases hi : m.sweepers[i]? with
    | none => exact h'.enrol_seen v _
    | some s =>
      simp only [Option.map_some, Option.bind_some, Sweeper.take?_realarm, Option.map_map]
      cases ht : s.take? with
      | none => exact h'.enrol_seen v _
      | some p =>
        have hset : (m.seen v).setSweeper i (p.2.realarm (goneOff m.now)) =
            (m.setSweeper i p.2).seen v := setSweeper_seen v m m.watched i p.2
        simp only [Option.map_some, Function.comp_apply, Sweeper.workers_realarm, hset,
          (h.take hi ht).enrol_seen, h'.enrol_seen]
  | hand i => exact h'.enrol_seen v _
  | look i => exact h'.enrol_seen v _
  | release i r => exact h'.enrol_seen v _

end Sound

theorem seen_turn (h : m.Sound) (h' : m'.Sound) (hs : m.seen v = m'.seen v) (t : Turn) :
    (m.turn t).seen v = (m'.turn t).seen v := by
  have ht : (m.turn? t).map (seen v) = (m'.turn? t).map (seen v) := by
    rw [← h.turn?_seen v, hs, h'.turn?_seen v]
  unfold turn
  cases hm : m.turn? t with
  | none =>
    rw [hm] at ht
    rw [Option.map_eq_none_iff.1 ht.symm]
    exact hs
  | some n =>
    rw [hm] at ht
    obtain ⟨n', hn', hseen⟩ := Option.map_eq_some_iff.1 ht.symm
    rw [hn']
    exact hseen.symm

theorem seen_steps (n : Nat) (h : m.Sound) (h' : m'.Sound) (hs : m.seen v = m'.seen v)
    (r : Rota) : (m.steps n r).seen v = (m'.steps n r).seen v := by
  induction n generalizing m m' r with
  | zero => exact hs
  | succ n ih =>
    have hnext : m.nextTurn? r = m'.nextTurn? r := by
      rw [← h.nextTurn?_seen v, hs, h'.nextTurn?_seen]
    rw [steps_succ, steps_succ, ← hnext]
    cases hm : m.nextTurn? r with
    | none => exact hs
    | some p =>
      obtain ⟨t, r'⟩ := p
      -- Both take the turn `t`, on the same rota.
      have hturn := h.turn (orderly_of_nextTurn? hm)
      have hturn' := h'.turn (orderly_of_nextTurn? (hnext.symm.trans hm))
      have hseen := seen_turn h h' hs t
      have hrota : m.rotaAfter r' t (m.turn t) = m'.rotaAfter r' t (m'.turn t) := by
        rw [← h.rotaAfter_seen hturn v, hs, hseen, h'.rotaAfter_seen hturn']
      simp only [hrota]
      exact ih hturn hturn' hseen _

/-- Maps that look the same look the same when they have settled. -/
theorem seen_settle (h : m.Sound) (h' : m'.Sound) (hs : m.seen v = m'.seen v) :
    m.settle.seen v = m'.settle.seen v := by
  have hleft : m.turnsLeft = m'.turnsLeft := by
    rw [← turnsLeft_seen v m, hs, turnsLeft_seen]
  have hrota : m.rota = m'.rota := by
    rw [← h.rota_seen v, hs, h'.rota_seen]
  rw [settle, settle, hleft, hrota]
  exact seen_steps _ h h' hs _

end ExpiringMap.LiveMap
