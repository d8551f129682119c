import ExpiringMap.Proofs.LiveMap.Deliveries

namespace ExpiringMap.LiveMap

variable {ν : Type} {m : LiveMap ν}

/-- What has been taken out and not delivered yet. -/
def inHand (m : LiveMap ν) : List (Expired ν) := m.sweepers.flatMap (·.inHand)

/-- One part is replaced, and what that leaves over or takes in is the same on both sides. -/
theorem flatMap_set_perm {α β : Type} {f : α → List β} {xs : List α} {i : Nat} {a b : α}
    {ys zs : List β} (hi : xs[i]? = some a) (h : f a ++ ys = zs ++ f b) :
    (xs.flatMap f ++ ys).Perm (zs ++ (xs.set i b).flatMap f) := by
  induction xs generalizing i with
  | nil => cases hi
  | cons x xs ih =>
    cases i with
    | zero =>
      cases hi
      rw [List.set_cons_zero, List.flatMap_cons, List.flatMap_cons, ← List.append_assoc, ← h,
        List.append_assoc, List.append_assoc]
      exact List.perm_append_comm.append_left _
    | succ i =>
      rw [List.set_cons_succ, List.flatMap_cons, List.flatMap_cons, List.append_assoc]
      refine ((ih hi).append_left (f x)).trans ?_
      rw [← List.append_assoc, ← List.append_assoc]
      exact List.perm_append_comm.append_right _

theorem flatMap_eq_nil_of_new {ss : List (Sweeper ν)} (h : ∀ s ∈ ss, s = m.newSweeper) :
    ss.flatMap (·.inHand) = [] := by
  rw [List.flatMap_eq_nil_iff]
  intro s hs
  rw [h s hs]
  exact inHand_newSweeper m

theorem inHand_prune (m : LiveMap ν) : m.prune.inHand = m.inHand := by
  unfold inHand prune
  induction m.sweepers with
  | nil => rfl
  | cons s ss ih =>
    rw [List.filter_cons, List.flatMap_cons, ← ih]
    cases hs : s.isFinished with
    | true => simp [Sweeper.inHand_of_isFinished hs]
    | false => rfl

theorem inHand_leave (m : LiveMap ν) : m.leave.inHand = m.inHand := by
  rw [inHand, leave, List.flatMap_map]
  rfl

namespace Steady

theorem inHand_move (h : m.Steady) {mv : Move ν}
    (hworkers : ∀ s ∈ (m.move mv).sweepers, 0 < s.workers) :
    (m.inHand ++ m.taken mv).Perm ((m.made mv).map Event.item ++ (m.move mv).inHand) := by
  cases mv with
  | call c =>
    obtain ⟨ss, hss, hnew, -⟩ := sweepers_call m c
    have hsame : (m.call c).1.inHand = m.inHand := by
      rw [inHand, hss, List.flatMap_append, flatMap_eq_nil_of_new hnew, List.append_nil]
      rfl
    exact .of_eq ((List.append_nil _).trans hsame.symm)
  | turn t =>
    rw [LiveMap.move] at hworkers ⊢
    rcases m.turn_eq_self_or_turned t with ⟨ht, hm⟩ | ht
    · rw [taken_eq_nil ht, made_eq_nil ht, hm]
      exact .of_eq (List.append_nil _)
    · generalize m.turn t = m' at ht hworkers ⊢
      obtain ⟨s, s', ss, hi, hsweepers, hnew, hp⟩ := h.exists_passes_turned ht
      have hmem : s' ∈ m.sweepers.set t.sweeper s' :=
        List.mem_set (List.getElem?_eq_some_iff.1 hi).1 s'
      have hpos := hworkers s' (hsweepers ▸ List.mem_append_left ss hmem)
      rw [inHand, inHand, hsweepers, List.flatMap_append, flatMap_eq_nil_of_new hnew,
        List.append_nil]
      exact flatMap_set_perm hi (hp.kept hpos)
  | wait | report => exact .of_eq (List.append_nil _)
  | leave => exact .of_eq ((List.append_nil _).trans m.inHand_leave.symm)
  | prune => exact .of_eq ((List.append_nil _).trans m.inHand_prune.symm)

theorem inHand_follow (h : m.Steady) {mvs : List (Move ν)} (hmanned : m.Manned mvs) :
    (m.inHand ++ m.takenIn mvs).Perm
      ((m.madeIn mvs).map Event.item ++ (m.follow mvs).inHand) := by
  induction mvs generalizing m with
  | nil => exact .of_eq (List.append_nil _)
  | cons mv mvs ih =>
    have hrest := hmanned.of_cons.2
    have hmove := h.inHand_move fun s hs => hrest [] mvs rfl s hs
    have hhead := hmove.append_right ((m.move mv).takenIn mvs)
    have htail := (ih (h.move mv) hrest).append_left ((m.made mv).map Event.item)
    simp only [List.append_assoc] at hhead
    simp only [takenIn, madeIn, List.map_append, List.append_assoc]
    exact hhead.trans htail

theorem inHand_eq_nil (h : m.Steady) (hr : m.isAtRest = true) : m.inHand = [] :=
  List.flatMap_eq_nil_iff.2 fun _ hs => h.inHand_of_isAtRest hr hs

end Steady

end ExpiringMap.LiveMap
