import ExpiringMap.Proofs.LiveMap.Turns

namespace ExpiringMap

open LiveMap (Agent Turn)

namespace Rota

variable {r r' r₁ : Rota} {a : Agent}

def queue (r : Rota) : List Agent := r.line ++ r.resting

theorem has_iff : r.has a = true ↔ r.holder? = some a ∨ a ∈ r.queue := by simp [has, queue]

/-- Nobody is on the rota twice. -/
def Single (r : Rota) : Prop := (r.holder?.toList ++ r.queue).Nodup

/-- One of these has the thread, and nobody else is on the rota. -/
structure Held (as : List Agent) (r : Rota) : Prop where
  holder : r.holder?.isSome
  single : r.Single
  mem : ∀ a, r.has a = true → a ∈ as

/-- Whoever of these joins comes next in the same place on both rotas: nobody rests on either, or
nobody is left to join. -/
def Level (as : List Agent) (r r' : Rota) : Prop :=
  r.resting = [] ∧ r'.resting = [] ∨ ∀ a ∈ as, r.has a = true

/-- The same agent has the thread, for as long, and the same are to get it. -/
structure Same (r r' : Rota) : Prop where
  holder? : r.holder? = r'.holder?
  allowance : r.allowance = r'.allowance
  queue : r.queue = r'.queue

namespace Same

theorem has (h : Same r r') (a : Agent) : r.has a = r'.has a := by
  rw [Bool.eq_iff_iff, has_iff, has_iff, h.holder?, h.queue]

theorem holderTurns (h : Same r r') : r.holderTurns = r'.holderTurns := by
  rw [Rota.holderTurns, h.holder?, Rota.holderTurns]

theorem rest (h : Same r r') : Same r.rest r'.rest := by
  refine ⟨rfl, h.allowance, ?_⟩
  have hqueue := h.queue
  simp only [Rota.queue] at hqueue
  simp only [Rota.rest, Rota.queue, ← List.append_assoc, h.holder?, hqueue]

end Same

theorem has_rest (r : Rota) (a : Agent) : r.rest.has a = r.has a := by
  rw [Bool.eq_iff_iff, has_iff, has_iff]
  simp only [rest, queue, ← List.append_assoc, List.mem_append, Option.mem_toList, reduceCtorEq,
    false_or, or_comm]

theorem Single.rest (h : r.Single) : r.rest.Single := by
  unfold Single at h ⊢
  rw [List.nodup_append_comm] at h
  simpa [Rota.rest, queue] using h

theorem next?_eq_none (h : r.queue = []) : r.next? = none := by
  obtain ⟨hline, hresting⟩ := List.append_eq_nil_iff.1 h
  simp [next?, hline, hresting]

theorem exists_next? {as : List Agent} (h : r.queue = a :: as) :
    ∃ r₁, r.next? = some r₁ ∧ r₁.holder? = some a ∧ r₁.allowance = stintAllowance ∧
      r₁.queue = as ∧ (r.resting = [] → r₁.resting = []) := by
  by_cases hover : r.line.isEmpty ∨ r.stints = roundLength
  · change r.line ++ r.resting = a :: as at h
    simp only [next?, if_pos hover, h]
    exact ⟨_, rfl, rfl, rfl, by simp [queue], fun _ => rfl⟩
  · cases hline : r.line with
    | nil => simp [hline] at hover
    | cons b bs =>
      simp only [queue, hline, List.cons_append, List.cons.injEq] at h
      obtain ⟨rfl, rfl⟩ := h
      rw [hline] at hover
      simp only [next?, hline, if_neg hover]
      exact ⟨_, rfl, rfl, rfl, rfl, id⟩

theorem next?_cases (hn : r.next? = some r₁) :
    ∃ a, r.queue = a :: r₁.queue ∧ r₁.holder? = some a ∧ r₁.allowance = stintAllowance ∧
      (r.resting = [] → r₁.resting = []) := by
  cases hq : r.queue with
  | nil =>
    rw [next?_eq_none hq] at hn
    cases hn
  | cons a as =>
    obtain ⟨r₂, hr₂, hholder, hallowance, hqueue, hresting⟩ := exists_next? hq
    rw [hn] at hr₂
    cases hr₂
    exact ⟨a, by rw [hqueue], hholder, hallowance, hresting⟩

theorem Same.next? (h : Same r r') (hn : r'.next? = some r₁) :
    ∃ r₂, r.next? = some r₂ ∧ Same r₂ r₁ := by
  obtain ⟨a, hq, hholder, hallowance, -⟩ := next?_cases hn
  obtain ⟨r₂, hr₂, hholder', hallowance', hqueue, -⟩ := exists_next? (h.queue.trans hq)
  exact ⟨r₂, hr₂, hholder'.trans hholder.symm, hallowance'.trans hallowance.symm, hqueue⟩

theorem Single.next? (h : r.Single) (hn : r.next? = some r₁) : r₁.Single := by
  obtain ⟨a, hq, hholder, -⟩ := next?_cases hn
  unfold Single at h ⊢
  rw [hq] at h
  rw [hholder]
  exact (List.nodup_append.1 h).2.1

end Rota

namespace LiveMap

variable {ν : Type} {m n : LiveMap ν} {r r' r₁ : Rota} {a : Agent} {t : Turn}

theorem canGo_iff : m.canGo a = true ↔ (a.turns.find? m.canTake).isSome := by
  rw [canGo, List.any_eq_true, List.find?_isSome]

/-- From `r` the thread is given on to `r₁`, past those who cannot go on. -/
inductive Skips (m : LiveMap ν) : Rota → Rota → Prop
  | refl (q : Rota) : Skips m q q
  | next {q q₁ q₂ : Rota} (hidle : q.holderTurns.find? m.canTake = none) (hn : q.next? = some q₁)
      (h : Skips m q₁ q₂) : Skips m q q₂

namespace Skips

theorem resting (h : m.Skips r r₁) (hr : r.resting = []) : r₁.resting = [] := by
  induction h with
  | refl => exact hr
  | next _ hn _ ih =>
    obtain ⟨a, -, -, -, hresting⟩ := Rota.next?_cases hn
    exact ih (hresting hr)

theorem single (h : m.Skips r r₁) (hr : r.Single) : r₁.Single := by
  induction h with
  | refl => exact hr
  | next _ hn _ ih => exact ih (hr.next? hn)

theorem eq_or_allowance (h : m.Skips r r₁) : r₁ = r ∨ r₁.allowance = Rota.stintAllowance := by
  induction h with
  | refl => exact .inl rfl
  | next _ hn _ ih =>
    obtain ⟨a, -, -, hallowance, -⟩ := Rota.next?_cases hn
    rcases ih with rfl | ih
    · exact .inr hallowance
    · exact .inr ih

theorem has (h : m.Skips r r₁) (ha : r₁.has a = true) : r.has a = true := by
  induction h with
  | refl => exact ha
  | next _ hn _ ih =>
    obtain ⟨b, hq, hholder, -⟩ := Rota.next?_cases hn
    have hmem := Rota.has_iff.1 (ih ha)
    rw [hholder, Option.some.injEq] at hmem
    rw [Rota.has_iff, hq, List.mem_cons]
    exact .inr (hmem.imp_left Eq.symm)

theorem has_of_canGo (h : m.Skips r r₁) (hgo : m.canGo a = true) (ha : r.has a = true) :
    r₁.has a = true := by
  induction h with
  | refl => exact ha
  | next hidle hn _ ih =>
    obtain ⟨b, hq, hholder, -⟩ := Rota.next?_cases hn
    apply ih
    rcases Rota.has_iff.1 ha with ha | ha
    · simp only [Rota.holderTurns, ha, Option.map_some, Option.getD_some] at hidle
      rw [canGo_iff, hidle] at hgo
      cases hgo
    · rw [hq, List.mem_cons] at ha
      rw [Rota.has_iff, hholder, Option.some.injEq]
      exact ha.imp_left Eq.symm

/-- Who can do less has somebody to skip wherever the other has. -/
theorem same (h : n.Skips r' r₁) (hs : Rota.Same r r')
    (hle : ∀ t, m.canTake t = true → n.canTake t = true) :
    ∃ r₂, m.Skips r r₂ ∧ Rota.Same r₂ r₁ := by
  induction h generalizing r with
  | refl => exact ⟨r, .refl r, hs⟩
  | next hidle hn _ ih =>
    obtain ⟨r₂, hr₂, hs₂⟩ := hs.next? hn
    obtain ⟨r₃, hskips, hs₃⟩ := ih hs₂
    refine ⟨r₃, .next ?_ hr₂ hskips, hs₃⟩
    rw [hs.holderTurns, List.find?_eq_none]
    rw [List.find?_eq_none] at hidle
    exact fun t ht htake => hidle t ht (hle t htake)

end Skips

/-- The first turn that anybody on the rota can take, giving the thread on up to `k` times. -/
def choose (m : LiveMap ν) : Nat → Rota → Option (Turn × Rota)
  | 0, r => (r.holderTurns.find? m.canTake).map (·, r)
  | k + 1, r => ((r.holderTurns.find? m.canTake).map (·, r)).or (r.next?.bind (m.choose k))

theorem find?_following (m : LiveMap ν) (k : Nat) (r : Rota) :
    (((r :: r.following k).flatMap fun r => r.holderTurns.map (·, r)).find?
      fun p => m.canTake p.1) = m.choose k r := by
  induction k generalizing r with
  | zero =>
    rw [Rota.following, List.flatMap_singleton, find?_map_rota, choose]
  | succ k ih =>
    rw [List.flatMap_cons, List.find?_append, find?_map_rota, choose, Rota.following]
    congr 1
    cases r.next? with
    | none => rfl
    | some r₁ => exact ih r₁

theorem skips_of_choose {k : Nat} (h : m.choose k r = some (t, r₁)) :
    m.Skips r r₁ ∧ r₁.holderTurns.find? m.canTake = some t := by
  induction k generalizing r with
  | zero =>
    obtain ⟨t', ht, he⟩ := Option.map_eq_some_iff.1 h
    cases he
    exact ⟨.refl _, ht⟩
  | succ k ih =>
    rcases Option.or_eq_some_iff.1 h with h | ⟨hidle, h⟩
    · obtain ⟨t', ht, he⟩ := Option.map_eq_some_iff.1 h
      cases he
      exact ⟨.refl _, ht⟩
    · obtain ⟨r₂, hr₂, h⟩ := Option.bind_eq_some_iff.1 h
      obtain ⟨hskips, ht⟩ := ih h
      exact ⟨.next (Option.map_eq_none_iff.1 hidle) hr₂ hskips, ht⟩

theorem Skips.choose (h : m.Skips r r₁) :
    m.choose r.queue.length r = m.choose r₁.queue.length r₁ := by
  induction h with
  | refl => rfl
  | @next q q₁ _ hidle hn _ ih =>
    obtain ⟨a, hq, -⟩ := Rota.next?_cases hn
    rw [hq, List.length_cons, LiveMap.choose, hidle, hn]
    exact ih

theorem choose_of_holder (k : Nat) (h : r.holderTurns.find? m.canTake = some t) :
    m.choose k r = some (t, r) := by
  cases k with
  | zero => rw [choose, h, Option.map_some]
  | succ k => rw [choose, h, Option.map_some, Option.some_or]

theorem canGo_of_choose_eq_none (h : m.choose r.queue.length r = none) (ha : r.has a = true) :
    m.canGo a = false := by
  rw [Bool.eq_false_iff]
  intro hgo
  generalize hk : r.queue.length = k at h
  induction k generalizing r with
  | zero =>
    rcases Rota.has_iff.1 ha with ha | ha
    · rw [canGo_iff] at hgo
      rw [choose, Rota.holderTurns, ha, Option.map_some, Option.getD_some,
        Option.map_eq_none_iff] at h
      rw [h] at hgo
      cases hgo
    · rw [List.length_eq_zero_iff.1 hk] at ha
      cases ha
  | succ k ih =>
    rw [choose, Option.or_eq_none_iff, Option.map_eq_none_iff] at h
    obtain ⟨hidle, h⟩ := h
    cases hq : r.queue with
    | nil => simp [hq] at hk
    | cons b as =>
      obtain ⟨r₁, hn, hholder, -, hqueue, -⟩ := Rota.exists_next? hq
      rw [hn, Option.bind_some] at h
      have ha₁ := (Skips.next hidle hn (.refl r₁)).has_of_canGo hgo ha
      refine ih ha₁ ?_ h
      rw [hqueue]
      rw [hq] at hk
      exact Nat.succ.inj hk

/-- Everybody who can go on is on the rota. -/
def Complete (m : LiveMap ν) (r : Rota) : Prop :=
  ∀ a ∈ m.agents, m.canGo a = true → r.has a = true

/-- The rota without a holder that has used up its allowance. -/
def relieve (m : LiveMap ν) (r : Rota) : Rota := if m.isSpent r then r.rest else r

theorem has_relieve (m : LiveMap ν) (r : Rota) (a : Agent) : (m.relieve r).has a = r.has a := by
  unfold relieve
  split
  · exact r.has_rest a
  · rfl

theorem single_relieve (h : r.Single) : (m.relieve r).Single := by
  unfold relieve
  split
  · exact h.rest
  · exact h

theorem Complete.nextTurn? (h : m.Complete r) :
    m.nextTurn? r = m.choose (m.relieve r).queue.length (m.relieve r) := by
  have hproposals : m.nextTurn? r =
      (m.choose (m.relieve r).queue.length (m.relieve r)).or
        ((m.turns.find? m.canTake).map (·, m.relieve r)) := by
    rw [LiveMap.nextTurn?, proposals, List.find?_append, find?_map_rota]
    refine congrArg₂ Option.or ?_ rfl
    rw [← find?_following, Rota.queue, List.length_append]
    rfl
  rw [hproposals]
  cases hc : m.choose (m.relieve r).queue.length (m.relieve r) with
  | some p => rfl
  | none =>
    rw [Option.none_or, Option.map_eq_none_iff, List.find?_eq_none]
    intro t ht htake
    obtain ⟨a, ha, hta⟩ := List.mem_flatMap.1 ht
    have hgo : m.canGo a = true := List.any_eq_true.2 ⟨t, hta, htake⟩
    have hidle := canGo_of_choose_eq_none hc ((has_relieve m r a).trans (h a ha hgo))
    rw [hgo] at hidle
    cases hidle

theorem Complete.skips_of_nextTurn? (h : m.Complete r) (hn : m.nextTurn? r = some (t, r₁)) :
    m.Skips (m.relieve r) r₁ ∧ r₁.holderTurns.find? m.canTake = some t := by
  rw [h.nextTurn?] at hn
  exact skips_of_choose hn

theorem Complete.nextTurn?_of_skips (h : m.Complete r) (hskips : m.Skips (m.relieve r) r₁)
    (ht : r₁.holderTurns.find? m.canTake = some t) : m.nextTurn? r = some (t, r₁) := by
  rw [h.nextTurn?, hskips.choose]
  exact choose_of_holder _ ht

theorem isSpent_same (hs : Rota.Same r r') (hsweepers : n.sweepers = m.sweepers) :
    n.isSpent r' = m.isSpent r := by
  unfold isSpent
  rw [hs.allowance, hs.holder?, hsweepers]

theorem relieve_same (hs : Rota.Same r r') (hsweepers : n.sweepers = m.sweepers) :
    Rota.Same (m.relieve r) (n.relieve r') := by
  unfold relieve
  rw [isSpent_same hs hsweepers]
  split
  · exact hs.rest
  · exact hs

theorem Complete.nextTurn?_of_holder (h : m.Complete r) (hspent : m.isSpent r = false)
    (ht : r.holderTurns.find? m.canTake = some t) : m.nextTurn? r = some (t, r) := by
  have hrelieve : m.relieve r = r := by rw [relieve, hspent]; rfl
  exact h.nextTurn?_of_skips (hrelieve.symm ▸ .refl r) ht

theorem isSpent_of_skips (hskips : m.Skips (m.relieve r) r₁) (hh : r₁.holder?.isSome) :
    m.isSpent r₁ = false := by
  rcases hskips.eq_or_allowance with rfl | hwhole
  · cases hs : m.isSpent r with
    | true =>
      rw [relieve, hs, if_pos rfl] at hh
      cases hh
    | false => rwa [relieve, hs, if_neg (by simp)]
  · simp [isSpent, hwhole, Rota.stintAllowance]

theorem Complete.skips (hc : m.Complete r) (hskips : m.Skips (m.relieve r) r₁) :
    m.Complete r₁ := by
  intro a ha hgo
  exact hskips.has_of_canGo hgo ((has_relieve m r a).trans (hc a ha hgo))

/-- To give the thread on past those who have nothing to do changes nothing. -/
theorem Complete.steps_of_skips (hc : m.Complete r) (hskips : m.Skips (m.relieve r) r₁)
    (hh : r₁.holder?.isSome) (k : Nat) : m.steps k r₁ = m.steps k r := by
  have hrelieve : m.relieve r₁ = r₁ := by rw [relieve, isSpent_of_skips hskips hh]; rfl
  have hnext : m.nextTurn? r₁ = m.nextTurn? r := by
    rw [hc.nextTurn?, (hc.skips hskips).nextTurn?, hrelieve, hskips.choose]
  cases k with
  | zero => rfl
  | succ k => rw [steps_succ, steps_succ, hnext]

def enlist (m : LiveMap ν) (r : Rota) (a : Agent) : Rota :=
  if !r.has a && m.canGo a then { r with line := r.line ++ [a] } else r

theorem enrol_eq (m : LiveMap ν) (r : Rota) : m.enrol r = m.agents.foldl m.enlist r := rfl

theorem enlist_cases (m : LiveMap ν) (r : Rota) (a : Agent) :
    (m.enlist r a = r ∧ (m.canGo a = true → r.has a = true)) ∨
      (m.enlist r a = { r with line := r.line ++ [a] } ∧ m.canGo a = true ∧ r.has a = false) := by
  unfold enlist
  cases r.has a <;> cases m.canGo a <;> simp

/-- What every agent that joins keeps, all who join keep. -/
theorem enrol_induct {P : Rota → Prop} (hjoin : ∀ q a, P q → a ∈ m.agents → q.has a = false →
    P { q with line := q.line ++ [a] }) (h : P r) : P (m.enrol r) := by
  have hfold (as : List Agent) (hagents : ∀ a ∈ as, a ∈ m.agents) {r : Rota} (h : P r) :
      P (as.foldl m.enlist r) := by
    induction as generalizing r with
    | nil => exact h
    | cons a as ih =>
      obtain ⟨ha, has⟩ := List.forall_mem_cons.1 hagents
      refine ih has ?_
      rcases m.enlist_cases r a with ⟨hsame, -⟩ | ⟨hjoined, -, hnew⟩
      · rw [hsame]
        exact h
      · rw [hjoined]
        exact hjoin r a h ha hnew
  exact hfold m.agents (fun _ => id) h

@[simp] theorem holder?_enrol (m : LiveMap ν) (r : Rota) : (m.enrol r).holder? = r.holder? :=
  enrol_induct (P := fun q => q.holder? = r.holder?) (fun _ _ h _ _ => h) rfl

@[simp] theorem allowance_enrol (m : LiveMap ν) (r : Rota) :
    (m.enrol r).allowance = r.allowance :=
  enrol_induct (P := fun q => q.allowance = r.allowance) (fun _ _ h _ _ => h) rfl

@[simp] theorem resting_enrol (m : LiveMap ν) (r : Rota) : (m.enrol r).resting = r.resting :=
  enrol_induct (P := fun q => q.resting = r.resting) (fun _ _ h _ _ => h) rfl

theorem has_join {q : Rota} {b : Agent} :
    ({ q with line := q.line ++ [b] } : Rota).has a = true ↔ q.has a = true ∨ a = b := by
  simp only [Rota.has_iff, Rota.queue, List.mem_append, List.mem_singleton]
  tauto

theorem has_enrol_of_has (h : r.has a = true) : (m.enrol r).has a = true :=
  enrol_induct (P := fun q => q.has a = true) (fun _ _ h _ _ => has_join.2 (.inl h)) h

theorem single_enrol (h : r.Single) : (m.enrol r).Single := by
  refine enrol_induct (fun q a hq _ hnew => ?_) h
  have hnot : a ∉ q.holder?.toList ++ q.line ++ q.resting := by
    rw [Bool.eq_false_iff, ne_eq, Rota.has_iff] at hnew
    simpa [Rota.queue, eq_comm] using hnew
  unfold Rota.Single Rota.queue at hq ⊢
  rw [← List.append_assoc] at hq
  have hmiddle := List.nodup_middle.2 (List.nodup_cons.2 ⟨hnot, hq⟩)
  simpa using hmiddle

theorem held_enrol {as : List Agent} (hm : m.agents = as) (h : r.Held as) :
    (m.enrol r).Held as := by
  refine ⟨by rw [holder?_enrol]; exact h.holder, single_enrol h.single, ?_⟩
  refine enrol_induct (P := fun q => ∀ a, q.has a = true → a ∈ as) ?_ h.mem
  intro q b hq hb _ a ha
  rcases has_join.1 ha with ha | rfl
  · exact hq a ha
  · exact hm ▸ hb

theorem complete_enrol (m : LiveMap ν) (r : Rota) : m.Complete (m.enrol r) := by
  have hfold (as : List Agent) (r : Rota) :
      (∀ a, r.has a = true → (as.foldl m.enlist r).has a = true) ∧
        ∀ a ∈ as, m.canGo a = true → (as.foldl m.enlist r).has a = true := by
    induction as generalizing r with
    | nil => exact ⟨fun _ => id, by simp⟩
    | cons b as ih =>
      obtain ⟨hkeeps, hjoins⟩ := ih (m.enlist r b)
      rcases m.enlist_cases r b with ⟨hsame, hb⟩ | ⟨hjoined, -⟩
      · rw [List.foldl_cons, hsame]
        rw [hsame] at hkeeps hjoins
        refine ⟨hkeeps, fun a ha hgo => ?_⟩
        rcases List.mem_cons.1 ha with rfl | ha
        · exact hkeeps a (hb hgo)
        · exact hjoins a ha hgo
      · rw [List.foldl_cons, hjoined]
        rw [hjoined] at hkeeps hjoins
        refine ⟨fun a ha => hkeeps a (has_join.2 (.inl ha)), fun a ha hgo => ?_⟩
        rcases List.mem_cons.1 ha with rfl | ha
        · exact hkeeps a (has_join.2 (.inr rfl))
        · exact hjoins a ha hgo
  exact (hfold m.agents r).2

theorem enrol_eq_self (h : m.Complete r) : m.enrol r = r := by
  have hfold (as : List Agent) (has : ∀ a ∈ as, m.canGo a = true → r.has a = true) :
      as.foldl m.enlist r = r := by
    induction as with
    | nil => rfl
    | cons a as ih =>
      obtain ⟨ha, has⟩ := List.forall_mem_cons.1 has
      rw [List.foldl_cons]
      rcases m.enlist_cases r a with ⟨hsame, -⟩ | ⟨-, hgo, hnew⟩
      · rw [hsame]
        exact ih has
      · rw [ha hgo] at hnew
        cases hnew
  exact hfold m.agents h

theorem enrol_same {as : List Agent} (hm : m.agents = as) (hn : n.agents = as)
    (hs : Rota.Same r r') (hl : Rota.Level as r r')
    (hgo : ∀ a ∈ as, r.has a = false → n.canGo a = m.canGo a) :
    Rota.Same (m.enrol r) (n.enrol r') := by
  have hfold (as : List Agent) {r r' : Rota} (hs : Rota.Same r r')
      (hl : Rota.Level as r r') (hgo : ∀ a ∈ as, r.has a = false → n.canGo a = m.canGo a) :
      Rota.Same (as.foldl m.enlist r) (as.foldl n.enlist r') := by
    induction as generalizing r r' with
    | nil => exact hs
    | cons a as ih =>
      obtain ⟨ha, has⟩ := List.forall_mem_cons.1 hgo
      have hboth : (m.enlist r a = r ∧ n.enlist r' a = r') ∨
          (m.enlist r a = { r with line := r.line ++ [a] } ∧
            n.enlist r' a = { r' with line := r'.line ++ [a] } ∧ r.has a = false) := by
        unfold enlist
        rw [← hs.has a]
        cases hr : r.has a with
        | true => exact .inl ⟨rfl, rfl⟩
        | false =>
          rw [ha hr]
          cases m.canGo a with
          | true => exact .inr ⟨rfl, rfl, rfl⟩
          | false => exact .inl ⟨rfl, rfl⟩
      rw [List.foldl_cons, List.foldl_cons]
      rcases hboth with ⟨hm, hn⟩ | ⟨hm, hn, hnew⟩
      · rw [hm, hn]
        exact ih hs (hl.imp_right fun h b hb => h b (List.mem_cons_of_mem _ hb)) has
      · rw [hm, hn]
        rcases hl with ⟨hr, hr'⟩ | hl
        · refine ih ⟨hs.holder?, hs.allowance, ?_⟩ (.inl ⟨hr, hr'⟩) fun b hb hnot => has b hb ?_
          · have hqueue := hs.queue
            simp only [Rota.queue, hr, hr', List.append_nil] at hqueue ⊢
            rw [hqueue]
          · rw [Bool.eq_false_iff] at hnot ⊢
            exact fun hb => hnot (has_join.2 (.inl hb))
        · rw [hl a List.mem_cons_self] at hnew
          cases hnew
  rw [enrol_eq, enrol_eq, hm, hn]
  exact hfold as hs hl hgo

theorem level_enrol {as : List Agent} (hl : Rota.Level as r r') :
    Rota.Level as (m.enrol r) (n.enrol r') := by
  refine hl.imp (fun h => ?_) fun h a ha => has_enrol_of_has (h a ha)
  rwa [resting_enrol, resting_enrol]

end LiveMap

end ExpiringMap
