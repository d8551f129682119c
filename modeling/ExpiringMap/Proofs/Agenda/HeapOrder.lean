import ExpiringMap.Agenda.Basic
import Mathlib.Logic.Equiv.Basic
import Mathlib.Order.Lattice

/-!
The order of a heap in an array, for any labels `d` on its first `n` slots. A sift swaps one slot
with its parent or with its earlier child; all that it needs to know is that this slot alone may be
out of order.
-/

namespace ExpiringMap.Agenda

variable {δ : Type} [LinearOrder δ] {d d' : Nat → δ} {n i c : Nat}

/-- No slot comes before its parent. -/
def InOrder (d : Nat → δ) (n : Nat) : Prop := ∀ j, 0 < j → j < n → d (parent j) ≤ d j

/-- Every pair of slots that does not touch slot `i` is in order, and so are the slots above and
below `i` with each other. -/
structure InOrderBut (d : Nat → δ) (n i : Nat) : Prop where
  off : ∀ j, 0 < j → j < n → j ≠ i → parent j ≠ i → d (parent j) ≤ d j
  across : 0 < i → ∀ j, 0 < j → j < n → parent j = i → d (parent i) ≤ d j

def NotAfterChildren (d : Nat → δ) (n i : Nat) : Prop :=
  ∀ j, 0 < j → j < n → parent j = i → d i ≤ d j

def NotBeforeParent (d : Nat → δ) (i : Nat) : Prop := 0 < i → d (parent i) ≤ d i

theorem parent_lt (h : 0 < i) : parent i < i := by
  unfold parent; omega

theorem InOrder.root_le (h : InOrder d n) {j : Nat} (hj : j < n) : d 0 ≤ d j := by
  -- The parent of a slot is before it, but not right before it.
  induction j using Nat.strongRecOn with
  | ind j ih =>
    rcases Nat.eq_zero_or_pos j with rfl | hpos
    · exact le_rfl
    · have hp := parent_lt hpos
      exact (ih _ hp (Nat.lt_trans hp hj)).trans (h j hpos hj)

theorem InOrder.mono (h : InOrder d n) {m : Nat} (hm : m ≤ n) (hd : ∀ j, j < m → d' j = d j) :
    InOrder d' m := by
  intro j hj hjm
  rw [hd j hjm, hd _ (by have := parent_lt hj; omega)]
  exact h j hj (by omega)

/-- Whatever happens to the label of one slot of a heap in order, no other slot is out of order. -/
theorem InOrder.relabel (h : InOrder d n) (hi : i < n) (hd : ∀ j, j < n → j ≠ i → d' j = d j) :
    InOrderBut d' n i where
  off j hj hjn hji hpi := by
    have hp := parent_lt hj
    rw [hd j hjn hji, hd (parent j) (by omega) hpi]
    exact h j hj hjn
  across hpos j hj hjn hpj := by
    have hp := parent_lt hpos
    have hlt := parent_lt hj
    rw [hd j hjn (by omega), hd (parent i) (by omega) (by omega)]
    exact (h i hpos hi).trans (hpj ▸ h j hj hjn)

theorem InOrderBut.inOrder (h : InOrderBut d n i) (hc : NotAfterChildren d n i)
    (hp : NotBeforeParent d i) : InOrder d n := by
  intro j hj hjn
  by_cases hji : j = i
  · subst hji
    exact hp hj
  · by_cases hpi : parent j = i
    · rw [hpi]
      exact hc j hj hjn hpi
    · exact h.off j hj hjn hji hpi

theorem InOrderBut.raise (h : InOrderBut d n i) (hpos : 0 < i) (hi : i < n)
    (hup : d i < d (parent i)) :
    InOrderBut (d ∘ Equiv.swap i (parent i)) n (parent i) ∧
      NotAfterChildren (d ∘ Equiv.swap i (parent i)) n (parent i) := by
  have hp := parent_lt hpos
  refine ⟨⟨?_, ?_⟩, ?_⟩
  · intro j hj hjn hjp hpp
    have hji : j ≠ i := fun e => hpp (e ▸ rfl)
    rw [Function.comp_apply, Function.comp_apply, Equiv.swap_apply_of_ne_of_ne hji hjp]
    by_cases hpi : parent j = i
    · rw [hpi, Equiv.swap_apply_left]
      exact h.across hpos j hj hjn hpi
    · rw [Equiv.swap_apply_of_ne_of_ne hpi hpp]
      exact h.off j hj hjn hji hpi
  · intro hpp j hj hjn hpj
    have hgp := parent_lt hpp
    rw [Function.comp_apply, Function.comp_apply,
      Equiv.swap_apply_of_ne_of_ne (x := parent (parent i)) (by omega) (by omega)]
    -- The slot above the old parent was in order with it, and `i` comes up between the two.
    have habove : d (parent (parent i)) ≤ d (parent i) :=
      h.off (parent i) hpp (by omega) (by omega) (by omega)
    by_cases hji : j = i
    · rwa [hji, Equiv.swap_apply_left]
    · have hlt := parent_lt hj
      rw [Equiv.swap_apply_of_ne_of_ne hji (by omega)]
      exact habove.trans (hpj ▸ h.off j hj hjn hji (by omega))
  · intro j hj hjn hpj
    have hlt := parent_lt hj
    rw [Function.comp_apply, Function.comp_apply, Equiv.swap_apply_right]
    by_cases hji : j = i
    · rw [hji, Equiv.swap_apply_left]
      exact hup.le
    · rw [Equiv.swap_apply_of_ne_of_ne hji (by omega)]
      have hsib := h.off j hj hjn hji (by omega)
      rw [hpj] at hsib
      exact hup.le.trans hsib

/-- A slot after its earlier child `c` changes places with it. -/
theorem InOrderBut.sink (h : InOrderBut d n i) (hc : 0 < c) (hcn : c < n) (hpc : parent c = i)
    (hmin : ∀ j, 0 < j → j < n → parent j = i → d c ≤ d j) (hlt : d c < d i) :
    InOrderBut (d ∘ Equiv.swap i c) n c ∧ NotBeforeParent (d ∘ Equiv.swap i c) c := by
  have hic := parent_lt hc
  rw [hpc] at hic
  refine ⟨⟨?_, ?_⟩, ?_⟩
  · intro j hj hjn hjc hpjc
    rw [Function.comp_apply, Function.comp_apply]
    by_cases hji : j = i
    · subst hji
      have hp := parent_lt hj
      rw [Equiv.swap_apply_left, Equiv.swap_apply_of_ne_of_ne (by omega) (by omega)]
      -- The child that comes up was not before the parent of `i` to begin with.
      exact h.across hj c hc hcn hpc
    · rw [Equiv.swap_apply_of_ne_of_ne hji hjc]
      by_cases hpi : parent j = i
      · rw [hpi, Equiv.swap_apply_left]
        exact hmin j hj hjn hpi
      · rw [Equiv.swap_apply_of_ne_of_ne hpi hpjc]
        exact h.off j hj hjn hji hpi
  · intro _ j hj hjn hpj
    have hlt := parent_lt hj
    rw [Function.comp_apply, Function.comp_apply, hpc, Equiv.swap_apply_left,
      Equiv.swap_apply_of_ne_of_ne (by omega) (by omega)]
    have hdown := h.off j hj hjn (by omega) (by omega)
    rwa [hpj] at hdown
  · intro _
    rw [Function.comp_apply, Function.comp_apply, hpc, Equiv.swap_apply_left,
      Equiv.swap_apply_right]
    exact hlt.le

end ExpiringMap.Agenda
