import ExpiringMap.Proofs.Table.Refinement

namespace ExpiringMap

open Std (ExtTreeMap)

variable {ν : Type}

namespace Visitor

theorem walk_unlimited (n : Nat) (es : List (Key × ν)) : ({} : Visitor).walk n es = some es := by
  induction es generalizing n with
  | nil => rfl
  | cons e es ih =>
    simp only [walk, ih]
    rfl

theorem walk_limited (limit n : Nat) (es : List (Key × ν)) :
    Visitor.walk { limit? := some limit } n es = some (es.take (max 1 (limit - n))) := by
  induction es generalizing n with
  | nil => simp [walk]
  | cons e es ih =>
    simp only [walk, ih]
    by_cases hlast : limit ≤ n + 1
    · have hone : max 1 (limit - n) = 1 := by omega
      simp [hlast, hone]
    · have hmore : max 1 (limit - n) = max 1 (limit - (n + 1)) + 1 := by omega
      simp [hlast, hmore]

end Visitor

namespace Table

/-- All ways to read a table agree. -/
structure ReadsAgree (t : Table ν) : Prop where
  nodup_keys : t.keys.Nodup
  mem_keys_iff : ∀ k, k ∈ t.keys ↔ t.contains k = true
  mem_values_iff : ∀ k, k ∈ t.values ↔ k ∈ t.keys
  getElem?_values : ∀ k : Key, t.values[k]? = (t.get? k).map (·.1)
  size_eq : t.size = t.keys.length
  isEmpty_iff : t.isEmpty = true ↔ t.keys = []
  getMany_eq : ∀ ks, t.getMany ks = t.values.filter fun k _ => decide (k ∈ ks)
  visit_all : ∃ es, t.visit {} = .all es ∧ (es.map (·.1)).Nodup ∧
    (∀ k, k ∈ es.map (·.1) ↔ k ∈ t.keys) ∧
    ∀ k v, (k, v) ∈ es ↔ ∃ d, t.get? k = some (v, d)
  /-- A visit that stops at a limit shows as many, and one at least, if there are so many. -/
  visit_limited : ∀ limit, ∃ shown,
    Visitor.walk { limit? := some limit } 0 t.entries = some shown ∧
    (shown.map (·.1)).Nodup ∧ (∀ k v, (k, v) ∈ shown → ∃ d, t.get? k = some (v, d)) ∧
    shown.length = min t.size (max 1 limit) ∧
    t.visit { limit? := some limit } = .seen (min t.size (max 1 limit))

/-- A key that is there is noted with its value, and any other is passed over. -/
def noted (t : Table ν) (found : ExtTreeMap Key ν) (k : Key) : ExtTreeMap Key ν :=
  (t.get? k).elim found fun e => found.insert k e.1

theorem getMany_eq_foldl (t : Table ν) (ks : List Key) : t.getMany ks = ks.foldl t.noted ∅ := by
  unfold getMany
  congr 1
  funext found k
  unfold noted
  cases t.get? k <;> rfl

theorem getElem?_foldl_noted (t : Table ν) (ks : List Key) (found : ExtTreeMap Key ν) (j : Key) :
    (ks.foldl t.noted found)[j]? =
      if j ∈ ks then ((t.get? j).map (·.1)).or found[j]? else found[j]? := by
  induction ks generalizing found with
  | nil => rfl
  | cons k ks ih =>
    rw [List.foldl_cons, ih]
    by_cases hj : j = k
    · subst hj
      cases hk : t.get? j <;> simp [noted, hk]
    · have hne : ¬ compare k j = .eq := mt Std.compare_eq_iff_eq.1 (Ne.symm hj)
      cases hk : t.get? k <;> simp [noted, hk, hj, ExtTreeMap.getElem?_insert, hne]

namespace Consistent

variable {t : Table ν} (h : t.Consistent)

include h

theorem mem_keys_iff (k : Key) : k ∈ t.keys ↔ (t.get? k).isSome = true := by
  rw [← h.contains_eq, keys, ExtTreeMap.mem_keys, contains, ExtTreeMap.contains_iff_mem]

theorem getElem?_values (k : Key) : t.values[k]? = (t.get? k).map (·.1) := by
  rw [h.values_eq, ExtTreeMap.getElem?_map, getElem?_bindings]

theorem keys_entries_perm : (t.entries.map (·.1)).Perm t.keys := by
  have hp := h.entries_perm.map Prod.fst
  rw [List.map_map] at hp
  rw [← h.keys_bindings, ← ExtTreeMap.map_fst_toList_eq_keys]
  exact hp

theorem nodup_keys_entries : (t.entries.map (·.1)).Nodup :=
  h.keys_entries_perm.nodup_iff.2 ExtTreeMap.nodup_keys

theorem mem_entries_iff {k : Key} {v : ν} :
    (k, v) ∈ t.entries ↔ ∃ d, t.get? k = some (v, d) := by
  rw [h.entries_perm.mem_iff]
  simp [ExtTreeMap.mem_toList_iff_getElem?_eq_some]

theorem length_entries : t.entries.length = t.size := by
  rw [← List.length_map Prod.fst, h.keys_entries_perm.length_eq]
  exact ExtTreeMap.length_keys

theorem getMany_eq (ks : List Key) :
    t.getMany ks = t.values.filter fun k _ => decide (k ∈ ks) := by
  apply ExtTreeMap.ext_getElem?
  intro j
  rw [getMany_eq_foldl, getElem?_foldl_noted, ExtTreeMap.getElem?_filter', h.getElem?_values]
  by_cases hj : j ∈ ks
  · cases t.get? j <;> simp [hj, Option.filter]
  · simp [hj]

theorem readsAgree : t.ReadsAgree where
  nodup_keys := ExtTreeMap.nodup_keys
  mem_keys_iff k := by rw [h.mem_keys_iff, h.contains_eq]
  mem_values_iff k := by
    rw [ExtTreeMap.mem_iff_isSome_getElem?, h.getElem?_values, Option.isSome_map, h.mem_keys_iff]
  getElem?_values := h.getElem?_values
  size_eq := ExtTreeMap.length_keys.symm
  isEmpty_iff := ExtTreeMap.isEmpty_iff.trans ExtTreeMap.keys_eq_nil_iff.symm
  getMany_eq := h.getMany_eq
  visit_all := by
    have hp : (Key.sortBy (·.1) t.entries).Perm t.entries := List.mergeSort_perm _ _
    refine ⟨Key.sortBy (·.1) t.entries, ?_, ?_, fun k => ?_, fun k v => ?_⟩
    · rw [visit, Visitor.visit, Visitor.walk_unlimited]
    · exact (hp.map _).nodup_iff.2 h.nodup_keys_entries
    · rw [(hp.map _).mem_iff, h.keys_entries_perm.mem_iff]
    · rw [hp.mem_iff, h.mem_entries_iff]
  visit_limited limit := by
    have hw := Visitor.walk_limited limit 0 t.entries
    have hlength : (t.entries.take (max 1 limit)).length = min t.size (max 1 limit) := by
      rw [List.length_take, h.length_entries, min_comm]
    refine ⟨_, hw, ?_, fun k v hkv => ?_, hlength, ?_⟩
    · exact h.nodup_keys_entries.sublist ((List.take_sublist _ _).map _)
    · exact h.mem_entries_iff.1 (List.mem_of_mem_take hkv)
    · rw [visit, Visitor.visit, hw]
      exact congrArg Visit.seen hlength

end Consistent

end Table

end ExpiringMap
