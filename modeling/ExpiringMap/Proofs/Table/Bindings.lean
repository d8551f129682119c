import ExpiringMap.Proofs.Table.Answers
import ExpiringMap.Proofs.Table.Ends
import ExpiringMap.Proofs.Table.History

/-!
What a table is to its users: a map from keys to values with deadlines, read off the index and the
entries. Every command changes this map as its name says and answers what the map says. The map has
no agenda and no ids, so it leaves open what depends on them: which of several entries that end
together comes first, and the order of a visit.
-/

namespace ExpiringMap

open Std (ExtTreeMap)

abbrev Bindings (ν : Type) := ExtTreeMap Key (ν × Deadline)

namespace Bindings

variable {ν : Type}

/-- The instants at which bindings end, one for each that does. -/
def ends (b : Bindings ν) : List Instant := b.toList.filterMap (·.2.2.instant?)

/-- The bindings that have ended by `now`. -/
def expired (b : Bindings ν) (now : Instant) : List (Expired ν) :=
  b.toList.filterMap fun (k, v, d) =>
    (d.instant?.filter (· ≤ now)).map fun due => { key := k, value := v, due }

def apply (b : Bindings ν) : Table.Command ν → Bindings ν
  | .put k v => b.insert k (v, .never)
  | .putUntil k v deadline => b.insert k (v, deadline)
  | .erase k => b.erase k
  | .clear => ∅
  | .keep k => b.modify k fun e => (e.1, .never)
  | .reschedule k deadline now =>
    if deadline.hasPassed now then b.erase k else b.modify k fun e => (e.1, deadline)
  | .takeDue now => b.filter fun _ e => !e.2.hasPassed now
  | .get _ | .contains _ | .keys | .values | .visit _ => b

/-- Whether a reply to a command is right. -/
def Answers (b : Bindings ν) (c : Table.Command ν) (r : Table.Reply ν) : Prop :=
  match c with
  | .put .. | .clear => r = .done
  | .putUntil k _ _ => ∃ s, r = .standing s ∧ Table.Stands ((b.apply c)[·]?) k s
  | .erase k | .keep k | .contains k => r = .flag (b.contains k)
  | .reschedule k deadline now =>
    ∃ s, r = .rescheduled (b.contains k && !deadline.hasPassed now) s ∧
      Table.Stands ((b.apply c)[·]?) k s
  | .takeDue now => ∃ xs, r = .expired xs ∧ xs.Perm (b.expired now) ∧ xs.Pairwise (·.due ≤ ·.due)
  | .get k => r = .entry b[k]?
  | .keys => r = .keys b.keys
  | .values => r = .values (b.map fun _ e => e.1)
  | .visit v => ∃ es, r = .visited (v.visit es) ∧ es.Perm (b.toList.map fun p => (p.1, p.2.1))

def after (commands : List (Table.Command ν)) : Bindings ν := commands.foldl apply ∅

theorem nodup_toList (b : Bindings ν) : b.toList.Nodup :=
  b.distinct_keys_toList.imp fun hne he => hne (by rw [he]; exact Std.ReflOrd.compare_self)

theorem mem_expired_iff {b : Bindings ν} {now : Instant} {x : Expired ν} :
    x ∈ b.expired now ↔ b[x.key]? = some (x.value, .due x.due) ∧ x.due ≤ now := by
  simp only [expired, List.mem_filterMap, Prod.exists, ExtTreeMap.mem_toList_iff_getElem?_eq_some,
    Option.map_eq_some_iff, Option.filter_eq_some_iff, decide_eq_true_eq]
  constructor
  · rintro ⟨k, v, d, hk, e, ⟨hd, he⟩, rfl⟩
    cases d with
    | never => cases hd
    | due =>
      cases hd
      exact ⟨hk, he⟩
  · intro hx
    exact ⟨x.key, x.value, .due x.due, hx.1, x.due, ⟨rfl, hx.2⟩, rfl⟩

theorem nodup_expired (b : Bindings ν) (now : Instant) : (b.expired now).Nodup := by
  apply b.nodup_toList.filterMap
  rintro ⟨k, v, d⟩ ⟨k', v', d'⟩ x hx hx'
  simp only [Option.mem_def, Option.map_eq_some_iff, Option.filter_eq_some_iff] at hx hx'
  obtain ⟨e, ⟨hd, -⟩, rfl⟩ := hx
  obtain ⟨e', ⟨hd', -⟩, he⟩ := hx'
  cases d with
  | never => cases hd
  | due =>
    cases d' with
    | never => cases hd'
    | due =>
      cases hd
      cases hd'
      cases he
      rfl

end Bindings

namespace Table

variable {ν : Type}

def bindings (t : Table ν) : Bindings ν :=
  t.index.filterMap fun _ id => t.agenda.items[id]?.map fun x => (x.payload.value, x.deadline)

@[simp] theorem getElem?_bindings (t : Table ν) (k : Key) : t.bindings[k]? = t.get? k := by
  simp [bindings, get?, find?, Option.map_bind, Function.comp_def]

theorem Binds.bindings_eq {t : Table ν} {g : Key → Option (ν × Deadline)} (h : t.Binds g)
    {b : Bindings ν} (hb : ∀ k, b[k]? = g k) : t.bindings = b := by
  apply ExtTreeMap.ext_getElem?
  intro k
  rw [getElem?_bindings, h.get?_eq, hb]

namespace Consistent

variable {t : Table ν} (h : t.Consistent)

include h

theorem unit_bindings : (t.bindings.map fun _ _ => ()) = t.index.map fun _ _ => () := by
  apply ExtTreeMap.ext_getElem?
  intro k
  rw [ExtTreeMap.getElem?_map, ExtTreeMap.getElem?_map, getElem?_bindings]
  cases hk : t.index[k]? with
  | none => rw [h.get?_eq_none_iff.2 hk]; rfl
  | some id =>
    obtain ⟨v, d, hc⟩ := (h.index k id).1 hk
    rw [h.get?_of_content? hc]
    rfl

theorem keys_bindings : t.bindings.keys = t.keys := by
  have hkeys := congrArg ExtTreeMap.keys h.unit_bindings
  rwa [ExtTreeMap.keys_map, ExtTreeMap.keys_map] at hkeys

theorem size_bindings : t.bindings.size = t.size := by
  have hsize := congrArg ExtTreeMap.size h.unit_bindings
  rwa [ExtTreeMap.size_map, ExtTreeMap.size_map] at hsize

theorem contains_bindings (k : Key) : t.bindings.contains k = t.contains k := by
  rw [ExtTreeMap.contains_eq_isSome_getElem?, getElem?_bindings, h.contains_eq]

theorem toList_bindings_perm : t.bindings.toList.Perm
    (t.agenda.items.toList.map fun p => (p.2.payload.key, p.2.payload.value, p.2.deadline)) := by
  rw [List.perm_ext_iff_of_nodup t.bindings.nodup_toList]
  · rintro ⟨k, v, d⟩
    simp only [ExtTreeMap.mem_toList_iff_getElem?_eq_some, getElem?_bindings, List.mem_map,
      Prod.exists, Prod.mk.injEq]
    constructor
    · intro hk
      obtain ⟨id, x, hx, hp, hd⟩ := h.item_of_get? hk
      exact ⟨id, x, hx, by rw [hp], by rw [hp], hd⟩
    · rintro ⟨id, x, hx, rfl, rfl, rfl⟩
      exact h.get?_of_item hx
  · -- Two ids with the same key would both be the one that the key is indexed by.
    rw [List.Nodup, List.pairwise_map]
    apply List.Pairwise.imp_of_mem _ t.agenda.items.distinct_keys_toList
    intro p q hp hq hne he
    apply hne
    rw [ExtTreeMap.mem_toList_iff_getElem?_eq_some] at hp hq
    have hpi := h.getElem?_index_of_item hp
    have hqi := h.getElem?_index_of_item hq
    rw [Prod.mk.injEq] at he
    rw [he.1, hqi, Option.some.injEq] at hpi
    rw [hpi]
    exact Std.ReflOrd.compare_self

theorem ends_perm : t.ends.Perm t.bindings.ends := by
  have hp := h.toList_bindings_perm.filterMap (·.2.2.instant?)
  rw [List.filterMap_map] at hp
  exact hp.symm

theorem entries_perm : t.entries.Perm (t.bindings.toList.map fun p => (p.1, p.2.1)) := by
  have hp := h.toList_bindings_perm.map fun p => (p.1, p.2.1)
  rw [List.map_map] at hp
  exact hp.symm

theorem expired_perm (now : Instant) : (t.takeDue now).1.Perm (t.bindings.expired now) := by
  have hd := h.takeDue now
  rw [List.perm_ext_iff_of_nodup hd.nodup.of_map (Bindings.nodup_expired _ now)]
  intro x
  rw [hd.mem_iff, Bindings.mem_expired_iff, getElem?_bindings]

end Consistent

end Table

end ExpiringMap
