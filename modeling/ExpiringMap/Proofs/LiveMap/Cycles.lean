import ExpiringMap.Proofs.LiveMap.Rearming

/-!
Keys that go round. A key that the callback puts in again is bound, taken out when its turn comes,
delivered in the same millisecond and bound anew, until it has no next value or its deadline is
never. Nothing else that happens on the map, in whatever order, makes it miss a turn.
-/

namespace ExpiringMap

open LiveMap (Move Path)

variable {ν : Type}

namespace LiveMap

variable {m : LiveMap ν} {mv : Move ν} {k : Key} {r : Rearm ν} {l : Ledger}

/-- A map that runs, with all its workers, and puts entries in again. -/
structure InService (r : Rearm ν) (l : Ledger) (m : LiveMap ν) : Prop where
  prompt : l.Prompt m
  steady : m.Steady
  staffed : m.Staffed
  isRunning : m.isRunning = true
  rearm?_eq : m.rearm? = some r

/-- A move that neither stops the map nor loses a worker, and makes no call that may change what
`k` is bound to but the one that puts it in again. -/
structure Benign (m : LiveMap ν) (k : Key) (mv : Move ν) : Prop where
  lawful : m.Lawful mv
  ne_leave : mv ≠ .leave
  besides : ∀ c ∈ m.callsBesides mv, c.touches k = false
  spares : ∀ e ∈ m.made mv, m.endsWorker e.key = false

/-- In these moves nobody stops the map, and nothing but being put in again may change what `k` is
bound to. -/
def LeftAlone (k : Key) (m : LiveMap ν) : List (Move ν) → Prop
  | [] => True
  | mv :: mvs =>
    mv ≠ .leave ∧ (∀ c ∈ m.callsBesides mv, c.touches k = false) ∧ (m.move mv).LeftAlone k mvs

instance (mv : Move ν) : Decidable (mv = .leave) :=
  match mv with
  | .leave => isTrue rfl
  | .call _ | .turn _ | .wait _ | .prune | .report => isFalse nofun

instance LeftAlone.decidable (k : Key) :
    (m : LiveMap ν) → (mvs : List (Move ν)) → Decidable (m.LeftAlone k mvs)
  | _, [] => isTrue trivial
  | m, mv :: mvs =>
    have := LeftAlone.decidable k (m.move mv) mvs
    inferInstanceAs (Decidable (_ ∧ _ ∧ _))

theorem LeftAlone.split {mvs mvs' : List (Move ν)} (h : m.LeftAlone k (mvs ++ mvs')) :
    m.LeftAlone k mvs ∧ (m.follow mvs).LeftAlone k mvs' := by
  induction mvs generalizing m with
  | nil => exact ⟨trivial, h⟩
  | cons mv mvs ih => exact ⟨⟨h.1, h.2.1, (ih h.2.2).1⟩, (ih h.2.2).2⟩

namespace InService

variable (h : InService r l m) (hb : m.Benign k mv)

include h

theorem isSome_callback? : m.callback?.isSome = true := by
  obtain ⟨c, hc, -⟩ := Option.bind_eq_some_iff.1 h.rearm?_eq
  rw [hc]
  rfl

include hb

theorem move : InService r (l.enter m mv) (m.move mv) where
  prompt := h.prompt.enter hb.lawful
  steady := h.steady.move mv
  staffed := h.staffed.move mv hb.spares
  isRunning := h.prompt.sound.isRunning_move hb.lawful hb.ne_leave h.isRunning
  rearm?_eq := (rearm?_move m mv).trans h.rearm?_eq

theorem filter_inHand_move :
    (m.inHand.filter (·.key = k) ++ (m.taken mv).filter (·.key = k)).Perm
      (((m.made mv).filter (·.key = k)).map Event.item ++
        (m.move mv).inHand.filter (·.key = k)) :=
  h.steady.filter_inHand_move ((h.move hb).staffed.workers_pos (h.move hb).isSome_callback?) k

end InService

end LiveMap

namespace Ledger

variable {l : Ledger} {m : LiveMap ν} {mv : Move ν} {k : Key}

/-- What is set to end in a while has its turn when the while is over, in whole milliseconds. -/
theorem Prompt.turnOf_enter_set (h : l.Prompt m) (hr : m.isRunning = true)
    (hs : m.setsKey k mv = true) (ttl : Span) :
    (l.enter m mv).turnOf k (m.now + ttl) = m.clock + (Instant.ceilMillis ttl).toNat := by
  have hceil := Instant.ceilMillis_ofMillis_add m.clock ttl
  have hpos := Instant.ceilMillis_nonneg ttl
  have hstarted := h.started_le
  simp only [turnOf, Ledger.enter, hr, hs, LiveMap.now, Bool.not_true, Bool.false_and, ↓reduceIte,
    Bool.false_eq_true]
  omega

end Ledger

/-- A key that is put in again whenever it has been delivered. -/
structure Cycle (ν : Type) where
  key : Key
  rearm : Rearm ν
  value : ν
  due : Instant
  time : Nat

namespace Cycle

def period (c : Cycle ν) : Nat := (Instant.ceilMillis c.rearm.ttl).toNat

def timeAt (c : Cycle ν) (i : Nat) : Nat := c.time + i * c.period

/-- The value of a delivery, as long as there is a next one. -/
def value? (c : Cycle ν) : Nat → Option ν
  | 0 => some c.value
  | i + 1 => (c.value? i).bind c.rearm.next?

/-- What the key is bound to after some deliveries. -/
def binding? (c : Cycle ν) : Nat → Option (ν × Deadline)
  | 0 => some (c.value, .due c.due)
  | i + 1 => (c.value? (i + 1)).map (·, .ofSpan (.ofMillis (c.timeAt i)) c.rearm.ttl)

/-- The key is where it was left when it was last bound, with its turn to come if it ends. -/
structure Bound (c : Cycle ν) (l : Ledger) (m : LiveMap ν) (i : Nat) : Prop where
  get?_eq : m.table.get? c.key = c.binding? i
  inHand_eq : m.inHand.filter (·.key = c.key) = []
  turnOf_eq : ∀ v e, c.binding? i = some (v, .due e) → l.turnOf c.key e = c.timeAt i

/-- The key has been taken out, in this very millisecond, and is to be delivered. -/
structure Held (c : Cycle ν) (m : LiveMap ν) (i : Nat) (x : Expired ν) : Prop where
  binding?_eq : c.binding? i = some (x.value, .due x.due)
  get?_eq : m.table.get? c.key = none
  inHand_eq : m.inHand.filter (·.key = c.key) = [x]
  clock_eq : m.clock = c.timeAt i

/-- The key has been delivered `i` times. -/
structure Stage (c : Cycle ν) (l : Ledger) (m : LiveMap ν) (i : Nat) : Prop where
  past : ∀ j < i, c.timeAt j ≤ m.clock ∧ ∃ v e, c.binding? j = some (v, .due e)
  present : c.Bound l m i ∨ ∃ x, c.Held m i x

variable {c : Cycle ν} {l : Ledger} {m : LiveMap ν} {mv : Move ν} {i : Nat} {x : Expired ν}

theorem value?_of_binding? {v : ν} {d : Deadline} (h : c.binding? i = some (v, d)) :
    c.value? i = some v := by
  cases i with
  | zero =>
    cases h
    rfl
  | succ i =>
    obtain ⟨v', hv, he⟩ := Option.map_eq_some_iff.1 h
    cases he
    exact hv

section

variable (hm : m.InService c.rearm l)

include hm

theorem Held.key_ne_of_taken (h : c.Held m i x) : ∀ y ∈ m.taken mv, y.key ≠ c.key := by
  intro y hy hk
  have hget := (hm.steady.of_mem_taken hy).1
  rw [hk, h.get?_eq] at hget
  cases hget

theorem turnOf_rearmed (hclock : m.clock = c.timeAt i) (hs : m.setsKey c.key mv = true) {v : ν}
    {e : Instant} (hv : c.binding? (i + 1) = some (v, .due e)) :
    (l.enter m mv).turnOf c.key e = c.timeAt (i + 1) := by
  obtain ⟨v', -, he⟩ := Option.map_eq_some_iff.1 hv
  have hend := Deadline.eq_add_of_ofSpan (Prod.mk.inj he).2
  have hnow : m.now = Instant.ofMillis (c.timeAt i) := by rw [LiveMap.now, hclock]
  have hturn := hm.prompt.turnOf_enter_set hm.isRunning hs c.rearm.ttl
  rw [hnow, ← hend, hclock] at hturn
  rw [hturn, timeAt, timeAt, Nat.succ_mul, ← Nat.add_assoc]
  rfl

variable (hb : m.Benign c.key mv)

include hb

theorem Bound.key_ne_of_made (h : c.Bound l m i) : ∀ e ∈ m.made mv, e.key ≠ c.key := by
  intro e he hk
  have hperm := hm.filter_inHand_move hb
  rcases m.taken_eq_nil_or_made_eq_nil mv with hnone | hnone
  · rw [h.inHand_eq, hnone] at hperm
    have hnil := (List.append_eq_nil_iff.1 (List.nil_perm.1 hperm)).1
    have hmem : e ∈ (m.made mv).filter (·.key = c.key) :=
      List.mem_filter.2 ⟨he, decide_eq_true hk⟩
    rw [List.map_eq_nil_iff.1 hnil] at hmem
    cases hmem
  · rw [hnone] at he
    cases he

theorem Bound.filter_taken_perm (h : c.Bound l m i) :
    ((m.taken mv).filter (·.key = c.key)).Perm ((m.move mv).inHand.filter (·.key = c.key)) := by
  have hperm := hm.filter_inHand_move hb
  rw [h.inHand_eq, LiveMap.filter_key_eq_nil (h.key_ne_of_made hm hb)] at hperm
  exact hperm

theorem Bound.stays (h : c.Bound l m i) (htaken : ∀ x ∈ m.taken mv, x.key ≠ c.key) :
    c.Bound (l.enter m mv) (m.move mv) i := by
  have hnot := LiveMap.not_touches hb.besides (h.key_ne_of_made hm hb)
  refine ⟨?_, ?_, fun v e hv => ?_⟩
  · rw [hm.prompt.sound.get?_move hb.lawful hnot htaken]
    exact h.get?_eq
  · have hperm := h.filter_taken_perm hm hb
    rw [LiveMap.filter_key_eq_nil htaken] at hperm
    exact List.nil_perm.1 hperm
  · rw [Ledger.turnOf_enter l hm.isRunning hnot]
    exact h.turnOf_eq v e hv

theorem Bound.taken (h : c.Bound l m i) (hx : x ∈ m.taken mv) (hk : x.key = c.key) :
    c.Held (m.move mv) i x := by
  obtain ⟨hget, -, hgone⟩ := hm.steady.of_mem_taken hx
  rw [hk] at hget hgone
  have hbinding := h.get?_eq.symm.trans hget
  refine ⟨hbinding, hgone, ?_, ?_⟩
  · have hperm := h.filter_taken_perm hm hb
    rw [← hk, hm.steady.filter_taken hx, hk] at hperm
    exact List.perm_singleton.1 hperm.symm
  · have hturn := hm.prompt.clock_eq hb.lawful hx
    rw [hk, h.turnOf_eq _ _ hbinding] at hturn
    rcases LiveMap.clock_move hb.lawful with hclock | ⟨clock, rfl⟩
    · exact hclock.trans hturn
    · cases hx

theorem Held.filter_made_perm (h : c.Held m i x) :
    [x].Perm (((m.made mv).filter (·.key = c.key)).map Event.item ++
      (m.move mv).inHand.filter (·.key = c.key)) := by
  have hperm := hm.filter_inHand_move hb
  rw [h.inHand_eq, LiveMap.filter_key_eq_nil (h.key_ne_of_taken hm)] at hperm
  exact hperm

theorem Held.stays (h : c.Held m i x) (hmade : ∀ e ∈ m.made mv, e.key ≠ c.key) :
    c.Held (m.move mv) i x := by
  have hnot := LiveMap.not_touches hb.besides hmade
  refine ⟨h.binding?_eq, ?_, ?_, ?_⟩
  · rw [hm.prompt.sound.get?_move hb.lawful hnot (h.key_ne_of_taken hm)]
    exact h.get?_eq
  · have hperm := h.filter_made_perm hm hb
    rw [LiveMap.filter_key_eq_nil hmade] at hperm
    exact List.perm_singleton.1 hperm.symm
  · rcases LiveMap.clock_move hb.lawful with hclock | ⟨clock, rfl⟩
    · exact hclock.trans h.clock_eq
    · -- The clock moves at rest only, when nothing is in hand.
      have hinHand := h.inHand_eq
      rw [hm.steady.inHand_eq_nil hb.lawful.1] at hinHand
      cases hinHand

/-- What is held is delivered once, and the key bound to its next value. -/
theorem Held.delivered (h : c.Held m i x) {e : Event ν} (he : e ∈ m.made mv)
    (hk : e.key = c.key) :
    c.Bound (l.enter m mv) (m.move mv) (i + 1) ∧
      (m.made mv).filter (·.key = c.key) = [e] ∧ e.item = x ∧ e.time = c.timeAt i ∧
      (m.added mv).count c.key = (c.value? (i + 1)).toList.length := by
  have hperm := h.filter_made_perm hm hb
  obtain ⟨j, y, s, rfl, ht, rfl, htime⟩ := LiveMap.exists_of_mem_made he
  obtain ⟨e', hmade, -⟩ := LiveMap.made_of_take ht hm.isSome_callback?
  obtain rfl : e = e' := by rwa [hmade, List.mem_singleton] at he
  have hfilter : (m.made (.turn (.work j))).filter (·.key = c.key) = [e] := by
    rw [hmade]
    simp [hk]
  rw [hfilter] at hperm
  obtain ⟨hx, hnone⟩ := List.cons.inj (List.perm_singleton.1 hperm.symm)
  have hkey : e.item.key = c.key := hk
  have hscript : ∀ call ∈ m.scriptFor e.item.key, call.touches e.item.key = false := by
    have hbesides := hb.besides
    simp only [LiveMap.callsBesides, ht] at hbesides
    rwa [← hkey] at hbesides
  have hgone : m.table.get? e.item.key = none := hkey ▸ h.get?_eq
  have hnext : c.value? (i + 1) = c.rearm.next? e.item.value := by
    rw [value?, value?_of_binding? h.binding?_eq, ← hx]
    rfl
  have hget := hm.prompt.sound.get?_work hm.rearm?_eq ht hscript hgone
  have hcount := hm.prompt.sound.count_added_work hm.rearm?_eq ht hscript hgone
  rw [hkey] at hget hcount
  refine ⟨⟨?_, hnone, fun v e' hv => ?_⟩, hfilter, hx, htime.trans h.clock_eq, ?_⟩
  · rw [hget, binding?, hnext, LiveMap.now, h.clock_eq]
  · obtain ⟨v', hv', -⟩ := Option.map_eq_some_iff.1 hv
    have hs := LiveMap.setsKey_work hm.rearm?_eq ht (hnext.symm.trans hv')
    rw [hkey] at hs
    exact turnOf_rearmed hm h.clock_eq hs hv
  · rw [hcount, hnext]

/-- A move leaves the key where it is in its round, or delivers it. -/
theorem Stage.move (h : c.Stage l m i) :
    (c.Stage (l.enter m mv) (m.move mv) i ∧ (∀ e ∈ m.made mv, e.key ≠ c.key) ∧
        c.key ∉ m.added mv) ∨
      c.Stage (l.enter m mv) (m.move mv) (i + 1) ∧
        (∃ e, (m.made mv).filter (·.key = c.key) = [e] ∧ e.time = c.timeAt i ∧
          c.value? i = some e.value) ∧
        (m.added mv).count c.key = (c.value? (i + 1)).toList.length := by
  have hle := LiveMap.clock_le_move hb.lawful
  have hpast (j : Nat) (hj : j < i) :
      c.timeAt j ≤ (m.move mv).clock ∧ ∃ v e, c.binding? j = some (v, .due e) :=
    ⟨(h.past j hj).1.trans hle, (h.past j hj).2⟩
  by_cases hmade : ∀ e ∈ m.made mv, e.key ≠ c.key
  · refine .inl ⟨⟨hpast, ?_⟩, hmade, LiveMap.not_mem_added (LiveMap.not_touches hb.besides hmade)⟩
    rcases h.present with hbound | ⟨x, hheld⟩
    · by_cases htaken : ∀ x ∈ m.taken mv, x.key ≠ c.key
      · exact .inl (hbound.stays hm hb htaken)
      · push Not at htaken
        obtain ⟨x, hx, hk⟩ := htaken
        exact .inr ⟨x, hbound.taken hm hb hx hk⟩
    · exact .inr ⟨x, hheld.stays hm hb hmade⟩
  · push Not at hmade
    obtain ⟨e, he, hk⟩ := hmade
    rcases h.present with hbound | ⟨x, hheld⟩
    · exact absurd hk (hbound.key_ne_of_made hm hb e he)
    · obtain ⟨hnext, hfilter, rfl, htime, hcount⟩ := hheld.delivered hm hb he hk
      refine .inr ⟨⟨fun j hj => ?_, .inl hnext⟩,
        ⟨e, hfilter, htime, value?_of_binding? hheld.binding?_eq⟩, hcount⟩
      rcases Nat.lt_succ_iff_lt_or_eq.1 hj with hj | rfl
      · exact hpast j hj
      · exact ⟨hheld.clock_eq ▸ hle, _, _, hheld.binding?_eq⟩

end

/-- The deliveries of the key in a course of moves, and how often it is added, from one point of
its round to another. -/
structure Runs (c : Cycle ν) (m : LiveMap ν) (mvs : List (Move ν)) (i n : Nat) : Prop where
  made_eq : ((m.madeIn mvs).filter (·.key = c.key)).map (fun e => (e.time, some e.value)) =
    (List.range' i n).map fun j => (c.timeAt j, c.value? j)
  count_added : (m.addedIn mvs).count c.key =
    ((List.range' i n).filterMap fun j => c.value? (j + 1)).length

theorem Runs.stays {mvs : List (Move ν)} {n : Nat} (h : c.Runs (m.move mv) mvs i n)
    (hmade : ∀ e ∈ m.made mv, e.key ≠ c.key) (hadded : c.key ∉ m.added mv) :
    c.Runs m (mv :: mvs) i n where
  made_eq := by
    rw [LiveMap.madeIn, List.filter_append, LiveMap.filter_key_eq_nil hmade]
    exact h.made_eq
  count_added := by
    rw [LiveMap.addedIn, List.count_append, List.count_eq_zero_of_not_mem hadded, Nat.zero_add]
    exact h.count_added

theorem Runs.delivered {mvs : List (Move ν)} {n : Nat} (h : c.Runs (m.move mv) mvs (i + 1) n)
    {e : Event ν} (hmade : (m.made mv).filter (·.key = c.key) = [e]) (htime : e.time = c.timeAt i)
    (hvalue : c.value? i = some e.value)
    (hadded : (m.added mv).count c.key = (c.value? (i + 1)).toList.length) :
    c.Runs m (mv :: mvs) i (n + 1) where
  made_eq := by
    rw [LiveMap.madeIn, List.filter_append, hmade, List.range'_succ, List.map_append, h.made_eq,
      List.map_singleton, List.map_cons, hvalue, htime]
    rfl
  count_added := by
    rw [LiveMap.addedIn, List.count_append, hadded, h.count_added, List.range'_succ,
      List.filterMap_cons]
    cases c.value? (i + 1) with
    | none => exact Nat.zero_add _
    | some v => exact Nat.add_comm _ _

theorem Stage.follow {mvs : List (Move ν)} {m' : LiveMap ν} (hp : Path m mvs m')
    (h : c.Stage l m i) (hm : m.InService c.rearm l) (halone : m.LeftAlone c.key mvs)
    (hspare : ∀ e ∈ m.madeIn mvs, m.endsWorker e.key = false) :
    m'.InService c.rearm (l.follow m mvs) ∧
      ∃ n, c.Stage (l.follow m mvs) m' (i + n) ∧ c.Runs m mvs i n := by
  induction hp generalizing l i with
  | nil => exact ⟨hm, 0, h, rfl, rfl⟩
  | @cons m mv mvs m' hl hp ih =>
    obtain ⟨hleave, hbesides, halone⟩ := halone
    obtain ⟨hfirst, hrest⟩ := List.forall_mem_append.1 hspare
    have hb : m.Benign c.key mv := ⟨hl, hleave, hbesides, hfirst⟩
    rw [← LiveMap.endsWorker_move m mv] at hrest
    rcases h.move hm hb with ⟨hstage, hmade, hadded⟩ | ⟨hstage, ⟨e, hmade, htime, hv⟩, hadded⟩
    · obtain ⟨hm', n, hstage', hruns⟩ := ih hstage (hm.move hb) halone hrest
      exact ⟨hm', n, hstage', hruns.stays hmade hadded⟩
    · obtain ⟨hm', n, hstage', hruns⟩ := ih hstage (hm.move hb) halone hrest
      refine ⟨hm', n + 1, ?_, hruns.delivered hmade htime hv hadded⟩
      rw [Nat.add_comm n 1, ← Nat.add_assoc]
      exact hstage'

/-- At rest the key has been delivered, or its turn is still to come. -/
theorem Stage.bound_of_isAtRest (h : c.Stage l m i) (hm : m.InService c.rearm l)
    (hr : m.isAtRest = true) :
    c.Bound l m i ∧ ∀ v e, c.binding? i = some (v, .due e) → m.clock < c.timeAt i := by
  rcases h.present with hbound | ⟨x, hheld⟩
  · refine ⟨hbound, fun v e hv => ?_⟩
    have hlt := hm.prompt.clock_lt hr hm.isRunning (hbound.get?_eq.trans hv)
    rwa [hbound.turnOf_eq v e hv] at hlt
  · have hinHand := hheld.inHand_eq
    rw [hm.steady.inHand_eq_nil hr] at hinHand
    cases hinHand

end Cycle

end ExpiringMap
