import ExpiringMap.Proofs.LiveMap.Cycles
import ExpiringMap.Proofs.LiveMap.Sleeping

namespace ExpiringMap

open LiveMap (Move Path)

variable {ν : Type}

/-- When `k` is delivered in a course of moves, and with which integers. -/
def LiveMap.countIn (m : LiveMap ν) (k : Key) (toInt? : ν → Option Int) (mvs : List (Move ν)) :
    List (Nat × Option Int) :=
  ((m.madeIn mvs).filter (·.key = k)).map fun e => (e.time, toInt? e.value)

namespace Cycle

/-- How often a key that counts from `first` to `max` is put in again. -/
def laps (first max : Int) : Nat := (max - first).toNat

def Ends (c : Cycle ν) (n : Nat) : Prop :=
  ∀ i < n, c.rearm.ttl ≠ 0 ∧ Instant.ofMillis (c.timeAt i) + c.rearm.ttl < Instant.horizon

def countTo (c : Cycle ν) (first : Int) (n : Nat) : List (Nat × Option Int) :=
  (List.range n).map fun (i : Nat) => (c.timeAt i, some (first + i))

/-- In a course of moves the key counts from `first` to `max`. -/
structure CountsUp (c : Cycle ν) (toInt? : ν → Option Int) (ofInt : Int → ν) (first max : Int)
    (m : LiveMap ν) (mvs : List (Move ν)) : Prop where
  timed : c.Ends (laps first max) → ∃ n ≤ laps first max + 1,
    m.countIn c.key toInt? mvs = c.countTo first n ∧
    (m.addedIn mvs).count c.key = min n (laps first max) ∧
    ((m.follow mvs).isAtRest = true →
      ∀ i ≤ laps first max, i < n ↔ c.timeAt i ≤ (m.follow mvs).clock)
  /-- After the last one the key is gone. It has been taken out once for each integer, and added
  once for each but the first. -/
  complete : c.Ends (laps first max) → (m.follow mvs).isAtRest = true →
    c.timeAt (laps first max) ≤ (m.follow mvs).clock →
    m.countIn c.key toInt? mvs = c.countTo first (laps first max + 1) ∧
    (m.follow mvs).table.get? c.key = none ∧
    ((m.takenIn mvs).filter (·.key = c.key)).length = laps first max + 1 ∧
    (m.addedIn mvs).count c.key = laps first max
  /-- If it does not end when it is put in again, there is one delivery, and the key stays. -/
  endless : c.rearm.ttl = 0 ∨ Instant.horizon ≤ Instant.ofMillis c.time + c.rearm.ttl →
    first < max →
    m.countIn c.key toInt? mvs = [] ∧
        ((m.follow mvs).isAtRest = true → (m.follow mvs).clock < c.time) ∨
      m.countIn c.key toInt? mvs = [(c.time, some first)] ∧
        (m.follow mvs).table.get? c.key = some (ofInt (first + 1), .never)
  /-- While its callback runs the key is absent, until it is put in again. -/
  absent : ∀ before i rest x s, mvs = before ++ .turn (.work i) :: rest →
    (m.follow before).sweepers[i]?.bind (·.take?) = some (x, s) → x.key = c.key →
    (∀ cs, cs <+: (m.follow before).scriptFor c.key →
      ((m.follow before).midway i s c.key cs).table.get? c.key = none) ∧
    ((m.follow before).move (.turn (.work i))).table.get? c.key =
      (c.rearm.next? x.value).map (·, .ofSpan (m.follow before).now c.rearm.ttl)
  expired : (m.follow mvs).table.statistics.expired =
    m.table.statistics.expired + (m.takenIn mvs).length
  added : (m.follow mvs).table.statistics.added =
    m.table.statistics.added + (m.addedIn mvs).length
  /-- Wherever the course ends, it can go on to rest at any later time. -/
  rests : ∀ ms, let later := (m.follow mvs).sleep ms
    Path (m.follow mvs) ((m.follow mvs).moves (.sleep ms)) later ∧ later.isAtRest = true ∧
      later.clock = (m.follow mvs).clock + ms

variable {c : Cycle ν} {toInt? : ν → Option Int} {ofInt : Int → ν} {first max : Int} {l : Ledger}
  {m : LiveMap ν} {mvs : List (Move ν)} {i : Nat}

theorem timeAt_mono {j : Nat} (h : i ≤ j) : c.timeAt i ≤ c.timeAt j :=
  Nat.add_le_add_left (Nat.mul_le_mul_right _ h) _

/-- The key begins with the integer `first`, and is put in again with the next one up to `max`. -/
structure Numbered (c : Cycle ν) (toInt? : ν → Option Int) (ofInt : Int → ν) (first max : Int) :
    Prop where
  first_eq : toInt? c.value = some first
  toInt?_ofInt : ∀ j, first < j → j ≤ max → toInt? (ofInt j) = some j
  rearm_eq : c.rearm = .counting toInt? ofInt max c.rearm.ttl

namespace Numbered

variable (hc : c.Numbered toInt? ofInt first max)

include hc

theorem value?_succ {v : ν} {j : Int} (hv : c.value? i = some v) (hj : toInt? v = some j) :
    c.value? (i + 1) = if j < max then some (ofInt (j + 1)) else none := by
  rw [value?, hv, hc.rearm_eq]
  simp [Rearm.counting, hj]

theorem exists_value? (hi : i ≤ laps first max) :
    ∃ v, c.value? i = some v ∧ toInt? v = some (first + i) := by
  induction i with
  | zero => exact ⟨c.value, rfl, by simpa using hc.first_eq⟩
  | succ i ih =>
    obtain ⟨v, hv, hj⟩ := ih (Nat.le_of_succ_le hi)
    unfold laps at hi
    refine ⟨_, (hc.value?_succ hv hj).trans (if_pos (by omega)), ?_⟩
    rw [hc.toInt?_ofInt _ (by omega) (by omega)]
    exact congrArg some (by omega)

theorem value?_laps_succ : c.value? (laps first max + 1) = none := by
  obtain ⟨v, hv, hj⟩ := hc.exists_value? (Nat.le_refl (laps first max))
  rw [hc.value?_succ hv hj, if_neg]
  unfold laps
  omega

theorem length_filterMap_value? {n : Nat} (hn : n ≤ laps first max + 1) :
    ((List.range n).filterMap fun j => c.value? (j + 1)).length = min n (laps first max) := by
  induction n with
  | zero => simp
  | succ n ih =>
    rw [List.range_succ, List.filterMap_append, List.length_append, ih (by omega)]
    rcases Nat.lt_or_ge n (laps first max) with hlt | hge
    · obtain ⟨v, hv, -⟩ := hc.exists_value? (i := n + 1) hlt
      simp [hv]
      omega
    · obtain rfl : n = laps first max := by omega
      simp [hc.value?_laps_succ]

theorem exists_binding? (hends : c.Ends (laps first max)) (hi : i ≤ laps first max) :
    ∃ v e, c.binding? i = some (v, .due e) := by
  cases i with
  | zero => exact ⟨c.value, c.due, rfl⟩
  | succ i =>
    obtain ⟨hz, hlt⟩ := hends i hi
    obtain ⟨v, hv, -⟩ := hc.exists_value? hi
    refine ⟨v, Instant.ofMillis (c.timeAt i) + c.rearm.ttl, ?_⟩
    rw [binding?, hv, Option.map_some, Deadline.ofSpan_eq_due hz hlt]

theorem binding?_one
    (hnever : c.rearm.ttl = 0 ∨ Instant.horizon ≤ Instant.ofMillis c.time + c.rearm.ttl)
    (hlt : first < max) : c.binding? 1 = some (ofInt (first + 1), .never) := by
  have hzero : c.timeAt 0 = c.time := by rw [timeAt, Nat.zero_mul, Nat.add_zero]
  rw [← hzero] at hnever
  rw [binding?, hc.value?_succ rfl hc.first_eq, if_pos hlt, Deadline.ofSpan_eq_never hnever]
  rfl

theorem le_laps_succ {n : Nat} (h : c.Stage l m n) : n ≤ laps first max + 1 := by
  by_contra hlt
  obtain ⟨-, v, e, hv⟩ := h.past (laps first max + 1) (Nat.lt_of_not_le hlt)
  have hvalue := value?_of_binding? hv
  rw [hc.value?_laps_succ] at hvalue
  cases hvalue

theorem countIn_eq {n : Nat} (h : c.Runs m mvs 0 n) (hn : n ≤ laps first max + 1) :
    m.countIn c.key toInt? mvs = c.countTo first n := by
  have hmap := congrArg (List.map fun d => (d.1, d.2.bind toInt?)) h.made_eq
  rw [List.map_map, List.map_map, ← List.range_eq_range'] at hmap
  refine hmap.trans (List.map_congr_left fun i hi => ?_)
  have hlt := List.mem_range.1 hi
  obtain ⟨v, hv, hj⟩ := hc.exists_value? (i := i) (by omega)
  simp [hv, hj]

theorem lt_iff_timeAt_le {n : Nat} (h : c.Stage l m n) (hm : m.InService c.rearm l)
    (hends : c.Ends (laps first max)) (hr : m.isAtRest = true) (hi : i ≤ laps first max) :
    i < n ↔ c.timeAt i ≤ m.clock := by
  refine ⟨fun hlt => (h.past i hlt).1, fun hle => ?_⟩
  by_contra hge
  have hni := Nat.le_of_not_lt hge
  obtain ⟨v, e, hv⟩ := hc.exists_binding? hends (hni.trans hi)
  have hlt := (h.bound_of_isAtRest hm hr).2 v e hv
  exact Nat.not_le_of_lt (hlt.trans_le (timeAt_mono hni)) hle

end Numbered

/-- A course of moves in which a key at the start of its round is left alone. -/
structure Counts (c : Cycle ν) (l : Ledger) (m : LiveMap ν) (mvs : List (Move ν)) : Prop where
  path : Path m mvs (m.follow mvs)
  bound : c.Bound l m 0
  inService : m.InService c.rearm l
  leftAlone : m.LeftAlone c.key mvs
  spares : ∀ e ∈ m.madeIn mvs, m.endsWorker e.key = false

namespace Counts

theorem split {mvs' : List (Move ν)} (h : c.Counts l m (mvs ++ mvs')) : c.Counts l m mvs where
  path := h.path.split.1
  bound := h.bound
  inService := h.inService
  leftAlone := h.leftAlone.split.1
  spares e he := h.spares e (by rw [LiveMap.madeIn_append]; exact List.mem_append_left _ he)

theorem benign {mv : Move ν} {rest : List (Move ν)} (h : c.Counts l m (mvs ++ mv :: rest)) :
    (m.follow mvs).Benign c.key mv where
  lawful := by
    cases h.path.split.2 with
    | cons hl _ => exact hl
  ne_leave := h.leftAlone.split.2.1
  besides := h.leftAlone.split.2.2.1
  spares e he := by
    rw [LiveMap.endsWorker_follow]
    refine h.spares e ?_
    rw [LiveMap.madeIn_append]
    exact List.mem_append_right _ (List.mem_append_left _ he)

section

variable (h : c.Counts l m mvs)

include h

theorem runs : (m.follow mvs).InService c.rearm (l.follow m mvs) ∧
    ∃ n, c.Stage (l.follow m mvs) (m.follow mvs) n ∧ c.Runs m mvs 0 n := by
  have hstage : c.Stage l m 0 := ⟨fun j hj => absurd hj (Nat.not_lt_zero j), .inl h.bound⟩
  obtain ⟨hm, n, hstage, hruns⟩ :=
    hstage.follow h.path h.inService h.leftAlone h.spares
  rw [Nat.zero_add] at hstage
  exact ⟨hm, n, hstage, hruns⟩

theorem length_taken_of_isAtRest (hr : (m.follow mvs).isAtRest = true) :
    ((m.takenIn mvs).filter (·.key = c.key)).length =
      ((m.madeIn mvs).filter (·.key = c.key)).length := by
  have hm := h.inService
  have hmanned := hm.staffed.manned hm.isSome_callback? h.spares
  have hperm := (hm.steady.inHand_follow hmanned).filter fun x => decide (x.key = c.key)
  rw [List.filter_append, List.filter_append, List.filter_map, h.bound.inHand_eq,
    (hm.steady.follow mvs).inHand_eq_nil hr, List.filter_nil, List.append_nil,
    List.nil_append] at hperm
  exact hperm.length_eq.trans (List.length_map _)

end

theorem absent {rest : List (Move ν)} {j : Nat} {x : Expired ν} {s : Sweeper ν}
    (h : c.Counts l m (mvs ++ .turn (.work j) :: rest))
    (ht : (m.follow mvs).sweepers[j]?.bind (·.take?) = some (x, s)) (hk : x.key = c.key) :
    (∀ cs, cs <+: (m.follow mvs).scriptFor c.key →
      ((m.follow mvs).midway j s c.key cs).table.get? c.key = none) ∧
    ((m.follow mvs).move (.turn (.work j))).table.get? c.key =
      (c.rearm.next? x.value).map (·, .ofSpan (m.follow mvs).now c.rearm.ttl) := by
  obtain ⟨hm, n, hstage, -⟩ := h.split.runs
  have hb := h.benign
  have hscript : ∀ call ∈ (m.follow mvs).scriptFor c.key, call.touches c.key = false := by
    have hbesides := hb.besides
    simp only [LiveMap.callsBesides, ht, hk] at hbesides
    exact hbesides
  have hgone : (m.follow mvs).table.get? c.key = none := by
    rcases hstage.present with hbound | ⟨y, hheld⟩
    · obtain ⟨e, hmade, he, -⟩ := LiveMap.made_of_take ht hm.isSome_callback?
      have hkey : e.key = c.key := (congrArg Expired.key he).trans hk
      have hmem : e ∈ (m.follow mvs).made (.turn (.work j)) := by simp [hmade]
      exact absurd hkey (hbound.key_ne_of_made hm hb e hmem)
    · exact hheld.get?_eq
  constructor
  · intro cs hcs
    rw [hm.prompt.sound.get?_midway ht fun call hcall => hscript call (hcs.subset hcall)]
    exact hgone
  · rw [← hk] at hscript hgone ⊢
    exact hm.prompt.sound.get?_work hm.rearm?_eq ht hscript hgone

section

variable (h : c.Counts l m mvs) (hc : c.Numbered toInt? ofInt first max)

include h hc

theorem timed (hends : c.Ends (laps first max)) :
    ∃ n ≤ laps first max + 1,
      m.countIn c.key toInt? mvs = c.countTo first n ∧
      (m.addedIn mvs).count c.key = min n (laps first max) ∧
      (n = laps first max + 1 → (m.follow mvs).table.get? c.key = none) ∧
      ((m.follow mvs).isAtRest = true →
        ((m.takenIn mvs).filter (·.key = c.key)).length = n ∧
        ∀ i ≤ laps first max, i < n ↔ c.timeAt i ≤ (m.follow mvs).clock) := by
  obtain ⟨hm, n, hstage, hruns⟩ := h.runs
  have hn := hc.le_laps_succ hstage
  refine ⟨n, hn, hc.countIn_eq hruns hn, ?_, fun hlast => ?_, fun hr => ⟨?_, fun i hi => ?_⟩⟩
  · rw [hruns.count_added, ← List.range_eq_range']
    exact hc.length_filterMap_value? hn
  · rcases hstage.present with hbound | ⟨x, hheld⟩
    · rw [hbound.get?_eq, hlast, binding?, hc.value?_laps_succ]
      rfl
    · exact hheld.get?_eq
  · have hlength := congrArg List.length hruns.made_eq
    rw [List.length_map, List.length_map, List.length_range'] at hlength
    exact (h.length_taken_of_isAtRest hr).trans hlength
  · exact hc.lt_iff_timeAt_le hstage hm hends hr hi

theorem endless
    (hnever : c.rearm.ttl = 0 ∨ Instant.horizon ≤ Instant.ofMillis c.time + c.rearm.ttl)
    (hlt : first < max) :
    m.countIn c.key toInt? mvs = [] ∧
        ((m.follow mvs).isAtRest = true → (m.follow mvs).clock < c.time) ∨
      m.countIn c.key toInt? mvs = [(c.time, some first)] ∧
        (m.follow mvs).table.get? c.key = some (ofInt (first + 1), .never) := by
  obtain ⟨hm, n, hstage, hruns⟩ := h.runs
  have hzero : c.timeAt 0 = c.time := by rw [timeAt, Nat.zero_mul, Nat.add_zero]
  have hone := hc.binding?_one hnever hlt
  have hn : n ≤ 1 := by
    by_contra hgt
    obtain ⟨-, v, e, hv⟩ := hstage.past 1 (Nat.lt_of_not_le hgt)
    rw [hone] at hv
    cases hv
  have hcount := hc.countIn_eq hruns (hn.trans (Nat.le_add_left 1 _))
  rcases Nat.le_one_iff_eq_zero_or_eq_one.1 hn with rfl | rfl
  · refine .inl ⟨hcount, fun hr => ?_⟩
    rw [← hzero]
    exact (hstage.bound_of_isAtRest hm hr).2 c.value c.due rfl
  · refine .inr ⟨?_, ?_⟩
    · rw [hcount, ← hzero]
      simp [countTo]
    · rcases hstage.present with hbound | ⟨x, hheld⟩
      · exact hbound.get?_eq.trans hone
      · have hv := hone.symm.trans hheld.binding?_eq
        cases (Prod.mk.inj (Option.some.inj hv)).2

theorem countsUp : c.CountsUp toInt? ofInt first max m mvs where
  timed hends := by
    obtain ⟨n, hn, hcount, hadded, -, hrest⟩ := h.timed hc hends
    exact ⟨n, hn, hcount, hadded, fun hr => (hrest hr).2⟩
  complete hends hr hlast := by
    obtain ⟨n, hn, hcount, hadded, hgone, hrest⟩ := h.timed hc hends
    obtain ⟨htaken, htimes⟩ := hrest hr
    have hlt := (htimes (laps first max) le_rfl).2 hlast
    obtain rfl : n = laps first max + 1 := by omega
    rw [Nat.min_eq_right (Nat.le_succ _)] at hadded
    exact ⟨hcount, hgone rfl, htaken, hadded⟩
  endless := h.endless hc
  absent := by
    rintro before j rest x s rfl ht hk
    exact h.absent ht hk
  expired := h.inService.steady.expired_follow mvs
  added := h.inService.steady.added_follow mvs
  rests ms := by
    have hsound := h.runs.1.prompt.sound
    exact ⟨hsound.path_apply (.sleep ms), hsound.isAtRest_sleep ms, hsound.clock_sleep ms⟩

end

end Counts

end Cycle

namespace LiveMap

variable {settings : Settings} {hasRuntime : Bool} {m n : LiveMap ν}

theorem rearm?_follow (m : LiveMap ν) (mvs : List (Move ν)) : (m.follow mvs).rearm? = m.rearm? := by
  induction mvs generalizing m with
  | nil => rfl
  | cons mv mvs ih => exact (ih (m.move mv)).trans (rearm?_move m mv)

/-- On every map that runs, and whose callback puts entries in again with their values one higher
up to `max`, a key that nothing else touches goes through all values up to `max`, one delivery a
value and one period a delivery; if it is put in again for good it is delivered once and stays. -/
theorem counts_up {callback : Callback ν}
    (h : open? settings (some callback) hasRuntime = .ok m) {toInt? : ν → Option Int}
    {ofInt : Int → ν} {max : Int} {ttl : Span}
    (hrearm : callback.rearm? = some (.counting toInt? ofInt max ttl)) {mvs : List (Move ν)}
    (hp : Path m mvs n) (hrun : n.isRunning = true) {k : Key} {v : ν} {e : Instant} {first : Int}
    (hk : n.table.get? k = some (v, .due e)) (hfirst : toInt? v = some first)
    (hcodec : ∀ j, first < j → j ≤ max → toInt? (ofInt j) = some j)
    (hhand : ∀ x ∈ n.inHand, x.key ≠ k) {mvs' : List (Move ν)}
    (hp' : Path n mvs' (n.follow mvs')) (halone : n.LeftAlone k mvs')
    (hspare : ∀ x ∈ m.madeIn (mvs ++ mvs'), m.endsWorker x.key = false) :
    Cycle.CountsUp
      { key := k, rearm := .counting toInt? ofInt max ttl, value := v, due := e,
        time := (({} : Ledger).follow m mvs).turnOf k e }
      toInt? ofInt first max n mvs' := by
  have hn := hp.eq_follow
  rw [madeIn_append, ← hn, List.forall_mem_append] at hspare
  have hends : n.endsWorker = m.endsWorker := hn ▸ endsWorker_follow m mvs
  have hservice : n.InService (.counting toInt? ofInt max ttl) (({} : Ledger).follow m mvs) := by
    refine ⟨(prompt_of_open? h).follow hp, ?_, ?_, hrun, ?_⟩
    · rw [hn]
      exact (steady_of_open? h).follow mvs
    · rw [hn]
      exact (staffed_of_open? h).follow hspare.1
    · obtain ⟨-, -, -, rfl⟩ := open?_eq_ok_iff.1 h
      rw [hn, rearm?_follow]
      exact hrearm
  refine Cycle.Counts.countsUp ⟨hp', ⟨hk, ?_, fun v' e' hv => ?_⟩, hservice, halone, ?_⟩
    ⟨hfirst, hcodec, rfl⟩
  · exact filter_key_eq_nil hhand
  · cases hv
    rw [Cycle.timeAt, Nat.zero_mul, Nat.add_zero]
  · rw [hends]
    exact hspare.2

/-- A map that counts up to 3, one and a half milliseconds at a time. -/
def counter : LiveMap Int where
  settings := {}
  callback? := some { rearm? := some (.counting some id 3 1500000) }
  sweepers := [{ outbox? := some { capacity := 1024, workers := 4 } }]

def counting : LiveMap Int := counter.move (.call (.putUntil "n" 1 (.due 2000000)))

theorem counts_up_counting :
    Cycle.CountsUp
        { key := "n", rearm := .counting some id 3 1500000, value := 1, due := 2000000, time := 2 }
        some id 1 3 counting (counting.moves (.sleep 6)) ∧
      counting.countIn "n" some (counting.moves (.sleep 6)) =
        [(2, some 1), (4, some 2), (6, some 3)] := by
  have hopen : open? {} counter.callback? true = .ok counter := rfl
  have hp : Path counter [.call (.putUntil "n" 1 (.due 2000000))] counting := .single trivial
  have hp' := ((sound_of_open? hopen).follow hp).path_apply (.sleep 6)
  rw [hp'.eq_follow] at hp'
  constructor
  · exact counts_up hopen rfl hp rfl (by decide +kernel) rfl (fun _ _ _ => rfl)
      (by decide +kernel) hp' (by decide +kernel) (by decide +kernel)
  · decide +kernel

end LiveMap

end ExpiringMap
