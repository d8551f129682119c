import ExpiringMap.Proofs.LiveMap.Takings
import ExpiringMap.Proofs.Table.Balance

namespace ExpiringMap

open Table (Deed done)

variable {ν : Type}

/-- What a call does to the table, if anything. -/
def Call.deed? (now : Instant) : Call ν → Option (Deed ν)
  | .put k v => some (.command (.put k v))
  | .putUntil k v deadline => some (.command (.putUntil k v deadline))
  | .putFor k v ttl => some (.command (.putUntil k v (Deadline.ofSpan now ttl)))
  | .erase k => some (.command (.erase k))
  | .eraseMany ks => some (.eraseMany ks)
  | .clear => some (.command .clear)
  | .keep k => some (.command (.keep k))
  | .reschedule k deadline => some (.command (.reschedule k deadline now))
  | _ => none

theorem Sweeper.table_release? {now : Instant} {w w' : Watched ν} {s s' : Sweeper ν}
    {r : Release} (h : s.release? now w r = some (w', s')) : w'.table = w.table := by
  obtain ⟨alarm?, -, h⟩ := release?_cases h
  cases r with
  | leave => rw [h.2.1]
  | wake => rw [h.2.1]
  | timer =>
    obtain ⟨t, -, -, rfl, -⟩ := h
    rfl

namespace LiveMap

variable {settings : Settings} {callback? : Option (Callback ν)} {hasRuntime : Bool}
  {m : LiveMap ν}

/-- What a move does to the table: its calls, or to take out what is due. -/
def deedsOf (m : LiveMap ν) : Move ν → List (Deed ν)
  | .turn (.look i) =>
    if m.sweepers[i]?.any fun s => s.isLooking && !s.leaving then [.command (.takeDue m.now)]
    else []
  | mv => (m.callsOf mv).filterMap (·.deed? m.now)

def deeds (m : LiveMap ν) : List (Move ν) → List (Deed ν)
  | [] => []
  | mv :: mvs => m.deedsOf mv ++ (m.move mv).deeds mvs

theorem table_call (m : LiveMap ν) (c : Call ν) :
    (m.call c).1.table = (c.deed? m.now).toList.foldl Table.perform m.table := by
  cases c with
  | start => exact m.table_start
  | putUntil k v deadline => exact Watched.table_note _ _
  | putFor k v ttl => exact Watched.table_note _ _
  | reschedule k deadline => exact Watched.table_note _ _
  | _ => rfl

theorem table_callAll (m : LiveMap ν) (cs : List (Call ν)) :
    (m.callAll cs).1.table = (cs.filterMap (·.deed? m.now)).foldl Table.perform m.table := by
  induction cs generalizing m with
  | nil => rfl
  | cons c cs ih =>
    have hnow : (m.call c).1.now = m.now := by rw [now, now, clock_call]
    rw [callAll, ih, table_call, hnow, ← List.foldl_append]
    cases hc : c.deed? m.now <;> simp [hc]

theorem table_turn_look (m : LiveMap ν) (i : Nat) :
    (m.turn (.look i)).table =
      (m.deedsOf (.turn (.look i))).foldl Table.perform m.table := by
  rw [turn, turn?_look, deedsOf]
  cases hi : m.sweepers[i]? with
  | none => rfl
  | some s =>
    cases hp : s.phase with
    | looking =>
      cases hl : s.leaving with
      | true => simp [Sweeper.look?, Sweeper.isLooking, hp, hl]; rfl
      | false => simp [Sweeper.look?, Sweeper.isLooking, hp, hl]; rfl
    | handing | waiting | done => simp [Sweeper.look?, Sweeper.isLooking, hp]

theorem table_move (m : LiveMap ν) (mv : Move ν) :
    (m.move mv).table = (m.deedsOf mv).foldl Table.perform m.table := by
  cases mv with
  | call c =>
    rw [move, table_call]
    cases hc : c.deed? m.now <;> simp [deedsOf, callsOf, hc]
  | turn t =>
    cases t with
    | look i => exact m.table_turn_look i
    | work i =>
      have hdeeds : m.deedsOf (.turn (.work i)) =
          (m.callsOf (.turn (.work i))).filterMap (·.deed? m.now) := rfl
      rw [hdeeds, move, turn, turn?_work, callsOf]
      cases hs : m.sweepers[i]?.bind (·.take?) with
      | none => rfl
      | some p => exact (table_afterWork _ i p.1).trans (table_callAll _ _)
    | hand i =>
      rw [move, turn, turn?_hand]
      cases m.sweepers[i]?.bind (·.hand?) <;> rfl
    | release i r =>
      rw [move, turn, turn?_release]
      cases hs : m.sweepers[i]?.bind fun s => s.release? m.now m.watched r with
      | none => rfl
      | some p =>
        obtain ⟨s, -, hs⟩ := Option.bind_eq_some_iff.1 hs
        exact Sweeper.table_release? hs
  | wait | leave | prune | report => rfl

/-- The table of a map is the outcome of the deeds of its course. -/
theorem table_follow (m : LiveMap ν) (mvs : List (Move ν)) :
    (m.follow mvs).table = (m.deeds mvs).foldl Table.perform m.table := by
  induction mvs generalizing m with
  | nil => rfl
  | cons mv mvs ih =>
    rw [deeds, List.foldl_append, ← table_move]
    exact ih (m.move mv)

section

variable (h : open? settings callback? hasRuntime = .ok m)

include h

theorem table_of_open? : m.table = {} := by
  obtain ⟨-, -, -, rfl⟩ := open?_eq_ok_iff.1 h
  exact table_start _

theorem table_follow_of_open? (mvs : List (Move ν)) :
    (m.follow mvs).table = done (m.deeds mvs) := by
  rw [table_follow, table_of_open? h]
  rfl

theorem consistent_follow_of_open? (mvs : List (Move ν)) :
    (m.follow mvs).table.Consistent := by
  rw [table_follow_of_open? h]
  exact Table.consistent_done _

end

/-- At every point of every history the statistics add up and count the keys that are there, and
whatever comes next is counted as it changes the bindings, once; a deed on an absent key that
answers so changes nothing. The table of a map is at every point the outcome of such a history. -/
theorem statistics_balance :
    (∀ ds : List (Deed ν),
      (done ds).Balanced (({} : Table ν).droppedIn ds) ∧
      (∀ d, (done ds).Audited d) ∧
      (∀ k, (done ds).get? k = none → (done ds).Unmoved k) ∧
      (done ds).statistics.added ≤ ds.length ∧ (done ds).statistics.permanent ≤ ds.length) ∧
    ∀ (settings : Settings) (callback? : Option (Callback ν)) (hasRuntime : Bool) (m : LiveMap ν),
      open? settings callback? hasRuntime = .ok m →
        ∀ mvs, (m.follow mvs).table = done (m.deeds mvs) := by
  refine ⟨fun ds => ?_, fun settings callback? hasRuntime m h mvs => ?_⟩
  · have hd := Table.consistent_done ds
    have hle := Table.consistent_empty.tally_performAll_le ds
    have hzero : ({} : Table ν).tally = {} := rfl
    rw [hzero] at hle
    simp only [Nat.zero_add] at hle
    exact ⟨Table.balanced_done ds, hd.audited, fun k hk => Table.unmoved_of_absent hk, hle⟩
  · exact table_follow_of_open? h mvs

end LiveMap

end ExpiringMap
