import ExpiringMap.Proofs.LiveMap.Accounts
import ExpiringMap.Proofs.Table.Readings

namespace ExpiringMap

open Table (Deed done)

variable {ν : Type}

def Call.reads : Call ν → Bool
  | .get _ | .getMany _ | .contains _ | .size | .isEmpty | .keys | .values | .statistics
  | .timeLeft _ | .visit _ | .isRunning | .describe => true
  | .put .. | .putUntil .. | .putFor .. | .erase _ | .eraseMany _ | .clear | .keep _
  | .reschedule .. | .start => false

namespace LiveMap

def Operation.reads : Operation ν → Bool
  | .call c => c.reads
  | _ => false

/-- The reports of a run on the operations that do not read. -/
def unread (m : LiveMap ν) (ops : List (Operation ν)) : List (Report ν) :=
  ((ops.zip (m.run ops)).filter fun p => !p.1.reads).map (·.2)

theorem call_of_reads (m : LiveMap ν) {c : Call ν} (h : c.reads = true) : (m.call c).1 = m := by
  cases c <;> first | rfl | cases h

theorem unread_eq (m : LiveMap ν) (ops : List (Operation ν)) :
    m.unread ops = m.run (ops.filter fun op => !op.reads) := by
  induction ops generalizing m with
  | nil => rfl
  | cons op ops ih =>
    cases hop : op.reads with
    | false =>
      have hhead : m.unread (op :: ops) = (m.report op).1 :: (m.report op).2.unread ops := by
        simp [unread, run, hop]
      rw [hhead, ih, List.filter_cons_of_pos (by rw [hop]; rfl)]
      rfl
    | true =>
      have hskip : m.unread (op :: ops) = (m.report op).2.unread ops := by
        simp [unread, run, hop]
      have hreport : (m.report op).2 = { m with delivered := [] } := by
        cases op with
        | call c => exact call_of_reads _ hop
        | settle | sleep | stop | stopTwice | restart | drop => cases hop
      rw [hskip, ih, hreport, run_with_delivered, List.filter_cons_of_neg (by rw [hop]; simp)]

/-- After every history all ways to read a table agree, and so they do at every point of any course
of a map; and to read, even with a visitor that fails, leaves the map as it is and changes no other
report of any run. -/
theorem reads_agree :
    (∀ ds : List (Deed ν), (done ds).ReadsAgree) ∧
    (∀ (settings : Settings) (callback? : Option (Callback ν)) (hasRuntime : Bool)
      (m : LiveMap ν), open? settings callback? hasRuntime = .ok m →
        ∀ mvs, (m.follow mvs).table.ReadsAgree) ∧
    (∀ (m : LiveMap ν) (c : Call ν), c.reads = true → (m.call c).1 = m) ∧
    ∀ (m : LiveMap ν) (ops : List (Operation ν)),
      m.unread ops = m.run (ops.filter fun op => !op.reads) := by
  refine ⟨fun ds => (Table.consistent_done ds).readsAgree, ?_, fun m c => m.call_of_reads,
    unread_eq⟩
  intro settings callback? hasRuntime m h mvs
  exact (consistent_follow_of_open? h mvs).readsAgree

end LiveMap

end ExpiringMap
