import ExpiringMap.Proofs.LiveMap.Shutdown
import ExpiringMap.Proofs.LiveMap.View

namespace ExpiringMap.LiveMap

variable {ν : Type} {m n : LiveMap ν}

/-- All there is to a map but for callbacks and those who run them. -/
structure Alike (m n : LiveMap ν) : Prop where
  clock : m.clock = n.clock
  table : m.table = n.table
  isRunning : m.isRunning = n.isRunning

namespace Alike

variable (h : Alike m n)

include h

theorem now : m.now = n.now := by rw [LiveMap.now, LiveMap.now, h.clock]

theorem call (c : Call ν) : Alike (m.call c).1 (n.call c).1 where
  clock := by rw [clock_call, clock_call, h.clock]
  table := by rw [table_call, table_call, h.now, h.table]
  isRunning := by
    have hr := h.isRunning
    cases hs : c.isStart with
    | true =>
      have hrunning (m : LiveMap ν) : m.start.isRunning = true := by
        unfold start
        split
        · assumption
        · simp [LiveMap.isRunning, newSweeper]
      rw [call_start hs, call_start hs, hrunning, hrunning]
    | false =>
      rw [call_make hs, call_make hs]
      exact hr

theorem answer_call_of_ne_describe {c : Call ν} (hc : c ≠ .describe) :
    (m.call c).2 = (n.call c).2 := by
  have ht : m.watched.table = n.watched.table := h.table
  have hn := h.now
  have hr := h.isRunning
  cases c with
  | describe => exact absurd rfl hc
  | isRunning => simp only [LiveMap.call, hr]
  | _ =>
    simp only [LiveMap.call, Watched.erase, Watched.eraseMany, Watched.keep, Watched.reschedule,
      LiveMap.table, ht, hn]

theorem answer_call (c : Call ν) :
    View.textless.answer (m.call c).2 = View.textless.answer (n.call c).2 := by
  by_cases hc : c = .describe
  · rw [hc]
    rfl
  · rw [h.answer_call_of_ne_describe hc]

theorem leave : Alike m.leave n.leave :=
  ⟨h.clock, h.table, by rw [isRunning_leave, isRunning_leave]⟩

end Alike

/-- Alike in everything but how far the sweepers have come. -/
structure Kindred (m n : LiveMap ν) : Prop extends Alike m n where
  settings : m.settings = n.settings
  callback? : m.callback? = n.callback?
  delivered : m.delivered = n.delivered

namespace Kindred

theorem refl (m : LiveMap ν) : Kindred m m := ⟨⟨rfl, rfl, rfl⟩, rfl, rfl, rfl⟩

variable (h : Kindred m n)

include h

theorem symm : Kindred n m :=
  ⟨⟨h.clock.symm, h.table.symm, h.isRunning.symm⟩, h.settings.symm, h.callback?.symm,
    h.delivered.symm⟩

theorem trans {l : LiveMap ν} (h' : Kindred n l) : Kindred m l :=
  ⟨⟨h.clock.trans h'.clock, h.table.trans h'.table, h.isRunning.trans h'.isRunning⟩,
    h.settings.trans h'.settings, h.callback?.trans h'.callback?, h.delivered.trans h'.delivered⟩

theorem call (c : Call ν) : Kindred (m.call c).1 (n.call c).1 where
  toAlike := h.toAlike.call c
  settings := by
    have hcall (m : LiveMap ν) : (m.call c).1.settings = m.settings := settings_callAll m [c]
    rw [hcall, hcall, h.settings]
  callback? := by rw [callback?_call, callback?_call, h.callback?]
  delivered := by rw [delivered_call, delivered_call, h.delivered]

theorem answer_call (c : Call ν) : (m.call c).2 = (n.call c).2 := by
  by_cases hc : c = .describe
  · have htext : m.describe = n.describe := by
      unfold describe
      rw [h.settings, h.callback?]
    subst hc
    exact congrArg Answer.text htext
  · exact h.toAlike.answer_call_of_ne_describe hc

omit h in
theorem callAll (h : Kindred m n) (cs : List (Call ν)) :
    Kindred (m.callAll cs).1 (n.callAll cs).1 ∧ (m.callAll cs).2 = (n.callAll cs).2 := by
  induction cs generalizing m n with
  | nil => exact ⟨h, rfl⟩
  | cons c cs ih =>
    obtain ⟨hcalls, hanswers⟩ := ih (h.call c)
    exact ⟨hcalls, congrArg₂ List.cons (h.answer_call c) hanswers⟩

theorem spend (k : Key) : Kindred (m.spend k) (n.spend k) :=
  ⟨⟨h.clock, h.table, h.isRunning⟩, h.settings, congrArg (·.map (·.spend k)) h.callback?,
    h.delivered⟩

theorem callsFor (x : Expired ν) : m.callsFor x = n.callsFor x := by
  unfold LiveMap.callsFor
  rw [h.callback?]

theorem eventsFor (x : Expired ν) : m.eventsFor x = n.eventsFor x := by
  unfold LiveMap.eventsFor
  rw [h.callback?]
  cases n.callback? with
  | none => rfl
  | some c => simp only [h.clock, ((h.spend x.key).callAll _).2]

theorem deliver (x : Expired ν) : Kindred (m.deliver x) (n.deliver x) := by
  have hcalls := ((h.spend x.key).callAll (m.callsFor x)).1
  rw [deliver_eq, deliver_eq, ← h.callsFor x]
  exact ⟨⟨hcalls.clock, hcalls.table, hcalls.isRunning⟩, hcalls.settings, hcalls.callback?,
    congrArg₂ (· ++ ·) h.delivered (h.eventsFor x)⟩

omit h in
theorem deliverAll (h : Kindred m n) (xs : List (Expired ν)) :
    Kindred (xs.foldl LiveMap.deliver m) (xs.foldl LiveMap.deliver n) := by
  induction xs generalizing m n with
  | nil => exact h
  | cons x xs ih => exact ih (h.deliver x)

end Kindred

end ExpiringMap.LiveMap
