import ExpiringMap.Proofs.LiveMap.Accounts
import ExpiringMap.Proofs.Table.Routes

namespace ExpiringMap.LiveMap

open Table (Deed done)

variable {ν : Type}

/-- Calls about one key that come to the same at the present clock. -/
structure CallsMeet (m : LiveMap ν) (k : Key) : Prop where
  endless : ∀ (v : ν) (ttl : Span), ttl = 0 ∨ Instant.horizon ≤ m.now + ttl →
    m.call (.putFor k v ttl) = m.call (.put k v)
  timed : ∀ (v : ν) (ttl : Span), ttl ≠ 0 → m.now + ttl < Instant.horizon →
    m.call (.putFor k v ttl) = m.call (.putUntil k v (.due (m.now + ttl)))
  keep : ∀ v d, m.table.get? k = some (v, d) →
    m.call (.keep k) = ((m.call (.put k v)).1, .flag true)
  reschedule_never : ∀ v d, m.table.get? k = some (v, d) →
    m.call (.reschedule k .never) = ((m.call (.put k v)).1, .flag true)
  reschedule_later : ∀ v d e, m.table.get? k = some (v, d) → m.now < e →
    m.call (.reschedule k (.due e)) = ((m.call (.putUntil k v (.due e))).1, .flag true)
  reschedule_past : ∀ v d e, m.table.get? k = some (v, d) → e ≤ m.now →
    m.call (.reschedule k (.due e)) = ((m.call (.erase k)).1, .flag false)
  keep_keep : (m.call (.keep k)).1.call (.keep k) = m.call (.keep k)
  absent : m.table.get? k = none → m.call (.keep k) = (m, .flag false) ∧
    m.call (.erase k) = (m, .flag false) ∧ ∀ d, m.call (.reschedule k d) = (m, .flag false)

theorem callsMeet {m : LiveMap ν} (h : m.table.Consistent) (k : Key) : m.CallsMeet k := by
  have hr := h.routesMeet k m.now
  constructor
  case endless =>
    intro v ttl hz
    have he : m.watched.table.putUntil k v (.ofSpan m.now ttl) = _ := hr.endless v ttl hz
    simp only [call, Watched.putUntil, Watched.put, he, Watched.note]
    rfl
  case timed =>
    intro v ttl hz hlt
    have he : m.watched.table.putUntil k v (.ofSpan m.now ttl) = _ := (hr.timed v ttl hz hlt).1
    simp only [call, Watched.putUntil, he]
    rfl
  case keep =>
    intro v d hk
    have he : m.watched.table.keep k = _ := hr.keep v d hk
    simp only [call, Watched.keep, Watched.put, he]
    rfl
  case reschedule_never =>
    intro v d hk
    have he : m.watched.table.reschedule k .never m.now = _ := hr.reschedule_never v d hk
    simp only [call, Watched.reschedule, Watched.put, he, Watched.note]
    rfl
  case reschedule_later =>
    intro v d e hk hlt
    have he : m.watched.table.reschedule k (.due e) m.now = _ := hr.reschedule_later v d e hk hlt
    simp only [call, Watched.reschedule, Watched.putUntil, he]
    rfl
  case reschedule_past =>
    intro v d e hk hle
    have he : m.watched.table.reschedule k (.due e) m.now = _ := hr.reschedule_past v d e hk hle
    simp only [call, Watched.reschedule, Watched.erase, he, Watched.note]
    rfl
  case keep_keep =>
    have he : (m.watched.table.keep k).1.keep k = m.watched.table.keep k := hr.keep_keep
    simp only [call, Watched.keep, he]
  case absent =>
    intro hk
    obtain ⟨herase, hkeep, hreschedule⟩ := hr.absent hk
    rw [table] at herase hkeep hreschedule
    simp only [call, Watched.keep, Watched.erase, Watched.reschedule, hkeep, herase, hreschedule,
      Watched.note]
    exact ⟨trivial, trivial, fun _ => trivial⟩

/-- Whatever has happened, ways to write that mean the same leave the same table, with its agenda,
ids and counters, and say the same of where the entry stands; and as calls at any point of any
course of a map they leave the same map. -/
theorem routes_meet :
    (∀ (ds : List (Deed ν)) (k : Key) (now : Instant), (done ds).RoutesMeet k now) ∧
    ∀ (settings : Settings) (callback? : Option (Callback ν)) (hasRuntime : Bool) (m : LiveMap ν),
      open? settings callback? hasRuntime = .ok m → ∀ mvs k, (m.follow mvs).CallsMeet k := by
  refine ⟨fun ds => (Table.consistent_done ds).routesMeet, ?_⟩
  intro settings callback? hasRuntime m h mvs
  exact callsMeet (consistent_follow_of_open? h mvs)

end ExpiringMap.LiveMap
