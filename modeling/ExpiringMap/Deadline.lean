import ExpiringMap.Basic

namespace ExpiringMap

/-- When an entry ends. Instants come in their own order, and every one of them before never. -/
inductive Deadline where
  | due (t : Instant)
  | never
  deriving DecidableEq

namespace Deadline

def before : Deadline → Deadline → Bool
  | due s, due t => s < t
  | due _, never => true
  | never, _ => false

instance : LT Deadline := ⟨fun a b => a.before b = true⟩

instance : LE Deadline := ⟨fun a b => b.before a = false⟩

instance (a b : Deadline) : Decidable (a < b) := inferInstanceAs (Decidable (a.before b = true))

instance (a b : Deadline) : Decidable (a ≤ b) := inferInstanceAs (Decidable (b.before a = false))

instance : Ord Deadline := ⟨fun a b => compareOfLessAndEq a b⟩

def isNever : Deadline → Bool
  | due _ => false
  | never => true

def instant? : Deadline → Option Instant
  | due t => some t
  | never => none

/-- A deadline passes at its instant, not after it. -/
def hasPassed (now : Instant) : Deadline → Bool
  | due t => t ≤ now
  | never => false

/-- The time left at `now`, zero once the deadline has passed. -/
def timeLeft (now : Instant) (d : Deadline) : Option Span :=
  d.instant?.map fun t => (t - now).toNat

/-- The deadline of what lives for `ttl` from `now`. No time at all, and more time than the clock
holds, both stand for a life without end. -/
def ofSpan (now : Instant) (ttl : Span) : Deadline :=
  if ttl = 0 then never
  else match now.later? ttl with
    | some t => due t
    | none => never

def sort (ds : List Deadline) : List Deadline := ds.mergeSort (· ≤ ·)

theorem hasPassed_never (now : Instant) : never.hasPassed now = false := rfl

theorem hasPassed_due (now t : Instant) : (due t).hasPassed now = true ↔ t ≤ now := by
  simp [hasPassed]

theorem hasPassed_ofSpan (now : Instant) (ttl : Span) : (ofSpan now ttl).hasPassed now = false := by
  unfold ofSpan Instant.later?
  split
  · rfl
  · split
    · simp only [hasPassed, decide_eq_false_iff_not]
      grind
    · rfl

end Deadline

end ExpiringMap
