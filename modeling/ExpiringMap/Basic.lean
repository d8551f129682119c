namespace ExpiringMap

/-- Keys are texts, equal if they have the same characters and ordered by code point. -/
abbrev Key := String

/-- Sorts by key, and keeps the order of what shares a key. -/
def Key.sortBy {α : Type} (key : α → Key) (xs : List α) : List α :=
  xs.mergeSort fun a b => key a ≤ key b

/-- A point in time, in nanoseconds from the start of the run. -/
abbrev Instant := Int

abbrev Span := Nat

namespace Span

def second : Span := 1000000000

def millisecond : Span := 1000000

def microsecond : Span := 1000

/-- The longest span: one nanosecond short of 2⁶⁴ seconds. -/
def longest : Span := Nat.pow 2 64 * second - 1

def ofMillis (ms : Nat) : Span := ms * millisecond

def toMillis (s : Span) : Nat := s / millisecond

def paddedDigits (width n : Nat) : List Char :=
  let digits := Nat.toDigits 10 n
  List.replicate (width - digits.length) '0' ++ digits

/-- `n` as a fraction of `width` digits after a point, and nothing for zero. -/
def fractionText (width n : Nat) : String :=
  if n = 0 then ""
  else "." ++ String.ofList ((paddedDigits width n).reverse.dropWhile (· == '0')).reverse

/-- `s` counted in a unit of that many nanoseconds, a power of ten with `width` zeros. -/
def textIn (unit width : Nat) (unitName : String) (s : Span) : String :=
  toString (s / unit) ++ fractionText width (s % unit) ++ unitName

def text (s : Span) : String :=
  if second ≤ s then textIn second 9 "s" s
  else if millisecond ≤ s then textIn millisecond 6 "ms" s
  else if microsecond ≤ s then textIn microsecond 3 "µs" s
  else textIn 1 0 "ns" s

end Span

namespace Instant

/-- The first instant that the clock, which counts seconds in 63 bits, does not hold. -/
def horizon : Instant := (Nat.pow 2 63 - 1) * Span.second

def later? (now : Instant) (s : Span) : Option Instant :=
  if now + s < horizon then some (now + s) else none

def ofMillis (ms : Int) : Instant := ms * Span.millisecond

def floorMillis (t : Instant) : Int := t / Span.millisecond

def ceilMillis (t : Instant) : Int := -(-t / Span.millisecond)

theorem ceilMillis_le_iff (t : Instant) (ms : Int) : ceilMillis t ≤ ms ↔ t ≤ ofMillis ms := by
  simp only [ceilMillis, ofMillis, Span.millisecond]
  lia

end Instant

end ExpiringMap
