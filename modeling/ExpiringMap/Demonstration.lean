import ExpiringMap.CommandLine
import ExpiringMap.LiveMap.Builder
import ExpiringMap.LiveMap.Operation

namespace ExpiringMap.Demonstration

open LiveMap (Operation)

/-- Keys that end and keys that do not, a sweeper that is stopped and holds an entry back, and a
restart that lets it go. -/
def operations (tickMillis : Nat) : List (Operation String) :=
  let ticks (n : Nat) : Span := Span.ofMillis (n * tickMillis)
  [.call (.putUntil "1" "test-1" (.due (ticks 5))),
   .call (.putFor "2" "test-2" (ticks 1)),
   .sleep (6 * tickMillis),
   .call (.putFor "session1" "user42" (ticks 3)),
   .call (.put "config" "always"),
   .sleep (2 * tickMillis),
   .stop,
   .call (.putFor "late" "user99" (ticks 2)),
   .sleep (3 * tickMillis),
   .call (.contains "late"),
   .restart,
   .sleep (2 * tickMillis),
   .stop]

def eventText (e : Event String) : String :=
  toString e.time ++ "ms expired " ++ e.key ++ "=" ++ e.value ++ "\n"

def statisticsText (s : Statistics) : String :=
  "added " ++ toString s.added ++ ", removed " ++ toString s.removed ++ ", expired " ++
    toString s.expired ++ ", permanent " ++ toString s.permanent ++ ", size " ++
    toString s.current ++ "\n"

/-- What the callback saw, and the statistics at the end. -/
def transcript (o : CommandLine.Options) : Except String String :=
  match (Builder.listening {} o.workers).build true with
  | .error e => .error e.message
  | .ok m =>
    let reports := m.run (operations o.tickMillis)
    let events := reports.flatMap (·.events)
    let last := (reports.filterMap (·.statistics?)).getLast?
    .ok (String.join (events.map eventText) ++ (last.map statisticsText).getD "")

end ExpiringMap.Demonstration
