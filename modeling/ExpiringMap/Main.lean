import ExpiringMap.Demonstration

open ExpiringMap

/-- Writes what the arguments ask for, and answers the exit status. -/
def main (args : List String) : IO UInt32 := do
  match CommandLine.respond args with
  | .ok r =>
    IO.print r.stdout
    IO.eprint r.stderr
    return r.code.toUInt32
  | .error options =>
    match Demonstration.transcript options with
    | .ok text =>
      IO.print text
      return 0
    | .error message =>
      IO.eprint ("Error: " ++ message ++ "\n")
      return 1
