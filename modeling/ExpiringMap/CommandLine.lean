namespace ExpiringMap.CommandLine

structure Options where
  workers : Nat := 4
  tickMillis : Nat := 1000
  deriving DecidableEq

inductive NumberError where
  | empty
  | invalidDigit
  | tooLarge
  deriving DecidableEq

def NumberError.message : NumberError → String
  | empty => "cannot parse integer from empty string"
  | invalidDigit => "invalid digit found in string"
  | tooLarge => "number too large to fit in target type"

/-- Reads on in decimal after `n`; a number has 64 bits. -/
def readDigits (n : Nat) : List Char → Except NumberError Nat
  | [] => .ok n
  | c :: cs =>
    if c.isDigit then
      let n := 10 * n + (c.toNat - '0'.toNat)
      if n < Nat.pow 2 64 then readDigits n cs else .error .tooLarge
    else .error .invalidDigit

/-- A number is at least one digit, after a plus sign or not. -/
def readNumber : List Char → Except NumberError Nat
  | [] => .error .empty
  | ['+'] => .error .invalidDigit
  | '+' :: cs => readDigits 0 cs
  | cs => readDigits 0 cs

inductive Error where
  | missingValue (option : String)
  | badNumber (e : NumberError)
  | unknown (argument : String)
  deriving DecidableEq

def Error.message : Error → String
  | missingValue option => option ++ " requires a value"
  | badNumber e => e.message
  | unknown argument => "unknown argument: " ++ argument

inductive Request where
  | help
  | version
  | demonstrate (o : Options)
  deriving DecidableEq

inductive Flag where
  | workers
  | tick
  deriving DecidableEq

def Flag.ofArgument? (arg : String) : Option Flag :=
  if arg = "--workers" ∨ arg = "-w" then some .workers
  else if arg = "--tick-ms" ∨ arg = "-t" then some .tick
  else none

def Flag.name : Flag → String
  | workers => "--workers"
  | tick => "--tick-ms"

def Options.set (o : Options) (n : Nat) : Flag → Options
  | .workers => { o with workers := n }
  | .tick => { o with tickMillis := n }

def other (arg : String) : Except Error Request :=
  if arg = "--help" then .ok .help
  else if arg = "--version" ∨ arg = "-v" then .ok .version
  else .error (.unknown arg)

/-- Reads from left to right; the first argument that is no option with its number decides the
outcome. -/
def parse (o : Options) : List String → Except Error Request
  | [] => .ok (.demonstrate o)
  | arg :: rest =>
    match Flag.ofArgument? arg, rest with
    | none, _ => other arg
    | some f, [] => .error (.missingValue f.name)
    | some f, number :: rest =>
      match readNumber number.toList with
      | .ok n => parse (o.set n f) rest
      | .error e => .error (.badNumber e)

def helpText : String :=
  "\ntimedmap demo - a key-value map whose entries expire on their own\n\n" ++
  "USAGE:\n    timedmap [OPTIONS]\n\nOPTIONS:\n" ++
  "    -w, --workers <N>      Expiration callback workers (default: 4)\n" ++
  "    -t, --tick-ms <MS>     Length of one demo tick in ms (default: 1000)\n" ++
  "    -v, --version          Print version information\n" ++
  "        --help             Print this help message\n\n"

def versionText : String := "timedmap version 0.1.0\n"

def errorText (e : Error) : String := "Error: " ++ e.message ++ "\n"

structure Response where
  code : Nat := 0
  stdout : String := ""
  stderr : String := ""
  deriving DecidableEq

/-- The response to arguments that ask for no demonstration, or the options of the one asked for. -/
def respond (args : List String) : Except Options Response :=
  match parse {} args with
  | .error e => .ok { code := 1, stderr := errorText e }
  | .ok .help => .ok { stdout := helpText }
  | .ok .version => .ok { stdout := versionText }
  | .ok (.demonstrate o) => .error o

end ExpiringMap.CommandLine
