import ExpiringMap.CommandLine
import Mathlib.Data.List.Induction
import Mathlib.Data.List.TakeWhile

namespace ExpiringMap.CommandLine

def Flag.short : Flag → String
  | workers => "-w"
  | tick => "-t"

def Flag.Named (f : Flag) (arg : String) : Prop := arg = f.name ∨ arg = f.short

def unsigned (text : String) : List Char :=
  if text.toList.head? = some '+' then text.toList.tail else text.toList

/-- Decimal digits, at least one, of a number that fits in 64 bits. -/
structure Writes (text : String) (n : Nat) : Prop where
  ne_nil : unsigned text ≠ []
  isDigit : ∀ c ∈ unsigned text, c.isDigit = true
  value_eq : Nat.ofDigitChars 10 (unsigned text) 0 = n
  lt : n < Nat.pow 2 64

/-- Options with their numbers, one pair after the other. -/
inductive Pairs : List String → List (Flag × Nat) → Prop
  | nil : Pairs [] []
  | cons {f : Flag} {arg text : String} {n : Nat} {args : List String}
      {given : List (Flag × Nat)} : f.Named arg → Writes text n → Pairs args given →
      Pairs (arg :: text :: args) ((f, n) :: given)

/-- The number given last for an option. -/
def lastFor (f : Flag) (given : List (Flag × Nat)) (default : Nat) : Nat :=
  (given.filter (·.1 = f)).getLast?.elim default (·.2)

/-- Why a text writes no number: digits that come to too much are refused before anything behind
them is looked at. -/
def fault (text : String) : NumberError :=
  if text = "" then .empty
  else if Nat.pow 2 64 ≤ Nat.ofDigitChars 10 ((unsigned text).takeWhile (·.isDigit)) 0 then
    .tooLarge
  else .invalidDigit

/-- Arguments that decide the outcome whatever follows them. -/
inductive Decides : List String → Except Error Request → Prop
  | help : Decides ["--help"] (.ok .help)
  | version {arg : String} : arg = "--version" ∨ arg = "-v" → Decides [arg] (.ok .version)
  | badNumber {f : Flag} {arg text : String} : f.Named arg → (∀ n, ¬ Writes text n) →
      Decides [arg, text] (.error (.badNumber (fault text)))
  | unknown {arg : String} : (∀ f : Flag, ¬ f.Named arg) →
      arg ∉ ["--help", "--version", "-v"] → Decides [arg] (.error (.unknown arg))

/-- The outcome of what is left behind the pairs. -/
inductive Verdict (given : List (Flag × Nat)) : List String → Except Error Request → Prop
  | complete : Verdict given [] (.ok (.demonstrate
      { workers := lastFor .workers given 4, tickMillis := lastFor .tick given 1000 }))
  | noValue {f : Flag} {arg : String} : f.Named arg →
      Verdict given [arg] (.error (.missingValue f.name))
  | decided {d : List String} {r : Except Error Request} (unread : List String) : Decides d r →
      Verdict given (d ++ unread) r

theorem le_ofDigitChars (cs : List Char) (n : Nat) : n ≤ Nat.ofDigitChars 10 cs n := by
  induction cs generalizing n with
  | nil => exact Nat.le_refl n
  | cons c cs ih =>
    have hc := ih (10 * n + (c.toNat - '0'.toNat))
    rw [Nat.ofDigitChars_cons]
    omega

theorem readDigits_eq {n : Nat} (hn : n < Nat.pow 2 64) (cs : List Char) :
    readDigits n cs =
      if Nat.pow 2 64 ≤ Nat.ofDigitChars 10 (cs.takeWhile (·.isDigit)) n then .error .tooLarge
      else if cs.all (·.isDigit) then .ok (Nat.ofDigitChars 10 cs n)
      else .error .invalidDigit := by
  induction cs generalizing n with
  | nil => simp [readDigits, hn]
  | cons c cs ih =>
    rw [readDigits, List.takeWhile_cons]
    by_cases hc : c.isDigit = true
    · simp only [hc, ↓reduceIte, Nat.ofDigitChars_cons, List.all_cons, Bool.true_and]
      split
      · next hlt => exact ih hlt
      · next hge =>
        rw [if_pos (Nat.le_trans (Nat.le_of_not_lt hge) (le_ofDigitChars _ _))]
    · simp [hc, hn]

theorem readNumber_of_unsigned_eq_nil {text : String} (h : unsigned text = []) :
    readNumber text.toList = .error (fault text) := by
  have hempty := String.toList_eq_nil_iff (b := text)
  simp only [fault, h, ← hempty]
  unfold unsigned at h
  cases hcs : text.toList with
  | nil => rfl
  | cons c cs =>
    rw [hcs] at h
    simp only [List.head?_cons, Option.some.injEq, List.tail_cons] at h
    split at h
    · next hplus => subst hplus h; rfl
    · cases h

theorem readNumber_of_unsigned_ne_nil {text : String} (h : unsigned text ≠ []) :
    readNumber text.toList = readDigits 0 (unsigned text) := by
  unfold unsigned at h ⊢
  unfold readNumber
  split
  · next hcs => simp [hcs] at h
  · next hcs => simp [hcs] at h
  · next hcs => simp [hcs]
  · next hplus =>
    rw [if_neg]
    intro hhead
    obtain ⟨cs, hcs⟩ := List.head?_eq_some_iff.1 hhead
    exact hplus cs hcs

theorem readNumber_of_writes {text : String} {n : Nat} (h : Writes text n) :
    readNumber text.toList = .ok n := by
  have hall : (unsigned text).takeWhile (·.isDigit) = unsigned text :=
    List.takeWhile_eq_self_iff.2 h.isDigit
  have hlt := h.value_eq ▸ h.lt
  rw [readNumber_of_unsigned_ne_nil h.ne_nil, readDigits_eq (Nat.two_pow_pos 64), hall,
    if_neg (Nat.not_le_of_lt hlt), if_pos (List.all_eq_true.2 h.isDigit), h.value_eq]

theorem readNumber_of_forall_not_writes {text : String} (h : ∀ n, ¬ Writes text n) :
    readNumber text.toList = .error (fault text) := by
  by_cases hnil : unsigned text = []
  · exact readNumber_of_unsigned_eq_nil hnil
  · rw [readNumber_of_unsigned_ne_nil hnil, readDigits_eq (Nat.two_pow_pos 64)]
    have hne : text ≠ "" := by
      rintro rfl
      exact hnil rfl
    rw [fault, if_neg hne]
    split
    · rfl
    · next hlt =>
      rw [if_neg]
      intro hall
      rw [List.all_eq_true] at hall
      rw [List.takeWhile_eq_self_iff.2 hall] at hlt
      exact h _ ⟨hnil, hall, rfl, Nat.lt_of_not_le hlt⟩

theorem ofArgument?_eq_some_iff {arg : String} {f : Flag} :
    Flag.ofArgument? arg = some f ↔ f.Named arg := by
  unfold Flag.ofArgument? Flag.Named
  cases f <;> simp only [Flag.name, Flag.short] <;> grind

theorem ofArgument?_eq_none_iff {arg : String} :
    Flag.ofArgument? arg = none ↔ ∀ f : Flag, ¬ f.Named arg := by
  simp only [← ofArgument?_eq_some_iff]
  exact Option.eq_none_iff_forall_ne_some

theorem parse_pair {f : Flag} {arg text : String} {n : Nat} (h : f.Named arg)
    (ht : Writes text n) (o : Options) (rest : List String) :
    parse o (arg :: text :: rest) = parse (o.set n f) rest := by
  have hf := ofArgument?_eq_some_iff.2 h
  simp [parse, hf, readNumber_of_writes ht]

theorem parse_misfit {f : Flag} {arg text : String} (h : f.Named arg)
    (ht : ∀ n, ¬ Writes text n) (o : Options) (rest : List String) :
    parse o (arg :: text :: rest) = .error (.badNumber (fault text)) := by
  have hf := ofArgument?_eq_some_iff.2 h
  simp [parse, hf, readNumber_of_forall_not_writes ht]

theorem parse_alone {f : Flag} {arg : String} (h : f.Named arg) (o : Options) :
    parse o [arg] = .error (.missingValue f.name) := by
  have hf := ofArgument?_eq_some_iff.2 h
  simp [parse, hf]

theorem parse_not_named {arg : String} (h : ∀ f : Flag, ¬ f.Named arg) (o : Options)
    (rest : List String) : parse o (arg :: rest) = other arg := by
  have hf := ofArgument?_eq_none_iff.2 h
  simp [parse, hf]

theorem lastFor_cons (f g : Flag) (n : Nat) (given : List (Flag × Nat)) (default : Nat) :
    lastFor f ((g, n) :: given) default = lastFor f given (if g = f then n else default) := by
  unfold lastFor
  by_cases hg : g = f
  · rw [if_pos hg, List.filter_cons_of_pos (by simpa using hg), List.getLast?_cons]
    cases (given.filter (·.1 = f)).getLast? <;> rfl
  · rw [if_neg hg, List.filter_cons_of_neg (by simpa using hg)]

theorem Pairs.parse_append {pairs : List String} {given : List (Flag × Nat)}
    (h : Pairs pairs given) (o : Options) (rest : List String) :
    parse o (pairs ++ rest) = parse
      { workers := lastFor .workers given o.workers,
        tickMillis := lastFor .tick given o.tickMillis } rest := by
  induction h generalizing o with
  | nil => rfl
  | @cons f arg text n args given hf ht hp ih =>
    rw [List.cons_append, List.cons_append, parse_pair hf ht, ih]
    cases f <;> simp [lastFor_cons, Options.set]

theorem Decides.parse_append {d : List String} {r : Except Error Request} (h : Decides d r)
    (o : Options) (unread : List String) : parse o (d ++ unread) = r := by
  cases h with
  | help => rfl
  | version harg => rcases harg with rfl | rfl <;> rfl
  | badNumber hf ht => exact parse_misfit hf ht o unread
  | unknown hf harg =>
    rw [List.cons_append, parse_not_named hf]
    simp only [List.mem_cons, List.not_mem_nil, or_false, not_or] at harg
    simp [other, harg]

theorem Verdict.parse_eq {given : List (Flag × Nat)} {rest : List String}
    {r : Except Error Request} (h : Verdict given rest r) :
    parse { workers := lastFor .workers given 4, tickMillis := lastFor .tick given 1000 } rest =
      r := by
  cases h with
  | complete => rfl
  | noValue hf => exact parse_alone hf _
  | decided unread hd => exact hd.parse_append _ unread

theorem exists_decides {arg : String} (h : ∀ f : Flag, ¬ f.Named arg) :
    ∃ r, Decides [arg] r := by
  by_cases hhelp : arg = "--help"
  · subst hhelp
    exact ⟨_, .help⟩
  · by_cases hversion : arg = "--version" ∨ arg = "-v"
    · exact ⟨_, .version hversion⟩
    · exact ⟨_, .unknown h (by simpa [hhelp] using hversion)⟩

theorem exists_verdict (args : List String) :
    ∃ pairs given rest, args = pairs ++ rest ∧ Pairs pairs given ∧ ∀ g, ∃ r, Verdict g rest r := by
  induction args using List.twoStepInduction with
  | nil => exact ⟨[], [], [], rfl, .nil, fun _ => ⟨_, .complete⟩⟩
  | singleton arg =>
    refine ⟨[], [], [arg], rfl, .nil, fun _ => ?_⟩
    by_cases hnamed : ∃ f : Flag, f.Named arg
    · obtain ⟨f, hf⟩ := hnamed
      exact ⟨_, .noValue hf⟩
    · obtain ⟨r, hr⟩ := exists_decides (not_exists.1 hnamed)
      exact ⟨r, .decided [] hr⟩
  | cons_cons arg text args ih _ =>
    by_cases hnamed : ∃ f : Flag, f.Named arg
    · obtain ⟨f, hf⟩ := hnamed
      by_cases hwrites : ∃ n, Writes text n
      · obtain ⟨n, hn⟩ := hwrites
        obtain ⟨pairs, given, rest, rfl, hp, hex⟩ := ih
        exact ⟨arg :: text :: pairs, (f, n) :: given, rest, rfl, .cons hf hn hp, hex⟩
      · exact ⟨[], [], arg :: text :: args, rfl, .nil, fun _ =>
          ⟨_, .decided args (.badNumber hf (not_exists.1 hwrites))⟩⟩
    · obtain ⟨r, hr⟩ := exists_decides (not_exists.1 hnamed)
      exact ⟨[], [], arg :: text :: args, rfl, .nil, fun _ => ⟨r, .decided (text :: args) hr⟩⟩

/-- What has an outcome does not begin with a pair. -/
theorem Verdict.not_pair {given : List (Flag × Nat)} {arg text : String} {rest : List String}
    {r : Except Error Request} (h : Verdict given (arg :: text :: rest) r) {f : Flag} {n : Nat}
    (hf : f.Named arg) : ¬ Writes text n := by
  generalize hargs : arg :: text :: rest = args at h
  cases h with
  | complete | noValue => cases hargs
  | decided unread hd =>
    cases hd with
    | help =>
      cases hargs
      cases f <;> simp [Flag.Named, Flag.name, Flag.short] at hf
    | version harg =>
      cases hargs
      rcases harg with rfl | rfl <;> cases f <;> simp [Flag.Named, Flag.name, Flag.short] at hf
    | badNumber _ ht =>
      cases hargs
      exact ht n
    | unknown hall =>
      cases hargs
      exact absurd hf (hall f)

/-- No pairs reach beyond those in front of what has an outcome. -/
theorem Pairs.prefix_of_verdict {q : List String} {g : List (Flag × Nat)} (hq : Pairs q g)
    {pairs rest : List String} {given given' : List (Flag × Nat)} {r : Except Error Request}
    (hp : Pairs pairs given) (hr : Verdict given' rest r) (hpre : q <+: pairs ++ rest) :
    q <+: pairs := by
  induction hq generalizing pairs given with
  | nil => exact List.nil_prefix
  | @cons f arg text n args g hf ht _ ih =>
    cases hp with
    | nil =>
      obtain ⟨tail, rfl⟩ := hpre
      exact absurd ht (hr.not_pair hf)
    | cons hf' ht' hp' =>
      rw [List.cons_append, List.cons_append, List.cons_prefix_cons, List.cons_prefix_cons] at hpre
      obtain ⟨rfl, rfl, hpre⟩ := hpre
      rw [List.cons_prefix_cons, List.cons_prefix_cons]
      exact ⟨rfl, rfl, ih hp' hpre⟩

/-- Of any arguments, the longest prefix of options with their numbers sets the options, and what
stands behind it decides alone, whatever follows that. -/
theorem decided_by_first_misfit (args : List String) :
    ∃ pairs given rest, args = pairs ++ rest ∧ Pairs pairs given ∧
      (∀ q g, q <+: args → Pairs q g → q <+: pairs) ∧
      (∀ r, Verdict given rest r ↔ parse {} args = r) ∧
      ∀ d unread r, rest = d ++ unread → Decides d r →
        ∀ other, parse {} (pairs ++ d ++ other) = parse {} args := by
  obtain ⟨pairs, given, rest, rfl, hp, hex⟩ := exists_verdict args
  obtain ⟨r', hr'⟩ := hex given
  refine ⟨pairs, given, rest, rfl, hp, fun q g hpre hq => hq.prefix_of_verdict hp hr' hpre,
    fun r => ?_, fun d unread r hd hr other => ?_⟩
  · rw [hp.parse_append, hr'.parse_eq]
    refine ⟨fun hr => hr'.parse_eq.symm.trans hr.parse_eq, ?_⟩
    rintro rfl
    exact hr'
  · rw [hd, ← List.append_assoc, List.append_assoc, List.append_assoc, hp.parse_append,
      hp.parse_append, hr.parse_append, hr.parse_append]

example : respond ["-w", "+8", "-w", "--help"] =
    .ok { code := 1, stderr := "Error: invalid digit found in string\n" } := by
  decide +kernel

example : respond ["-t", "20", "-t"] =
    .ok { code := 1, stderr := "Error: --tick-ms requires a value\n" } := by
  decide +kernel

end ExpiringMap.CommandLine
