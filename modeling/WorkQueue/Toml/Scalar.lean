import WorkQueue.Toml.Value

/-!
# Plain values

Numbers, truth values and moments in time are written without quotes. `Scalar.read?` tells which of
them a word is, if it is one: `integer?`, `isFloat` and `isMoment` have a rule each, and no word
satisfies two of them.

A number may have an underscore between two digits (`isSpaced`). A decimal number has no leading
zeros; numbers in base 2, 8 and 16 have a mark in front and no sign.

Behind its first underscore a whole number is looked at only next to underscores, and behind a mark
there may be nothing. So `1_a` and `0x` are whole numbers, but without a value.
-/

namespace WorkQueue.Toml.Scalar

/-! ## Digits -/

/-- The value of a digit, of letters too. -/
def digit? (base : Nat) (c : Char) : Option Nat :=
  let n :=
    if c.isDigit then c.toNat - '0'.toNat
    else if 'a' ≤ c ∧ c ≤ 'z' then c.toNat - 'a'.toNat + 10
    else if 'A' ≤ c ∧ c ≤ 'Z' then c.toNat - 'A'.toNat + 10
    else base
  if n < base then some n else none

/-- Whether a character is a digit. -/
def isDigit (base : Nat) (c : Char) : Bool := (digit? base c).isSome

/-- The number that digits stand for. -/
def ofDigits (base : Nat) (digits : List Nat) : Nat := digits.foldl (fun n d => n * base + d) 0

/-- The number that a word stands for, its underscores left out. -/
def natural? (base : Nat) (s : List Char) : Option Nat :=
  let digits := s.filter (· != '_')
  if digits.isEmpty then none else (digits.mapM (digit? base)).map (ofDigits base)

/-- Whether every underscore stands between two digits. -/
def isSpaced (base : Nat) : List Char → Bool
  | c :: '_' :: d :: rest => isDigit base c && isDigit base d && isSpaced base (d :: rest)
  | c :: rest => c != '_' && isSpaced base rest
  | [] => true

/-! ## Numbers -/

/-- The sign in front of a number, and what follows. -/
def splitSign : List Char → Option Char × List Char
  | '-' :: rest => (some '-', rest)
  | '+' :: rest => (some '+', rest)
  | s => (none, s)

/-- Whether every underscore of a number stands between two digits, or between sign and digit. -/
def isSpacedNumber (base : Nat) (s : List Char) : Bool :=
  match splitSign s with
  | (some _, rest) => isSpaced base ('0' :: rest)
  | (none, rest) => isSpaced base rest

/-- Whether a character tells, behind an underscore, that the word is no whole number. -/
def isForeign (c : Char) : Bool := c == '.' || c == 'e' || c == 'E' || c == ' '

/-- Whether a word is a whole number in base 10, to judge by what stands before and right behind its
underscores. -/
def isDecimal (s : List Char) : Bool :=
  let rest := (splitSign s).2
  rest == ['0'] || rest.head? != some '0' &&
    match rest.dropWhile Char.isDigit with
    | [] => !rest.isEmpty
    | '_' :: behind => !behind.any isForeign && isSpacedNumber 16 s
    | _ => false

/-- The value of a whole number in base 10. -/
def decimal? (s : List Char) : Option Int :=
  let (sign, rest) := splitSign s
  (natural? 10 rest).map fun n => if sign = some '-' then -(n : Int) else n

/-- A number in a given base, without its mark. -/
def inBase? (base : Nat) (s : List Char) : Option (Option Int) :=
  if s.all (fun c => c == '_' || isDigit base c) && isSpaced base s then
    some ((natural? base s).map Int.ofNat)
  else none

/-- A whole number, and its value if it has one. -/
def integer? : List Char → Option (Option Int)
  | '0' :: 'x' :: rest => inBase? 16 rest
  | '0' :: 'o' :: rest => inBase? 8 rest
  | '0' :: 'b' :: rest => inBase? 2 rest
  | s => if isDecimal s then some (decimal? s) else none

/-- The digits and underscores at the beginning of a word, and what follows. -/
def spanDigits (s : List Char) : List Char × List Char := s.span fun c => c.isDigit || c == '_'

/-- Whether a word is the exponent of a number, its mark included, or is empty. -/
def isExponent : List Char → Bool
  | [] => true
  | mark :: rest =>
    let (digits, behind) := spanDigits (splitSign rest).2
    (mark == 'e' || mark == 'E') && digits.any Char.isDigit && behind.isEmpty

/-- Whether a word without a sign is a number with a fraction, an exponent or both, wherever its
underscores are. -/
def isFractional (s : List Char) : Bool :=
  let (whole, rest) := spanDigits s
  let digits := whole.filter Char.isDigit
  digits ≠ [] && (digits.length == 1 || whole.head? != some '0') &&
    match rest with
    | [] => false
    | '.' :: rest =>
      let (fraction, rest) := spanDigits rest
      fraction.any Char.isDigit && isExponent rest
    | rest => isExponent rest

/-- Whether a word is a number with a fraction, an exponent or both, infinity, or `nan`. -/
def isFloat (s : List Char) : Bool :=
  let rest := (splitSign s).2
  rest == ['i', 'n', 'f'] || rest == ['n', 'a', 'n'] || isFractional rest && isSpacedNumber 10 s

/-! ## Moments in time -/

/-- Two decimal digits. -/
def twoDigits? (a b : Char) : Option Nat := do
  return (← digit? 10 a) * 10 + (← digit? 10 b)

/-- Whether a year has a 29th of February. -/
def isLeap (year : Nat) : Bool := year % 4 = 0 ∧ (year % 100 ≠ 0 ∨ year % 400 = 0)

/-- The number of days of a month. -/
def daysIn (year month : Nat) : Nat :=
  if month = 2 then (if isLeap year then 29 else 28)
  else if month ∈ [4, 6, 9, 11] then 30
  else 31

/-- Takes a date off the front of a word. -/
def date? : List Char → Option (List Char)
  | y₁ :: y₂ :: y₃ :: y₄ :: '-' :: m₁ :: m₂ :: '-' :: d₁ :: d₂ :: rest => do
    let year := (← twoDigits? y₁ y₂) * 100 + (← twoDigits? y₃ y₄)
    let month ← twoDigits? m₁ m₂
    let day ← twoDigits? d₁ d₂
    if 1 ≤ month ∧ month ≤ 12 ∧ 1 ≤ day ∧ day ≤ daysIn year month then some rest else none
  | _ => none

/-- Takes hours and minutes off the front of a word. -/
def hourMinute? : List Char → Option (List Char)
  | h₁ :: h₂ :: ':' :: m₁ :: m₂ :: rest => do
    let hour ← twoDigits? h₁ h₂
    let minute ← twoDigits? m₁ m₂
    if hour ≤ 23 ∧ minute ≤ 59 then some rest else none
  | _ => none

/-- Takes seconds, if there are any, off the front of a word. -/
def second? : List Char → Option (List Char)
  | ':' :: s₁ :: s₂ :: rest => do
    let second ← twoDigits? s₁ s₂
    if 60 < second then none
    else
      match rest with
      | '.' :: fraction =>
        let after := fraction.dropWhile Char.isDigit
        if after.length < fraction.length then some after else none
      | _ => some rest
  | ':' :: _ => none
  | s => some s

/-- Takes a time of day off the front of a word. -/
def time? (s : List Char) : Option (List Char) := do second? (← hourMinute? s)

/-- Whether a word is the distance of a time zone, or is empty. -/
def isZone : List Char → Bool
  | [] | ['Z'] | ['z'] => true
  | '+' :: rest | '-' :: rest => hourMinute? rest = some []
  | _ => false

/-- Whether a word is a date, a time of day, or both. -/
def isMoment (s : List Char) : Bool :=
  match date? s with
  | some [] => true
  | some (mark :: rest) =>
    (mark = 'T' || mark = 't' || mark = ' ') && (time? rest).any isZone
  | none => time? s = some []

/-! ## Words -/

/-- The plain value that a word is. -/
def read? (s : List Char) : Option Value :=
  if s = ['t', 'r', 'u', 'e'] then some (.boolean true)
  else if s = ['f', 'a', 'l', 's', 'e'] then some (.boolean false)
  else
    match integer? s with
    | some value => some (.integer value)
    | none =>
      if isFloat s then some (.float (String.ofList s))
      else if isMoment s then some (.moment (String.ofList s))
      else none

end WorkQueue.Toml.Scalar
