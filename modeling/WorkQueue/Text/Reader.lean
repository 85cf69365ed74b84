/-!
# Reading text

A `Reader` takes characters off the front of a text, or fails. `Reader.collect` repeats a reader
until it has no more to give; since it fails when nothing is taken, it always ends.
-/

namespace WorkQueue.Text

/-- Takes characters off the front of a text, or fails. -/
abbrev Reader := StateT (List Char) Option

namespace Reader

variable {α : Type}

/-- Gives nothing and cannot be got past. -/
def fail : Reader α := fun _ => none

/-- Fails unless a condition holds. -/
def require (condition : Bool) : Reader Unit := if condition then pure () else fail

/-- The next character, which is not taken. -/
def peek : Reader (Option Char) := fun s => some (s.head?, s)

/-- The next character. -/
def next : Reader Char
  | [] => none
  | c :: rest => some (c, rest)

/-- The longest beginning whose characters all satisfy a condition. -/
def takeWhile (p : Char → Bool) : Reader (List Char) := fun s => some (s.takeWhile p, s.dropWhile p)

/-- Leaves out the longest beginning whose characters all satisfy a condition. -/
def skipWhile (p : Char → Bool) : Reader Unit := fun s => some ((), s.dropWhile p)

/-- Exactly `n` characters. -/
def takeExactly (n : Nat) : Reader (List Char) := fun s =>
  if n ≤ s.length then some (s.take n, s.drop n) else none

/-- Whether the text begins with a word, which is not taken. -/
def ahead (word : String) : Reader Bool := fun s => some (word.toList.isPrefixOf s, s)

/-- Takes a word if the text begins with it, and tells whether it does. -/
def accept (word : String) : Reader Bool := fun s =>
  if word.toList.isPrefixOf s then some (true, s.drop word.toList.length) else some (false, s)

/-- Takes a word. -/
def expect (word : String) : Reader Unit := do require (← accept word)

/-- What `step` gives until it gives nothing. A step that gives something has to take something. -/
def collect (step : Reader (Option α)) (s : List Char) : Option (List α × List Char) :=
  match step s with
  | none => none
  | some (none, rest) => some ([], rest)
  | some (some a, rest) =>
    if rest.length < s.length then (collect step rest).map fun r => (a :: r.1, r.2) else none
termination_by s.length

/-- Reads the whole of a text. -/
def run (reader : Reader α) (text : String) : Option α :=
  match reader text.toList with
  | some (a, []) => some a
  | _ => none

end Reader

end WorkQueue.Text
