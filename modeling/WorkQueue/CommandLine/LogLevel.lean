import WorkQueue.Text.Blank

/-!
# Levels of the program's log

A `LogLevel` has a name, and `ofName?` is the way back. `choose` takes the level that the command
line gives; without one, the level that the environment names, whatever blanks are around the name
and whatever its letters' case; and `info` if there is none either.
-/

namespace WorkQueue

/-- How much the program tells about its work. -/
inductive LogLevel where
  | error
  | warn
  | info
  | debug
  | trace
deriving DecidableEq, Repr

namespace LogLevel

/-- The level's name. -/
def name : LogLevel → String
  | error => "error"
  | warn => "warn"
  | info => "info"
  | debug => "debug"
  | trace => "trace"

/-- All levels, from the quietest on. -/
def all : List LogLevel := [error, warn, info, debug, trace]

/-- Whether a log of one level shows what is told at another. -/
def shows (level other : LogLevel) : Bool := all.idxOf other ≤ all.idxOf level

/-- The level with a name. -/
def ofName? (s : String) : Option LogLevel := all.find? fun level => level.name = s

/-- The level that a word in the environment stands for. No letter beyond ASCII has a small form
among the letters of these names, so ASCII is all that matters of a letter's case. -/
def ofWord? (word : String) : Option LogLevel :=
  let name := String.ofList ((Text.trim word.toList).map Char.toLower)
  if name = "warning" then some warn else ofName? name

/-- The level in effect. -/
def choose (given : Option LogLevel) (environment : Option String) : LogLevel :=
  (given <|> environment.bind ofWord?).getD info

end LogLevel

end WorkQueue
