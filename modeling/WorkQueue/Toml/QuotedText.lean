import WorkQueue.Text.Reader
import WorkQueue.Toml.Scalar

/-!
# Quoted text

A quoted text stands between quotation marks or apostrophes, on one line between single ones or on
several between triple ones. Between quotation marks a backslash begins an escape; between
apostrophes every character stands for itself.

A text on several lines leaves out the line break right after its opening mark, and one or two
marks may stand before its closing mark. A backslash at the end of one of its lines joins that line
with the next character that is not blank.
-/

namespace WorkQueue.Toml

open Text (Reader)

/-- Whether a character is a space or a tab. -/
def isSpace (c : Char) : Bool := c == ' ' || c == '\t'

/-- Whether a character may stand in a line: a tab, or anything that is no control character. -/
def isShown (c : Char) : Bool := c == '\t' || (0x20 ≤ c.toNat && c.toNat ≠ 0x7f)

/-- Takes a line break, if there is one. -/
def lineBreak : Reader Bool := do
  if ← Reader.accept "\n" then return true
  Reader.accept "\r\n"

namespace QuotedText

/-- The character with the code point that `n` hexadecimal digits give. -/
def codePoint (n : Nat) : Reader Char := do
  let digits ← (← Reader.takeExactly n).mapM fun c => (Scalar.digit? 16 c : Reader Nat)
  let value := Scalar.ofDigits 16 digits
  if h : value.isValidChar then return Char.ofNatAux value h else Reader.fail

/-- What stands after the backslash of an escape. -/
def escape : Reader Char := do
  match ← Reader.next with
  | 'b' => return '\x08'
  | 't' => return '\t'
  | 'n' => return '\n'
  | 'f' => return '\x0c'
  | 'r' => return '\r'
  | 'e' => return '\x1b'
  | '"' => return '"'
  | '\\' => return '\\'
  | 'x' => codePoint 2
  | 'u' => codePoint 4
  | 'U' => codePoint 8
  | _ => Reader.fail

/-- The characters up to the next that does not stand for itself: a mark, the beginning of an escape
or a control character. -/
def plainRun (mark : Char) (escapes : Bool) : Reader (List Char) :=
  Reader.takeWhile fun c => isShown c && c ≠ mark && !(escapes && c = '\\')

/-- Some of a text on one line, or nothing at its closing mark. -/
def lineStep (mark : Char) (escapes : Bool) : Reader (Option (List Char)) := do
  let run ← plainRun mark escapes
  if !run.isEmpty then return some run
  let c ← Reader.next
  if c = mark then return none
  Reader.require (escapes && c = '\\')
  return some [← escape]

/-- What stands after a backslash in a text on several lines: an escape, or the end of a line that
is joined with the next. -/
def escapeOrJoin : Reader (List Char) := fun s =>
  match lineBreak (s.dropWhile isSpace) with
  | some (true, rest) => (skipJoined rest).map fun r => ([], r.2)
  | _ => (escape s).map fun r => ([r.1], r.2)
where
  /-- All blanks and line breaks. -/
  skipJoined : Reader (List Unit) := Reader.collect do
    match ← Reader.peek with
    | some c =>
      if isSpace c then
        Reader.skipWhile isSpace
        return some ()
      else if ← lineBreak then return some ()
      else return none
    | none => return none

/-- Some of a text on several lines, or nothing at its closing mark. -/
def linesStep (mark : Char) (escapes : Bool) : Reader (Option (List Char)) := do
  let marks := fun n => String.ofList (List.replicate n mark)
  if ← Reader.ahead (marks 6) then Reader.fail
  if ← Reader.ahead (marks 4) then return some [← Reader.next]
  if ← Reader.accept (marks 3) then return none
  if ← Reader.accept "\r\n" then return some ['\r', '\n']
  let run ← plainRun mark escapes
  if !run.isEmpty then return some run
  let c ← Reader.next
  if escapes && c = '\\' then return some (← escapeOrJoin)
  Reader.require (c = mark || c = '\n')
  return some [c]

/-- The text after an opening mark. -/
def body (mark : Char) (escapes long : Bool) : Reader String := do
  if long then
    discard lineBreak
    return String.ofList (← Reader.collect (linesStep mark escapes)).flatten
  else return String.ofList (← Reader.collect (lineStep mark escapes)).flatten

/-- A text on one line. -/
def short : Reader String := do
  match ← Reader.next with
  | '"' => body '"' true false
  | '\'' => body '\'' false false
  | _ => Reader.fail

/-- A text on one line or on several. -/
def any : Reader String := do
  if ← Reader.accept "\"\"\"" then body '"' true true
  else if ← Reader.accept "\'\'\'" then body '\'' false true
  else short

end QuotedText

end WorkQueue.Toml
