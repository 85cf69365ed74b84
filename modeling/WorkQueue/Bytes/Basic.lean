/-!
# Byte strings

Keys, values, log files and job contents are byte strings, ordered as lists of bytes: the first
difference decides, and a proper beginning comes first.

`pieces n count l` cuts a list into at most `count` parts of `n` items, the last one possibly
shorter.
-/

namespace WorkQueue

/-- A byte string. -/
abbrev Bytes := List UInt8

/-- The bytes of the UTF-8 form of a text. -/
def Bytes.ofText (text : String) : Bytes := text.toUTF8.toList

/-- The first parts of `n` items of a list, at most `count` of them. -/
def pieces {α : Type} (n : Nat) : Nat → List α → List (List α)
  | 0, _ => []
  | _ + 1, [] => []
  | count + 1, a :: l => (a :: l).take n :: pieces n count ((a :: l).drop n)

end WorkQueue
