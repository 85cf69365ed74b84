import WorkQueue.Text.Unshown

/-!
# Quoted text

A text between quotes, so that blanks, controls and the quote itself can be told apart: the usual
controls, the backslash and the enclosing quote follow a backslash, and a character without a
shape of its own is written as its number.
-/

namespace WorkQueue.Text.Quoted

/-- The digits of a number to the base 16, in lower case. -/
def hexDigits (n : Nat) : List Char := Nat.toDigits 16 n

/-- A character as it stands between two of the characters `quote`. -/
def escape (quote c : Char) : List Char :=
  if c = '\x00' then ['\\', '0']
  else if c = '\t' then ['\\', 't']
  else if c = '\n' then ['\\', 'n']
  else if c = '\r' then ['\\', 'r']
  else if c = '\\' ∨ c = quote then ['\\', c]
  else if isUnshown c then ['\\', 'u', '{'] ++ hexDigits c.toNat ++ ['}']
  else [c]

/-- A text between double quotes. -/
def text (s : String) : String :=
  String.ofList (['"'] ++ s.toList.flatMap (escape '"') ++ ['"'])

/-- A character between single quotes. -/
def letter (c : Char) : String :=
  String.ofList (['\''] ++ escape '\'' c ++ ['\''])

end WorkQueue.Text.Quoted
