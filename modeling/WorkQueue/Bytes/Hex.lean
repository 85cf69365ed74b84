import WorkQueue.Bytes.Basic
import WorkQueue.Text.Quoted

/-!
# Hexadecimal digits

`digits` writes two lower-case digits for each byte, the higher half first, and `decode` reads
digits of either case. `read count` also wants exactly `count` bytes.
-/

namespace WorkQueue

/-- Why a text is not the hexadecimal form of a number of bytes. -/
inductive HexError where
  /-- The UTF-8 form of the text has `found` bytes, not the `expected` ones. -/
  | length (expected found : Nat)
  /-- A character that is no digit, the first one of the text. -/
  | character (c : Char)
deriving DecidableEq, Repr

namespace Hex

/-- The two digits of a byte. -/
def digitPair (byte : UInt8) : List Char :=
  [Nat.digitChar (byte.toNat / 16), Nat.digitChar (byte.toNat % 16)]

/-- The digits of all bytes. -/
def digits (bytes : Bytes) : List Char := bytes.flatMap digitPair

/-- The digits of all bytes, as a text. -/
def encode (bytes : Bytes) : String := String.ofList (digits bytes)

/-- The value of a digit. -/
def value? (c : Char) : Option Nat :=
  if '0' ≤ c ∧ c ≤ '9' then some (c.toNat - '0'.toNat)
  else if 'a' ≤ c ∧ c ≤ 'f' then some (c.toNat - 'a'.toNat + 10)
  else if 'A' ≤ c ∧ c ≤ 'F' then some (c.toNat - 'A'.toNat + 10)
  else none

/-- The value of a digit, or the complaint about it. -/
def value (c : Char) : Except HexError Nat :=
  match value? c with
  | some n => .ok n
  | none => .error (.character c)

/-- The bytes that digits write. -/
def decode : List Char → Except HexError Bytes
  | high :: low :: rest => do
    let h ← value high
    let l ← value low
    let bytes ← decode rest
    return UInt8.ofNat (16 * h + l) :: bytes
  | [single] => do
    let _ ← value single
    throw (.length 2 1)
  | [] => return []

/-- The `count` bytes that a text writes. -/
def read (count : Nat) (text : List Char) : Except HexError Bytes :=
  let size := (String.ofList text).utf8ByteSize
  if size = 2 * count then decode text else .error (.length (2 * count) size)

@[simp] theorem length_digits (bytes : Bytes) : (digits bytes).length = 2 * bytes.length := by
  induction bytes with
  | nil => rfl
  | cons byte bytes ih =>
    rw [digits] at ih
    simp [digits, digitPair, ih]
    omega

end Hex

namespace HexError

/-- The complaint in words. -/
def message : HexError → String
  | .length expected found => s!"expected {expected} hex bytes, received {found}"
  | .character c =>
    if c.toNat < 128 then s!"invalid hex character: {Text.Quoted.letter c}"
    else s!"invalid hex character: 0x{Hex.encode ((Bytes.ofText (String.singleton c)).take 1)}"

end HexError

end WorkQueue
