import WorkQueue.Bytes.Basic

/-!
# Numbers of a fixed width, high byte first

`encode width n` writes the lowest `width` bytes of `n`, so a number too large for the width is
cut down to it. `decode` reads all bytes it is given.

Main lemmas: `length_encode`, `decode_encode` and `encode_decode`.
-/

namespace WorkQueue.BigEndian

/-- How many numbers there are of `width` bytes. -/
def capacity : Nat → Nat
  | 0 => 1
  | width + 1 => capacity width * 256

/-- The lowest `width` bytes of `n`, high byte first. -/
def encode : Nat → Nat → Bytes
  | 0, _ => []
  | width + 1, n => UInt8.ofNat (n / capacity width) :: encode width n

/-- The number whose digits to the base 256 are the bytes. -/
def decode (bytes : Bytes) : Nat :=
  bytes.foldl (fun n byte => n * 256 + byte.toNat) 0

theorem capacity_pos (width : Nat) : 0 < capacity width := by
  induction width with
  | zero => decide
  | succ width ih => exact Nat.mul_pos ih (by decide)

@[simp] theorem length_encode (width n : Nat) : (encode width n).length = width := by
  induction width with
  | zero => rfl
  | succ width ih => simp [encode, ih]

private theorem foldl_eq (bytes : Bytes) (n : Nat) :
    bytes.foldl (fun n byte => n * 256 + byte.toNat) n =
      n * capacity bytes.length + decode bytes := by
  induction bytes generalizing n with
  | nil => simp [decode, capacity]
  | cons byte bytes ih =>
    have hd : decode (byte :: bytes) = byte.toNat * capacity bytes.length + decode bytes := by
      rw [decode, List.foldl_cons, ih, Nat.zero_mul, Nat.zero_add]
    rw [List.foldl_cons, ih, hd, List.length_cons, capacity, Nat.add_mul, Nat.mul_assoc,
      Nat.mul_comm 256, Nat.add_assoc]

theorem decode_cons (byte : UInt8) (bytes : Bytes) :
    decode (byte :: bytes) = byte.toNat * capacity bytes.length + decode bytes := by
  rw [decode, List.foldl_cons, foldl_eq, Nat.zero_mul, Nat.zero_add]

theorem decode_lt (bytes : Bytes) : decode bytes < capacity bytes.length := by
  induction bytes with
  | nil => decide
  | cons byte bytes ih =>
    rw [decode_cons, List.length_cons, capacity]
    have hb : byte.toNat ≤ 255 := Nat.le_of_lt_succ byte.toNat_lt
    have hm := Nat.mul_le_mul_right (capacity bytes.length) hb
    omega

/-- Writing keeps the number modulo the width. -/
theorem decode_encode_mod (width n : Nat) : decode (encode width n) = n % capacity width := by
  induction width with
  | zero => simp [encode, decode, capacity, Nat.mod_one]
  | succ width ih =>
    have hbyte : (UInt8.ofNat (n / capacity width)).toNat = n / capacity width % 256 := by simp
    rw [encode, decode_cons, ih, length_encode, hbyte, capacity, Nat.mod_mul, Nat.mul_comm,
      Nat.add_comm]

/-- A number that fits reads back. -/
theorem decode_encode {width n : Nat} (h : n < capacity width) : decode (encode width n) = n := by
  rw [decode_encode_mod, Nat.mod_eq_of_lt h]

private theorem encode_add_mul (width n k : Nat) :
    encode width (k * capacity width + n) = encode width n := by
  induction width generalizing k with
  | zero => rfl
  | succ width ih =>
    have hp := capacity_pos width
    have hs : k * capacity (width + 1) + n = k * 256 * capacity width + n := by
      rw [capacity, Nat.mul_assoc, Nat.mul_comm 256]
    have hd : (k * 256 * capacity width + n) / capacity width = k * 256 + n / capacity width := by
      rw [Nat.add_comm, Nat.add_mul_div_right _ _ hp, Nat.add_comm]
    rw [encode, encode, hs, ih, hd]
    congr 1
    apply UInt8.toNat_inj.mp
    simp

/-- Bytes that were read are written again as they were. -/
theorem encode_decode (bytes : Bytes) : encode bytes.length (decode bytes) = bytes := by
  induction bytes with
  | nil => rfl
  | cons byte bytes ih =>
    have hp := capacity_pos bytes.length
    rw [List.length_cons, encode, decode_cons, encode_add_mul, ih, Nat.add_comm,
      Nat.add_mul_div_right _ _ hp, Nat.div_eq_of_lt (decode_lt bytes), Nat.zero_add]
    simp

/-- A 64-bit word as eight bytes. -/
def encodeWord (word : UInt64) : Bytes := encode 8 word.toNat

/-- The 64-bit word that eight bytes write; any other number of bytes writes none. -/
def decodeWord? (bytes : Bytes) : Option UInt64 :=
  if bytes.length = 8 then some (UInt64.ofNat (decode bytes)) else none

theorem decodeWord?_encodeWord (word : UInt64) : decodeWord? (encodeWord word) = some word := by
  have h : decode (encode 8 word.toNat) = word.toNat := decode_encode word.toNat_lt
  rw [decodeWord?, encodeWord, length_encode, if_pos rfl, h, UInt64.ofNat_toNat]

theorem encodeWord_injective {a b : UInt64} (h : encodeWord a = encodeWord b) : a = b :=
  Option.some.inj (by rw [← decodeWord?_encodeWord a, h, decodeWord?_encodeWord b])

end WorkQueue.BigEndian
