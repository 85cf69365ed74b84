import Mathlib.Data.List.Forall2
import WorkQueue.JobId.Reading

/-!
# Ids in hexadecimal digits

What texts are read as ids, and as which. A digit is read like its lower-case form, so a text is
read exactly if its lower-case form is what is written for some bytes, and as these bytes.

* `Hex.value?_eq_some_iff`: the value of a digit, by its lower-case form;
* `Hex.decode_eq_ok_iff`, `Hex.read_eq_ok_iff`: texts that are read, by what is written for bytes;
* `Hex.read_eq_error`: the complaint about any other text, which is about its length or its first
  character that is no digit;
* `JobId.parse_eq_ok_iff`: a text is read as an id if what stands between its blanks is the
  hexadecimal form of the id, in letters of either case;
* `JobId.parse_hexadecimal`: what is written is read back, and which texts are refused.
-/

namespace WorkQueue

namespace Hex

/-! ## One digit -/

/-- The hexadecimal digits, with the letters of both cases. -/
def alphabet : List Char := "0123456789abcdefABCDEF".toList

private theorem of_ascii {P : Char → Prop} (h : ∀ n < 128, P (Char.ofNat n)) :
    ∀ c : Char, c.toNat < 128 → P c := fun c hc => by
  have hp := h c.toNat hc
  rwa [Char.ofNat_toNat] at hp

/-- A fact about digits is tried on each of them; left to itself, deciding it may go through all
characters there are. -/
theorem of_alphabet {P : Char → Prop} [DecidablePred P] (h : alphabet.all fun c => P c) :
    ∀ c ∈ alphabet, P c := by
  simpa using h

private theorem mem_alphabet_ascii : ∀ c : Char, c.toNat < 128 →
    (c ∈ alphabet ↔ (value? c).isSome) :=
  of_ascii (by decide +kernel)

private theorem value?_ascii : ∀ c : Char, c.toNat < 128 →
    value? c = (List.range 16).find? fun v => Nat.digitChar v == c.toLower :=
  of_ascii (by decide +kernel)

private theorem toNat_lt_of_mem : ∀ c ∈ alphabet, c.toNat < 128 := of_alphabet (by decide)

/-- No digit is written for two values. -/
private theorem find?_digitChar : ∀ v < 16,
    ((List.range 16).find? fun u => Nat.digitChar u == Nat.digitChar v) = some v := by
  decide

private theorem toNat_digitChar_lt : ∀ v < 16, (Nat.digitChar v).toNat < 128 := by decide

/-- Characters behind the ASCII ones are no digits. -/
private theorem value?_of_ge {c : Char} (h : 128 ≤ c.toNat) : value? c = none := by
  have hle : ∀ d : Char, d.toNat < 128 → ¬ c ≤ d := fun d hd hc => by
    have : c.toNat ≤ d.toNat := hc
    omega
  simp only [value?, hle '9' (by decide), hle 'f' (by decide), hle 'F' (by decide), and_false,
    if_false]

/-- They have no other lower-case form either. -/
private theorem toLower_of_ge {c : Char} (h : 128 ≤ c.toNat) : c.toLower = c := by
  refine dif_neg fun hupper => ?_
  have : c.toNat ≤ 'Z'.toNat := hupper.2
  have : 'Z'.toNat < 128 := by decide
  omega

theorem mem_alphabet_iff {c : Char} : c ∈ alphabet ↔ ∃ v, value? c = some v := by
  rw [← Option.isSome_iff_exists]
  by_cases h : c.toNat < 128
  · exact mem_alphabet_ascii c h
  · rw [value?_of_ge (Nat.le_of_not_lt h)]
    exact ⟨fun hmem => absurd (toNat_lt_of_mem c hmem) h, nofun⟩

/-- A digit has the value for which its lower-case form is written. -/
theorem value?_eq_some_iff {c : Char} {v : Nat} :
    value? c = some v ↔ v < 16 ∧ c.toLower = Nat.digitChar v := by
  by_cases h : c.toNat < 128
  · rw [value?_ascii c h]
    constructor
    · intro hfind
      have hlower := List.find?_some hfind
      exact ⟨List.mem_range.mp (List.mem_of_find?_eq_some hfind), (beq_iff_eq.mp hlower).symm⟩
    · rintro ⟨hv, hlower⟩
      rw [hlower]
      exact find?_digitChar v hv
  · have hge := Nat.le_of_not_lt h
    rw [value?_of_ge hge, toLower_of_ge hge]
    exact ⟨nofun, fun hv => absurd (hv.2 ▸ toNat_digitChar_lt v hv.1) h⟩

theorem value_eq_ok_iff {c : Char} {v : Nat} :
    value c = .ok v ↔ v < 16 ∧ c.toLower = Nat.digitChar v := by
  rw [← value?_eq_some_iff, value]
  cases value? c <;> simp

theorem value_of_stray {c : Char} (h : c ∉ alphabet) : value c = .error (.character c) := by
  rw [mem_alphabet_iff, not_exists] at h
  rw [value]
  cases hv : value? c with
  | none => rfl
  | some v => exact absurd hv (h v)

theorem exists_value {c : Char} (h : c ∈ alphabet) : ∃ v, value c = .ok v := by
  obtain ⟨v, hv⟩ := mem_alphabet_iff.mp h
  exact ⟨v, by rw [value, hv]⟩

/-! ## Digits of bytes -/

theorem digits_cons (byte : UInt8) (bytes : Bytes) :
    digits (byte :: bytes) = Nat.digitChar (byte.toNat / 16) :: Nat.digitChar (byte.toNat % 16) ::
      digits bytes := rfl

theorem decode_cons_cons (high low : Char) (rest : List Char) :
    decode (high :: low :: rest) =
      (value high).bind fun h => (value low).bind fun l =>
        (decode rest).map (UInt8.ofNat (16 * h + l) :: ·) := by
  rw [decode]
  cases value high with
  | error e => rfl
  | ok h =>
    cases value low with
    | error e => rfl
    | ok l => cases decode rest <;> rfl

/-- Two digits are read as a byte, the higher half first. -/
theorem decode_pair_eq_ok_iff {high low : Char} {rest : List Char} {byte : UInt8} {bytes : Bytes} :
    decode (high :: low :: rest) = .ok (byte :: bytes) ↔
      value high = .ok (byte.toNat / 16) ∧ value low = .ok (byte.toNat % 16) ∧
        decode rest = .ok bytes := by
  rw [decode_cons_cons]
  constructor
  · intro h
    cases hhigh : value high with
    | error e => rw [hhigh] at h; cases h
    | ok v =>
      cases hlow : value low with
      | error e => rw [hhigh, hlow] at h; cases h
      | ok u =>
        cases hrest : decode rest with
        | error e => rw [hhigh, hlow, hrest] at h; cases h
        | ok others =>
          rw [hhigh, hlow, hrest] at h
          have hv := (value_eq_ok_iff.mp hhigh).1
          have hu := (value_eq_ok_iff.mp hlow).1
          cases h
          have hbyte : (UInt8.ofNat (16 * v + u)).toNat = 16 * v + u := by
            rw [UInt8.toNat_ofNat']
            omega
          rw [hbyte]
          exact ⟨congrArg Except.ok (by omega), congrArg Except.ok (by omega), rfl⟩
  · rintro ⟨hhigh, hlow, hrest⟩
    rw [hhigh, hlow, hrest]
    show Except.ok (UInt8.ofNat (16 * (byte.toNat / 16) + byte.toNat % 16) :: bytes) = _
    rw [Nat.div_add_mod, UInt8.ofNat_toNat]

theorem decode_cons_cons_ne_nil (high low : Char) (rest : List Char) :
    decode (high :: low :: rest) ≠ .ok [] := by
  rw [decode_cons_cons]
  cases value high with
  | error e => nofun
  | ok h =>
    cases value low with
    | error e => nofun
    | ok l => cases decode rest <;> nofun

/-- A text is read as the bytes for which its lower-case form is written. -/
theorem decode_eq_ok_iff {text : List Char} {bytes : Bytes} :
    decode text = .ok bytes ↔ text.map Char.toLower = digits bytes := by
  induction text using decode.induct generalizing bytes with
  | case1 high low rest ih =>
    cases bytes with
    | nil =>
      exact ⟨fun h => absurd h (decode_cons_cons_ne_nil high low rest),
        fun h => absurd h (List.cons_ne_nil _ _)⟩
    | cons byte bytes =>
      have hbyte : byte.toNat < 256 := byte.toNat_lt
      have hhigh : byte.toNat / 16 < 16 := by omega
      have hlow : byte.toNat % 16 < 16 := by omega
      rw [decode_pair_eq_ok_iff, value_eq_ok_iff, value_eq_ok_iff, ih, digits_cons, List.map_cons,
        List.map_cons, List.cons.injEq, List.cons.injEq, and_iff_right hhigh, and_iff_right hlow]
  | case2 single =>
    -- The digits of bytes are even in number.
    refine ⟨fun h => ?_, fun h => ?_⟩
    · rw [decode] at h
      cases hv : value single <;> rw [hv] at h <;> cases h
    · have hlength := congrArg List.length h
      rw [length_digits, List.length_map, List.length_singleton] at hlength
      omega
  | case3 =>
    cases bytes with
    | nil => exact ⟨fun _ => rfl, fun _ => rfl⟩
    | cons byte bytes => constructor <;> intro h <;> cases h

theorem mem_alphabet_of_decode {text : List Char} {bytes : Bytes} (h : decode text = .ok bytes) :
    ∀ c ∈ text, c ∈ alphabet := by
  intro c hc
  have hmem : c.toLower ∈ digits bytes := decode_eq_ok_iff.mp h ▸ List.mem_map_of_mem hc
  obtain ⟨byte, -, hpair⟩ := List.mem_flatMap.mp hmem
  have hbyte : byte.toNat < 256 := byte.toNat_lt
  rw [digitPair, List.mem_pair] at hpair
  rw [mem_alphabet_iff]
  rcases hpair with hhigh | hlow
  · exact ⟨_, value?_eq_some_iff.mpr ⟨by omega, hhigh⟩⟩
  · exact ⟨_, value?_eq_some_iff.mpr ⟨by omega, hlow⟩⟩

/-- The complaint is about the first character that is no digit. -/
theorem decode_of_stray {text : List Char} {c : Char}
    (h : text.find? (fun c => c ∉ alphabet) = some c) : decode text = .error (.character c) := by
  induction text using decode.induct with
  | case1 high low rest ih =>
    rw [decode_cons_cons]
    by_cases hhigh : high ∈ alphabet
    · obtain ⟨v, hv⟩ := exists_value hhigh
      rw [List.find?_cons_of_neg (by simpa using hhigh)] at h
      by_cases hlow : low ∈ alphabet
      · obtain ⟨u, hu⟩ := exists_value hlow
        rw [List.find?_cons_of_neg (by simpa using hlow)] at h
        rw [hv, hu, ih h]
        rfl
      · rw [List.find?_cons_of_pos (by simpa using hlow), Option.some.injEq] at h
        rw [hv, value_of_stray hlow, h]
        rfl
    · rw [List.find?_cons_of_pos (by simpa using hhigh), Option.some.injEq] at h
      rw [value_of_stray hhigh, h]
      rfl
  | case2 single =>
    by_cases hsingle : single ∈ alphabet
    · rw [List.find?_cons_of_neg (by simpa using hsingle)] at h
      cases h
    · rw [List.find?_cons_of_pos (by simpa using hsingle), Option.some.injEq] at h
      rw [decode, value_of_stray hsingle, h]
      rfl
  | case3 => cases h

/-- Digits that are even in number are read. -/
theorem exists_decode {text : List Char} {n : Nat} (hlength : text.length = 2 * n)
    (h : ∀ c ∈ text, c ∈ alphabet) : ∃ bytes, decode text = .ok bytes := by
  induction text using decode.induct generalizing n with
  | case1 high low rest ih =>
    rw [List.forall_mem_cons, List.forall_mem_cons] at h
    obtain ⟨hhigh, hlow, hrest⟩ := h
    obtain ⟨v, hv⟩ := exists_value hhigh
    obtain ⟨u, hu⟩ := exists_value hlow
    rw [List.length_cons, List.length_cons] at hlength
    obtain ⟨bytes, hbytes⟩ := ih (n := n - 1) (by omega) hrest
    rw [decode_cons_cons, hv, hu, hbytes]
    exact ⟨_, rfl⟩
  | case2 single =>
    rw [List.length_singleton] at hlength
    omega
  | case3 => exact ⟨[], rfl⟩

/-! ## Texts of a fixed number of bytes -/

/-- Each digit is one byte of the text. -/
theorem utf8ByteSize_of_alphabet {text : List Char} (h : ∀ c ∈ text, c ∈ alphabet) :
    (String.ofList text).utf8ByteSize = text.length := by
  have hone : ∀ c ∈ alphabet, c.utf8Size = 1 := of_alphabet (by decide)
  induction text with
  | nil => rfl
  | cons c text ih =>
    rw [List.forall_mem_cons] at h
    rw [String.ofList_cons, String.utf8ByteSize_append, String.utf8ByteSize_singleton, ih h.2,
      hone c h.1, List.length_cons, Nat.add_comm]

theorem read_eq_ok_iff {count : Nat} {text : List Char} {bytes : Bytes} :
    read count text = .ok bytes ↔
      text.map Char.toLower = digits bytes ∧ bytes.length = count := by
  have hsize : text.map Char.toLower = digits bytes →
      (String.ofList text).utf8ByteSize = 2 * bytes.length := by
    intro h
    rw [utf8ByteSize_of_alphabet (mem_alphabet_of_decode (decode_eq_ok_iff.mpr h)),
      ← length_digits, ← h, List.length_map]
  simp only [read]
  split
  · next hcount =>
    rw [decode_eq_ok_iff]
    exact ⟨fun h => ⟨h, by have := hsize h; omega⟩, And.left⟩
  · next hcount =>
    refine ⟨nofun, fun ⟨h, hlength⟩ => absurd ?_ hcount⟩
    rw [hsize h, hlength]

/-- A text of the right size that holds digits only is read. -/
theorem exists_read {count : Nat} {text : List Char} (hlength : text.length = 2 * count)
    (h : ∀ c ∈ text, c ∈ alphabet) : ∃ bytes, read count text = .ok bytes := by
  obtain ⟨bytes, hbytes⟩ := exists_decode hlength h
  refine ⟨bytes, ?_⟩
  rw [read, if_pos (by rw [utf8ByteSize_of_alphabet h, hlength]), hbytes]

/-- The complaint about a text is about its size, or else about its first character that is no
digit. -/
theorem read_eq_error {count : Nat} {text : List Char} {cause : HexError}
    (h : read count text = .error cause) :
    ((String.ofList text).utf8ByteSize ≠ 2 * count ∧
      cause = .length (2 * count) (String.ofList text).utf8ByteSize) ∨
    ((String.ofList text).utf8ByteSize = 2 * count ∧
      ∃ c, text.find? (fun c => c ∉ alphabet) = some c ∧ cause = .character c) := by
  by_cases hsize : (String.ofList text).utf8ByteSize = 2 * count
  · refine .inr ⟨hsize, ?_⟩
    cases hstray : text.find? fun c => c ∉ alphabet with
    | some c =>
      rw [read, if_pos hsize, decode_of_stray hstray] at h
      exact ⟨c, rfl, (Except.error.inj h).symm⟩
    | none =>
      -- Digits only, and as many of them as bytes: they are read.
      have hall : ∀ c ∈ text, c ∈ alphabet := fun c hc => by
        simpa using List.find?_eq_none.mp hstray c hc
      obtain ⟨bytes, hbytes⟩ := exists_read (utf8ByteSize_of_alphabet hall ▸ hsize) hall
      rw [hbytes] at h
      cases h
  · rw [read, if_neg hsize] at h
    exact .inl ⟨hsize, (Except.error.inj h).symm⟩

end Hex

namespace JobId

open Text (trim isBlank)

variable {text : String} {id : JobId}

theorem toList_toHex (id : JobId) : id.toHex.toList = Hex.digits id.bytes := String.toList_ofList

/-- A text is read as the id whose hexadecimal form stands between its blanks, in letters of either
case. -/
theorem parse_eq_ok_iff : parse text = .ok id ↔
    (trim text.toList).map Char.toLower = id.toHex.toList := by
  rw [parse, toList_toHex]
  constructor
  · intro h
    split at h
    · next bytes hread =>
      obtain ⟨hdigits, hlength⟩ := Hex.read_eq_ok_iff.mp hread
      rw [ofBytes, ofBytes?, dif_pos hlength] at h
      cases h
      exact hdigits
    · cases h
  · intro h
    rw [Hex.read_eq_ok_iff.mpr ⟨h, id.length_bytes⟩]
    exact ofBytes_bytes id

/-- A text is refused for the size of what stands between its blanks, or else for the first
character there that is no digit. -/
theorem parse_eq_error {e : Error} (h : parse text = .error e) :
    ∃ cause, e = .decode (.idText text cause) ∧
      ((String.ofList (trim text.toList)).utf8ByteSize ≠ 64 ∧
        cause = .length 64 (String.ofList (trim text.toList)).utf8ByteSize ∨
      (String.ofList (trim text.toList)).utf8ByteSize = 64 ∧
        ∃ c, (trim text.toList).find? (fun c => c ∉ Hex.alphabet) = some c ∧
          cause = .character c) := by
  rw [parse] at h
  split at h
  · next bytes hread =>
    rw [ofBytes, ofBytes?, dif_pos (Hex.read_eq_ok_iff.mp hread).2] at h
    cases h
  · next cause hread => exact ⟨cause, (Except.error.inj h).symm, Hex.read_eq_error hread⟩

/-- A text is read if 64 digits stand between its blanks. -/
theorem exists_parse_iff : (∃ id, parse text = .ok id) ↔
    (trim text.toList).length = 64 ∧ ∀ c ∈ trim text.toList, c ∈ Hex.alphabet := by
  constructor
  · rintro ⟨id, h⟩
    rw [parse_eq_ok_iff, toList_toHex] at h
    refine ⟨?_, Hex.mem_alphabet_of_decode (Hex.decode_eq_ok_iff.mpr h)⟩
    rw [← List.length_map Char.toLower, h, Hex.length_digits, id.length_bytes]
  · rintro ⟨hlength, hall⟩
    obtain ⟨bytes, hread⟩ : ∃ bytes, Hex.read 32 (trim text.toList) = .ok bytes :=
      Hex.exists_read hlength hall
    obtain ⟨hdigits, hbytes⟩ := Hex.read_eq_ok_iff.mp hread
    exact ⟨⟨bytes, hbytes⟩, parse_eq_ok_iff.mpr (hdigits.trans (toList_toHex ⟨bytes, hbytes⟩).symm)⟩

/-! ## Writing and reading -/

/-- A digit that is written for a byte, or its upper-case form, is no blank. -/
private theorem isBlank_of_alphabet : ∀ c ∈ Hex.alphabet, isBlank c = false :=
  Hex.of_alphabet (by decide)

/-- The digits of an id with any of the letters in upper case. -/
def Spells (id : JobId) (written : List Char) : Prop :=
  List.Forall₂ (fun digit c => c = digit ∨ c = digit.toUpper) id.toHex.toList written

instance (id : JobId) (written : List Char) : Decidable (id.Spells written) :=
  inferInstanceAs (Decidable (List.Forall₂ _ _ _))

theorem Spells.map_toLower {written : List Char} (h : id.Spells written) :
    written.map Char.toLower = id.toHex.toList := by
  have hlower : ∀ v < 16, (Nat.digitChar v).toLower = Nat.digitChar v ∧
      (Nat.digitChar v).toUpper.toLower = Nat.digitChar v := by decide
  have hdigit : ∀ digit ∈ id.toHex.toList, ∃ v < 16, digit = Nat.digitChar v := by
    intro digit hmem
    rw [toList_toHex] at hmem
    obtain ⟨byte, -, hpair⟩ := List.mem_flatMap.mp hmem
    have hbyte : byte.toNat < 256 := byte.toNat_lt
    rcases List.mem_pair.mp hpair with rfl | rfl
    · exact ⟨_, by omega, rfl⟩
    · exact ⟨_, by omega, rfl⟩
  rw [Spells] at h
  generalize id.toHex.toList = digits at h hdigit ⊢
  induction h with
  | nil => rfl
  | @cons digit c digits written hc _ ih =>
    rw [List.forall_mem_cons] at hdigit
    obtain ⟨⟨v, hv, rfl⟩, hrest⟩ := hdigit
    rw [List.map_cons, ih hrest]
    rcases hc with rfl | rfl
    · rw [(hlower v hv).1]
    · rw [(hlower v hv).2]

/-- The digits of an id are read back between any blanks. -/
theorem Spells.parse {written before after : List Char} (h : id.Spells written)
    (hbefore : ∀ c ∈ before, isBlank c) (hafter : ∀ c ∈ after, isBlank c) :
    parse (String.ofList (before ++ written ++ after)) = .ok id := by
  have hdigits : ∀ c ∈ written, isBlank c = false := fun c hc =>
    isBlank_of_alphabet c (Hex.mem_alphabet_of_decode
      (Hex.decode_eq_ok_iff.mpr (h.map_toLower.trans (toList_toHex id))) c hc)
  rw [parse_eq_ok_iff, String.toList_ofList,
    Text.trim_pad hbefore hafter (fun c hc => hdigits c (List.mem_of_mem_head? hc))
      fun c hc => hdigits c (List.mem_of_getLast? hc)]
  exact h.map_toLower

/-- **The hexadecimal form of ids.** The digits of an id are read back, with letters of either case
and between any blanks. A text is read exactly if 64 digits stand between its blanks; the id is
then written with these digits in lower case. Any other text is refused as one that is no id. -/
theorem parse_hexadecimal :
    (∀ (id : JobId) (written before after : List Char), id.Spells written →
      (∀ c ∈ before, isBlank c) → (∀ c ∈ after, isBlank c) →
      parse (String.ofList (before ++ written ++ after)) = .ok id) ∧
    ∀ text : String,
      ((∃ id, parse text = .ok id) ↔
        (trim text.toList).length = 64 ∧ ∀ c ∈ trim text.toList, c ∈ Hex.alphabet) ∧
      (∀ id, parse text = .ok id →
        id.toHex = String.ofList ((trim text.toList).map Char.toLower)) ∧
      ∀ e, parse text = .error e → ∃ cause, e = .decode (.idText text cause) := by
  refine ⟨fun id written before after h hbefore hafter => h.parse hbefore hafter, fun text =>
    ⟨exists_parse_iff, fun id h => ?_, fun e h => ?_⟩⟩
  · rw [parse_eq_ok_iff.mp h, String.ofList_toList]
  · obtain ⟨cause, hcause, -⟩ := parse_eq_error h
    exact ⟨cause, hcause⟩

/-- An id with letters in all its digits. -/
def lettered : JobId := ⟨List.replicate 32 0xab, rfl⟩

/-- The id is read with every other digit in upper case, between blanks of several kinds. -/
theorem parse_hexadecimal_lettered :
    parse (String.ofList (['\u00a0', '\t'] ++ (List.replicate 32 ['a', 'B']).flatten ++
      ['\u2003', '\n'])) = .ok lettered :=
  parse_hexadecimal.1 lettered _ _ _ (by decide) (List.all_eq_true.mp (by decide))
    (List.all_eq_true.mp (by decide))

end JobId

end WorkQueue
