/-!
# White space

`isBlank` is the Unicode property White_Space, and `trim` takes blank characters off both ends of
a text. Main lemma: `trim_pad`.
-/

namespace WorkQueue.Text

/-- The first and last code points of each range of white space. -/
def blanks : List (Nat × Nat) :=
  [(0x09, 0x0d), (0x20, 0x20), (0x85, 0x85), (0xa0, 0xa0), (0x1680, 0x1680), (0x2000, 0x200a),
   (0x2028, 0x2029), (0x202f, 0x202f), (0x205f, 0x205f), (0x3000, 0x3000)]

/-- Whether a character is white space. -/
def isBlank (c : Char) : Bool :=
  blanks.any fun range => range.1 ≤ c.toNat && c.toNat ≤ range.2

/-- A text without the blank characters at its beginning. -/
def trimLeft (s : List Char) : List Char := s.dropWhile isBlank

/-- A text without the blank characters at its two ends. -/
def trim (s : List Char) : List Char := (trimLeft (trimLeft s).reverse).reverse

theorem trimLeft_pad {pad s : List Char} (h : ∀ c ∈ pad, isBlank c) :
    trimLeft (pad ++ s) = trimLeft s := by
  rw [trimLeft, List.dropWhile_append_of_pos h, trimLeft]

theorem trimLeft_eq_self {s : List Char} (h : ∀ c ∈ s.head?, isBlank c = false) :
    trimLeft s = s := by
  cases s with
  | nil => rfl
  | cons c s => exact List.dropWhile_cons_of_neg (by simp [h c rfl])

/-- Blank characters around a text that neither begins nor ends blank are taken off. -/
theorem trim_pad {before s after : List Char} (hb : ∀ c ∈ before, isBlank c)
    (ha : ∀ c ∈ after, isBlank c) (hh : ∀ c ∈ s.head?, isBlank c = false)
    (hl : ∀ c ∈ s.getLast?, isBlank c = false) : trim (before ++ s ++ after) = s := by
  rw [trim, List.append_assoc, trimLeft_pad hb]
  cases s with
  | nil =>
    have hd : trimLeft (after ++ []) = [] := trimLeft_pad ha
    rw [List.append_nil] at hd
    rw [List.nil_append, hd]
    rfl
  | cons c s =>
    have hs : trimLeft (c :: s ++ after) = c :: s ++ after :=
      trimLeft_eq_self (by simpa using hh)
    rw [hs, List.reverse_append, trimLeft_pad (by simpa using ha),
      trimLeft_eq_self (by simpa only [List.head?_reverse] using hl), List.reverse_reverse]

end WorkQueue.Text
