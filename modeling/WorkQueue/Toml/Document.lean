import WorkQueue.Toml.QuotedText

/-!
# TOML documents

`Document.read?` reads a text as a TOML document. The text is first read line by line: a `Line` is
an entry, the header of a table or the header of a new element of an array of tables. The lines are
then carried out one after the other on the table that they describe (`Document.carryOut?`).

Arrays and tables in braces may be nested `nestingLimit` deep, and a dotted key may have
`keyPartLimit` parts.
-/

namespace WorkQueue.Toml

open Text (Reader)

/-- A line of a document that says something. -/
inductive Line where
  | entry (key : Key) (value : Value)
  | header (key : Key)
  | element (key : Key)
deriving Repr

namespace Document

/-! ## Blanks and keys -/

/-- Leaves out spaces and tabs. -/
def skipSpaces : Reader Unit := Reader.skipWhile isSpace

/-- Leaves out a comment, if there is one, up to the end of the line. -/
def skipComment : Reader Unit := do
  if ← Reader.accept "#" then Reader.skipWhile isShown

/-- Leaves out spaces, comments and line breaks. -/
def skipBlank : Reader Unit := do
  let _ ← Reader.collect do
    let before ← get
    skipSpaces
    skipComment
    let _ ← lineBreak
    let after ← get
    return if after.length < before.length then some () else none

/-- Whether a character may stand in a key without quotes. -/
def isKeyCharacter (c : Char) : Bool := c.isAlphanum || c == '_' || c == '-'

/-- One part of a dotted key. -/
def keyPart : Reader String := do
  match ← Reader.peek with
  | some '"' | some '\'' => QuotedText.short
  | _ =>
    let name ← Reader.takeWhile isKeyCharacter
    Reader.require (!name.isEmpty)
    return String.ofList name

/-- How many parts a dotted key may have. -/
def keyPartLimit : Nat := 80

/-- A dotted key, and the spaces around it. -/
def key : Reader Key := do
  skipSpaces
  let first ← keyPart
  skipSpaces
  let others ← Reader.collect do
    if ← Reader.accept "." then
      skipSpaces
      let part ← keyPart
      skipSpaces
      return some part
    else return none
  let parts := first :: others
  Reader.require (parts.length ≤ keyPartLimit)
  return ⟨parts.dropLast, parts.getLastD first⟩

/-! ## Values -/

/-- How deep arrays and tables in braces may be nested. -/
def nestingLimit : Nat := 80

/-- The characters that end a plain value. -/
def separators : List Char :=
  ['=', ',', '[', ']', '\x7b', '\x7d', '#', ' ', '\t', '\r', '\n']

/-- Whether a character may stand in a plain value. -/
def isPlain (c : Char) : Bool := c ∉ separators

/-- Blanks and the plain characters behind them, if there are any. A quotation mark or apostrophe
behind blanks begins a text. -/
def plainRun : Reader (Option (List Char)) := fun s =>
  let rest := s.dropWhile isSpace
  match rest with
  | c :: _ =>
    if isPlain c && c ≠ '"' && c ≠ '\'' then
      some (some (s.takeWhile isSpace ++ rest.takeWhile isPlain), rest.dropWhile isPlain)
    else some (none, s)
  | [] => some (none, s)

/-- A plain value, which may have blanks inside. -/
def plain : Reader Value := do
  let first ← Reader.takeWhile isPlain
  let others ← Reader.collect plainRun
  match Scalar.read? (first ++ others.flatten) with
  | some value => return value
  | none => Reader.fail

/-- What stands between brackets, separated by commas: an item for each success of `item`. A comma
may follow the last item. -/
def separated {α : Type} (item : Reader α) (close : String) : Reader (List α) := do
  skipBlank
  let items ← Reader.collect do
    if ← Reader.ahead close then return none
    let a ← item
    skipBlank
    if ← Reader.accept "," then skipBlank
    else Reader.require (← Reader.ahead close)
    return some a
  Reader.expect close
  return items

/-- An entry, given how to leave out the blanks around its equals sign and how to read its value. -/
def entryOf (skip : Reader Unit) (value : Reader Value) : Reader (Key × Value) := do
  let k ← key
  skip
  Reader.expect "="
  skip
  return (k, ← value)

/-- The table in braces that has the given entries. -/
def inlineTable? (entries : List (Key × Value)) : Option Value :=
  (entries.foldlM (fun (t : Table) e => t.insert? e.1 e.2) []).map (.table .inlined)

/-- A value in which arrays and tables are nested at most `depth` deep. -/
def value : (depth : Nat) → Reader Value
  | 0 => leaf
  | depth + 1 => do
    if ← Reader.accept "[" then return .array (← separated (value depth) "]")
    else if ← Reader.accept "\x7b" then
      match inlineTable? (← separated (entryOf skipBlank (value depth)) "\x7d") with
      | some table => return table
      | none => Reader.fail
    else leaf
where
  /-- A value that is no array and no table. -/
  leaf : Reader Value := do
    match ← Reader.peek with
    | some '"' | some '\'' => return .text (← QuotedText.any)
    | _ => plain

/-! ## Lines -/

/-- A header or an entry. -/
def line : Reader Line := do
  if ← Reader.accept "[[" then
    let k ← key
    Reader.expect "]]"
    return .element k
  else if ← Reader.accept "[" then
    let k ← key
    Reader.expect "]"
    return .header k
  else
    let (k, v) ← entryOf skipSpaces (value nestingLimit)
    return .entry k v

/-- The end of a line that says something: a line break or the end of the text. -/
def lineEnd : Reader Unit := do
  skipSpaces
  skipComment
  if !(← lineBreak) then Reader.require (← Reader.peek).isNone

/-- All lines of a text that say something. A byte order mark may stand in front of them. -/
def lines : Reader (List Line) := do
  let _ ← Reader.accept "\ufeff"
  Reader.collect do
    skipBlank
    if (← Reader.peek).isNone then return none
    let l ← line
    lineEnd
    return some l

/-! ## Documents -/

/-- Carries lines out on a table, in which the table at `path` is open. -/
def carryOut? : (path : List String) → Table → List Line → Option Table
  | _, t, [] => some t
  | path, t, .entry k v :: rest => do carryOut? path (← t.modify? path (·.insert? k v)) rest
  | _, t, .header k :: rest => do carryOut? (k.path ++ [k.name]) (← t.openTable? k) rest
  | _, t, .element k :: rest => do carryOut? (k.path ++ [k.name]) (← t.openElement? k) rest

/-- The table that a text describes, if the text is a document. -/
def read? (text : String) : Option Table := do
  carryOut? [] [] (← lines.run text)

end Document

end WorkQueue.Toml
