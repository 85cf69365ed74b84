/-!
# TOML values

A TOML document is a table. A table remembers how it came to be (`Form`), because that decides which
later lines may still add to it:

* `Table.insert?` adds an entry under a dotted key. The tables on the way are made if they are not
  there; the last of them has to be one that dotted keys made, and the entry has to be new.
* `Table.openTable?` is a line `[a.b]`: each table can be opened once, and only if it is new or was
  merely implied by the header of a table below it.
* `Table.openElement?` is a line `[[a.b]]`, which adds an empty table to an array of tables.
* `Table.modify?` changes the table that is open.
-/

namespace WorkQueue.Toml

/-- How a table came to be. -/
inductive Form where
  /-- A header opened it. -/
  | opened
  /-- It is on the way to a table with a header. -/
  | implied
  /-- It is on the way to the last part of a dotted key. -/
  | dotted
  /-- It is written in braces, all in one place. -/
  | inlined
deriving DecidableEq, Repr, Inhabited

/-- A value. Floating-point numbers and moments in time keep the text they were written as. -/
inductive Value where
  | text (s : String)
  /-- A whole number; `none` is one that is written as such and has no value. -/
  | integer (n : Option Int)
  | float (spelling : String)
  | boolean (b : Bool)
  | moment (spelling : String)
  | array (items : List Value)
  /-- An array of tables that headers opened. -/
  | tables (items : List (List (String × Value)))
  | table (form : Form) (entries : List (String × Value))
deriving Repr, Inhabited

/-- Named values, in the order in which the names were first given. -/
abbrev Table := List (String × Value)

/-- A dotted key: the tables that it goes through, and the name of the entry. -/
structure Key where
  path : List String
  name : String
deriving DecidableEq, Repr

namespace Table

/-- The value of a name. -/
def find? (t : Table) (name : String) : Option Value := List.lookup name t

/-- The table with another value for a name. -/
def put (t : Table) (name : String) (v : Value) : Table :=
  if (t.find? name).isSome then t.map fun e => if e.1 = name then (name, v) else e
  else t ++ [(name, v)]

/-- Whether a dotted key may go through a table that is there; `last` tells whether the entry is to
be added to that very table. -/
def admits (form : Form) (last : Bool) : Bool :=
  match form with
  | .dotted => true
  | .implied => !last
  | .opened | .inlined => false

/-- Adds an entry to the table at the end of a path of dotted keys. -/
def insertAt? (name : String) (v : Value) : List String → Table → Option Table
  | [], t => if (t.find? name).isSome then none else some (t.put name v)
  | part :: rest, t =>
    match t.find? part with
    | none => (insertAt? name v rest []).map fun inner => t.put part (.table .dotted inner)
    | some (.table form inner) =>
      if admits form rest.isEmpty then
        (insertAt? name v rest inner).map fun inner => t.put part (.table form inner)
      else none
    | some _ => none

/-- Adds an entry under a dotted key. -/
def insert? (t : Table) (key : Key) (v : Value) : Option Table := insertAt? key.name v key.path t

/-- Changes the table at the end of a path of headers; in an array of tables, that is the last. -/
def modifyAt? (f : Table → Option Table) : List String → Table → Option Table
  | [], t => f t
  | part :: rest, t =>
    match t.find? part with
    | none => (modifyAt? f rest []).map fun inner => t.put part (.table .implied inner)
    | some (.table .inlined _) => none
    | some (.table form inner) =>
      (modifyAt? f rest inner).map fun inner => t.put part (.table form inner)
    | some (.tables items) =>
      (modifyAt? f rest (items.getLastD [])).map fun inner =>
        t.put part (.tables (items.dropLast ++ [inner]))
    | some _ => none

/-- Changes the table that a header has opened. -/
def modify? (t : Table) (path : List String) (f : Table → Option Table) : Option Table :=
  modifyAt? f path t

/-- Opens a table. -/
def openTable? (t : Table) (key : Key) : Option Table :=
  t.modify? key.path fun parent =>
    match parent.find? key.name with
    | none => some (parent.put key.name (.table .opened []))
    | some (.table .implied entries) => some (parent.put key.name (.table .opened entries))
    | some _ => none

/-- Opens a new table in an array of tables. -/
def openElement? (t : Table) (key : Key) : Option Table :=
  t.modify? key.path fun parent =>
    match parent.find? key.name with
    | none => some (parent.put key.name (.tables [[]]))
    | some (.tables items) => some (parent.put key.name (.tables (items ++ [[]])))
    | some _ => none

end Table

end WorkQueue.Toml
