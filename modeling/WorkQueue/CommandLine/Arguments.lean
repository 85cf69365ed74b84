import WorkQueue.CommandLine.LogLevel

/-!
# Arguments

A command line is a list of arguments: options for the program, the name of a verb, and options and
words for the verb. `Arguments.parse` makes `Arguments` of it, or tells what to show instead of
running (`Usage`).

Options for the program and options for the verb are two levels of one shape, a `Level`, which
`Level.scan` reads. An option has two dashes, and its value follows it after an equals sign or as
the next argument; such a next argument begins with no dash, but may be a single one. Two dashes
alone end the options.

A value after an equals sign is looked at once. A value in an argument of its own, like the words
for a verb, is looked at when the next option of the same level comes, or else at the end of the
level (`Given.settle`); so help that is asked for in between is given whatever that value is.
-/

namespace WorkQueue

/-- What is shown instead of running. -/
inductive Usage where
  /-- Help was asked for. -/
  | help
  /-- The version was asked for. -/
  | version
  /-- The arguments make no sense. -/
  | mistake
deriving DecidableEq, Repr

/-- What the program is to do with the queue. -/
inductive Verb where
  | stats (metrics : Bool)
  | missing
  | push (files : List String)
  | drain (limit : Option Nat)
  | reset
  | compact
deriving DecidableEq, Repr

/-- All that a command line says. -/
structure Arguments where
  config : Option String
  /-- The log file of the store. -/
  db : Option String
  logLevel : Option LogLevel
  dryRun : Bool
  verb : Verb
deriving DecidableEq, Repr

/-- The exit code that goes with what is shown. -/
def Usage.exitCode : Usage → Nat
  | help | version => 0
  | mistake => 2

namespace Arguments

/-! ## One argument -/

/-- What an argument looks like. -/
inductive Shape where
  | word (s : String)
  /-- Two dashes and a name, with the value after an equals sign. -/
  | option (name : String) (value : Option String)
  /-- One dash and letters. -/
  | letters (first : Char)
deriving DecidableEq, Repr

/-- The look of an argument. -/
def Shape.of (arg : String) : Shape :=
  match arg.toList with
  | '-' :: '-' :: rest =>
    match rest.span (· ≠ '=') with
    | (name, '=' :: value) => .option (String.ofList name) (some (String.ofList value))
    | (name, _) => .option (String.ofList name) none
  | '-' :: c :: _ => .letters c
  | _ => .word arg

/-- A number of at most 64 bits, with or without a plus in front. -/
def number? (s : String) : Option Nat :=
  let digits := match s.toList with
    | '+' :: rest => rest
    | rest => rest
  if digits ≠ [] ∧ digits.all Char.isDigit then
    let n := digits.foldl (fun n c => n * 10 + (c.toNat - '0'.toNat)) 0
    if n < UInt64.size then some n else none
  else none

/-! ## Levels -/

/-- What may be given at a level. -/
structure Level where
  /-- The options without a value. -/
  flags : List String
  /-- The options with a value, and whether a value will do. -/
  options : List (String × (String → Bool))
  /-- Whether the version can be asked for. -/
  tellsVersion : Bool
  /-- Whether words may stand between the options. -/
  takesWords : Bool

/-- What has been given at a level. -/
structure Given where
  flags : List String := []
  values : List (String × String) := []
  words : List String := []
  /-- An option whose value has not been looked at. -/
  pending : Option (String × String) := none

/-- Where the options of a level end. -/
structure Scanned where
  given : Given
  /-- The word that ended them, and what follows it. -/
  rest : Option (String × List String)

namespace Given

/-- The value of an option. -/
def value? (g : Given) (name : String) : Option String := g.values.lookup name

/-- Takes a value for an option that has none. -/
def addValue (level : Level) (g : Given) (name value : String) : Except Usage Given :=
  match level.options.lookup name with
  | some willDo =>
    if willDo value ∧ (g.value? name).isNone then
      .ok { g with values := g.values ++ [(name, value)] }
    else .error .mistake
  | none => .error .mistake

/-- Looks at what has not been looked at. No word is empty. -/
def settle (level : Level) (g : Given) : Except Usage Given := do
  let g ← match g.pending with
    | some (name, value) => addValue level { g with pending := none } name value
    | none => pure g
  if g.words.contains "" then .error .mistake else return g

/-- Takes an option without a value, which may be given once. -/
def addFlag (level : Level) (g : Given) (name : String) : Except Usage Given := do
  let g ← g.settle level
  if level.flags.contains name ∧ !g.flags.contains name then
    return { g with flags := g.flags ++ [name] }
  else .error .mistake

/-- Gives up in favour of something to be shown. -/
def stop {α : Type} (level : Level) (g : Given) (usage : Usage) : Except Usage α := do
  let _ ← g.settle level
  .error usage

end Given

/-- Reads the arguments of a level up to the first word, if the level takes none. -/
def Level.scan (level : Level) (g : Given) : List String → Except Usage Scanned
  | [] => .ok ⟨g, none⟩
  | arg :: rest =>
    if arg = "--" then
      if level.takesWords then .ok ⟨{ g with words := g.words ++ rest }, none⟩
      else if rest.isEmpty then .ok ⟨g, none⟩
      else .error .mistake
    else
      match Shape.of arg with
      | .word word =>
        if level.takesWords then level.scan { g with words := g.words ++ [word] } rest
        else .ok ⟨g, some (word, rest)⟩
      | .letters 'h' | .option "help" none => g.stop level .help
      | .letters 'V' | .option "version" none =>
        if level.tellsVersion then g.stop level .version else .error .mistake
      | .letters _ => .error .mistake
      | .option name (some value) => do
        let g ← g.settle level
        level.scan (← g.addValue level name value) rest
      | .option name none =>
        if level.flags.contains name then do level.scan (← g.addFlag level name) rest
        else if (level.options.lookup name).isSome then
          match rest with
          | value :: rest =>
            match Shape.of value with
            | .word _ => do
              let g ← g.settle level
              level.scan { g with pending := some (name, value) } rest
            | _ => .error .mistake
          | [] => .error .mistake
        else .error .mistake

/-! ## The program and its verbs -/

/-- Whether a path says anything. -/
def isPath (s : String) : Bool := s ≠ ""

/-- The options for the program. -/
def programLevel : Level where
  flags := ["dry-run"]
  options := [("config", isPath), ("db", isPath),
    ("log-level", fun s => (LogLevel.ofName? s).isSome)]
  tellsVersion := true
  takesWords := false

/-- The options for a verb that has the given ones. -/
def verbLevel (flags : List String) (options : List (String × (String → Bool)))
    (takesWords : Bool) : Level where
  flags
  options
  tellsVersion := false
  takesWords

/-- All that is given at a level which nothing follows. -/
def Level.readAll (level : Level) (args : List String) : Except Usage Given := do
  match ← level.scan {} args with
  | ⟨g, none⟩ => g.settle level
  | ⟨_, some _⟩ => .error .mistake

/-- The names of the verbs. -/
def verbs : List String := ["stats", "missing", "push", "drain", "reset", "compact"]

/-- The verb with a name and its arguments. -/
def readVerb (name : String) (args : List String) : Except Usage Verb :=
  match name with
  | "stats" => do
    let g ← (verbLevel ["metrics"] [] false).readAll args
    return .stats (g.flags.contains "metrics")
  | "missing" => do
    let _ ← (verbLevel [] [] false).readAll args
    return .missing
  | "push" => do
    let g ← (verbLevel [] [] true).readAll args
    if g.words.isEmpty then .error .mistake else return .push g.words
  | "drain" => do
    let g ← (verbLevel [] [("limit", fun s => (number? s).isSome)] false).readAll args
    return .drain ((g.value? "limit").bind number?)
  | "reset" => do
    let _ ← (verbLevel [] [] false).readAll args
    return .reset
  | "compact" => do
    let _ ← (verbLevel [] [] false).readAll args
    return .compact
  | "help" =>
    match args with
    | [] => .error .help
    | [topic] => .error (if topic = "help" ∨ verbs.contains topic then .help else .mistake)
    | _ => .error .mistake
  | _ => .error .mistake

/-- What a command line says, the name of the program left out. -/
def parse (args : List String) : Except Usage Arguments := do
  match ← programLevel.scan {} args with
  | ⟨_, none⟩ => .error .mistake
  | ⟨g, some (name, rest)⟩ =>
    let verb ← readVerb name rest
    let g ← g.settle programLevel
    return {
      config := g.value? "config"
      db := g.value? "db"
      logLevel := (g.value? "log-level").bind LogLevel.ofName?
      dryRun := g.flags.contains "dry-run"
      verb }

end Arguments

end WorkQueue
