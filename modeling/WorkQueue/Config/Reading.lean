import WorkQueue.Config.Basic
import WorkQueue.Files.Tree
import WorkQueue.Toml.Document

/-!
# Reading a configuration

A configuration is a TOML document whose tables are the sections. What is not given has its default
value, and what has no meaning is refused: an unknown name, or a value of another type than the
section has for it. A section may also be an array, which gives the values in the order of the names
and may go on behind the last of them.

`Config.parse` reads a text, `Config.load` a file and `Config.loadChecked` a file that has to hold a
usable configuration.
-/

namespace WorkQueue.Config

open Toml (Value)

/-- The largest number that a section may have. -/
def largestNumber : Int := 18446744073709551615

/-- The values of a section, which has the given names and no others. -/
def valuesOf (names : List String) : Value → Option Toml.Table
  | .table _ entries => if entries.all fun e => names.contains e.1 then some entries else none
  | .array items => some (names.zip items)
  | .tables items => some (names.zip (items.map (.table .opened)))
  | _ => none

/-- The value of a name, or its default if none is given. -/
def setting {α : Type} (values : Toml.Table) (name : String) (ofValue : Value → Option α)
    (default : α) : Option α :=
  match values.find? name with
  | none => some default
  | some value => ofValue value

/-! ## Types of values -/

/-- A truth value. -/
def flag? : Value → Option Bool
  | .boolean b => some b
  | _ => none

/-- A number that is not negative. -/
def number? : Value → Option Nat
  | .integer (some n) => if 0 ≤ n ∧ n ≤ largestNumber then some n.toNat else none
  | _ => none

/-- A text. -/
def text? : Value → Option String
  | .text s => some s
  | _ => none

/-! ## Sections -/

/-- The section of the store. -/
def store? (value : Value) : Option StoreSettings := do
  let values ← valuesOf ["path", "sync"] value
  let defaults : StoreSettings := {}
  return {
    path := ← setting values "path" (fun v => (text? v).map some) defaults.path
    sync := ← setting values "sync" flag? defaults.sync }

/-- The section of the caches. -/
def cache? (value : Value) : Option CacheSettings := do
  let values ← valuesOf ["enabled", "jobs", "dependents"] value
  let defaults : CacheSettings := {}
  return {
    enabled := ← setting values "enabled" flag? defaults.enabled
    jobs := ← setting values "jobs" number? defaults.jobs
    dependents := ← setting values "dependents" number? defaults.dependents }

/-- The section of the metrics. -/
def metrics? (value : Value) : Option MetricsSettings := do
  let values ← valuesOf ["namespace"] value
  let defaults : MetricsSettings := {}
  return { namespaceName := ← setting values "namespace" text? defaults.namespaceName }

/-- The section of the execution of jobs. -/
def execution? (value : Value) : Option ExecutionSettings := do
  let values ← valuesOf ["progress_interval"] value
  let defaults : ExecutionSettings := {}
  return {
    progressInterval := ← setting values "progress_interval" number? defaults.progressInterval }

/-! ## Documents -/

/-- The configuration that a document describes. -/
def ofDocument? (document : Toml.Table) : Option Config := do
  let values ← valuesOf ["store", "cache", "metrics", "execution"] (.table .opened document)
  return {
    store := ← setting values "store" store? {}
    cache := ← setting values "cache" cache? {}
    metrics := ← setting values "metrics" metrics? {}
    execution := ← setting values "execution" execution? {} }

/-- The configuration that a text describes. -/
def parse (text : String) : Except Error Config :=
  match (Toml.Document.read? text).bind ofDocument? with
  | some c => .ok c
  | none => .error .toml

/-- The configuration in a file. -/
def load (files : FileTree) (path : String) : Except Error Config := do
  let text ← (files.readText path).mapError .file
  parse text

/-- The usable configuration in a file. -/
def loadChecked (files : FileTree) (path : String) : Except Error Config := do
  (← load files path).check.mapError .config

/-- The file in which a configuration is looked for if no other is named. -/
def standardPath : String := "Bootqueue.toml"

end WorkQueue.Config
