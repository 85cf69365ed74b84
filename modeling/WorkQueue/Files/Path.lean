/-!
# Paths

A path is a text whose segments are separated by slashes. A segment is a name unless it stays where
it is, as an empty one and a single dot do. `ways` lists the paths to the directories that a path
goes through, and the path itself.

`withExtension` replaces what follows the last dot of a file name.
-/

namespace WorkQueue

namespace Path

/-- Cuts a text at every slash. -/
def split : List Char → List (List Char)
  | [] => [[]]
  | c :: rest =>
    match split rest with
    | [] => [[c]]
    | first :: others => if c = '/' then [] :: first :: others else (c :: first) :: others

/-- The parts between the slashes of a path. -/
def segments (path : String) : List String := (split path.toList).map String.ofList

/-- Whether a segment stays where it is. -/
def isVoid (segment : String) : Bool := segment == "" || segment == "."

/-- The path that has the given segments. -/
def ofSegments (segments : List String) : String := "/".intercalate segments

/-- The path up to each of its names, the shortest first. -/
def ways (path : String) : List String :=
  let segments := segments path
  let ends := (List.range segments.length).filter fun n => !isVoid (segments.getD n "")
  ends.map fun n => ofSegments (segments.take (n + 1))

/-- Whether a path leads from the root. -/
def isAbsolute (path : String) : Bool := path.toList.head? == some '/'

/-- The part of a file name before its last dot, or all of it where nothing comes before. -/
def stem (name : List Char) : List Char :=
  let before := (name.reverse.dropWhile (· != '.')).drop 1
  if before.isEmpty then name else before.reverse

/-- The path to a file with another extension. -/
def withExtension (path ext : String) : String :=
  let segments := segments path
  let name := String.ofList (stem (segments.getLastD "").toList ++ ['.']) ++ ext
  ofSegments (segments.dropLast ++ [name])

end Path

end WorkQueue
