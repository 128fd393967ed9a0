/-!
# Paths

Paths are texts whose components stand between slashes.  Empty components, and components `.` but
the first, do not count.
-/

namespace Cpu32.Tool.Path

/-- The texts between slashes, last first. -/
def segments (path : String) : List String := (path.splitOn "/").reverse

/-- Drops the components at the end that do not count; the first one of all is kept. -/
def dropVoid : List String → List String
  | last :: next :: rest =>
      if last = "" ∨ last = "." then dropVoid (next :: rest) else last :: next :: rest
  | short => short

/-- The path of reversed components; an empty first component is the root. -/
def ofSegments (reversed : List String) : String :=
  if reversed = [""] then "/" else "/".intercalate reversed.reverse

/-- The path without its last component. -/
def parent? (path : String) : Option String :=
  match dropVoid (segments path) with
  | [] => none
  | [only] => if only = "" then none else some ""
  | _ :: rest => some (ofSegments (dropVoid rest))

/-- The last component, if it names something below its parent. -/
def name? (path : String) : Option String :=
  match dropVoid (segments path) with
  | last :: _ => if last = "" ∨ last = "." ∨ last = ".." then none else some last
  | [] => none

/-- A name without its extension.  A name whose only dot stands in front has no extension. -/
def stem (name : String) : String :=
  match (name.splitOn ".").reverse with
  | _ :: rest => if rest = [] ∨ rest = [""] then name else ".".intercalate rest.reverse
  | [] => name

/-- A name below a directory. -/
def join (directory name : String) : String :=
  if directory = "" ∨ directory.endsWith "/" then directory ++ name else directory ++ "/" ++ name

end Cpu32.Tool.Path
