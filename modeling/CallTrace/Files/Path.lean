/-
Paths as texts.

A path is a list of parts between slashes; empty parts and single dots say
nothing and are dropped. The extension of a file is what follows the last
dot of its name, the dot included, provided something stands on both sides
of it.
-/
import CallTrace.Text.Lines

namespace CallTrace.Files

/-- The parts of a path. -/
def parts (path : String) : List String :=
  ((Text.splitOn '/' path.toList).map String.ofList).filter fun p =>
    p != "" && p != "."

/-- The last part of a path; empty for the root or the current folder. -/
def nameOf (path : String) : String := (parts path).getLast?.getD ""

/-- The name of a file without its extension, and the extension. -/
def splitName (name : String) : String × String :=
  let cs := name.toList
  match cs.reverse.span (· != '.') with
  | (ext, '.' :: stem) =>
    if ext.isEmpty || stem.isEmpty then (name, "")
    else (String.ofList stem.reverse, String.ofList ('.' :: ext.reverse))
  | _ => (name, "")

def stem (name : String) : String := (splitName name).1

def extension (name : String) : String := (splitName name).2

end CallTrace.Files
