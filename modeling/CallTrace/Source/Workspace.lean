/-
A folder of source files in which types are looked up.

The files are listed once, in the order of a walk: the files of a folder
by name, then its folders by name, each in the same way. A type is looked
for by the names of files first, then by the declarations in them; in both
passes the first candidate name that is found wins, and for one name the
first file. Files that cannot be read or are too large are passed over.
-/
import CallTrace.Files.Tree
import CallTrace.Source.File
import CallTrace.Source.Language
import CallTrace.Source.TypeName

namespace CallTrace.Source

open Files

/-- Folders that hold no sources of their own. -/
def skippedFolders : List String :=
  ["__pycache__", ".git", ".hg", ".svn", ".tox", ".mypy_cache",
   ".pytest_cache", "node_modules", ".eggs", "venv", ".venv", "env",
   "target", "build", "bin", "out", "dist", ".gradle", ".idea", ".vscode",
   ".flow-analysis"]

def isSkipped (folder : String) : Bool :=
  skippedFolders.contains folder || folder.endsWith ".egg-info"

/-- The greatest size of a source file, in bytes. -/
def maxSourceBytes : Nat := 1000000

/-- The order of a walk: files before folders, each by name. -/
def walksBefore : Parts → Parts → Bool
  | [], _ => true
  | _ :: _, [] => false
  | [a], [b] => !(b < a)
  | [_], _ :: _ :: _ => true
  | _ :: _ :: _, [_] => false
  | a :: as, b :: bs => if a = b then walksBefore as bs else a < b

/-- The path below a folder is one of a source file. Nothing is looked for
in skipped folders, and a link to a folder is no file. -/
private def isListed (t : Tree) (root : Parts) (p : Parts) : Bool :=
  (languageOfName? (p.getLast?.getD "")).isSome &&
    !p.dropLast.any isSkipped &&
    (match t.locate maxLinks [] (root ++ p) with
     | .ok (_, some .folder) => false
     | _ => true)

/-- The paths of all source files below a folder, in the order of a
walk. -/
def sourcePaths (t : Tree) (root : String) : List String :=
  let base := parts root
  let below := t.nodes.filterMap fun e =>
    if e.2 != .folder && base.isPrefixOf e.1 then
      some (e.1.drop base.length)
    else none
  ((below.filter (isListed t base)).mergeSort walksBefore).map fun p =>
    join root ("/".intercalate p)

/-- A folder of source files, and its files once they were listed. -/
structure Workspace where
  root : String
  listed : Option (List String) := none
deriving DecidableEq

namespace Workspace

/-- The text of a source file, with junk replaced and line breaks unified;
nothing if it cannot be read or is too large. -/
def textOf? (t : Tree) (path : String) : Option String :=
  match t.read path with
  | .ok bytes =>
    if bytes.length > maxSourceBytes then none
    else
      some (String.ofList (Text.unifyBreaks (Text.Utf8.decodeLenient bytes)))
  | .error _ => none

/-- The file at a path as the source of a type, if `accept` takes it. -/
private def sourceAt? (t : Tree) (typeName : String)
    (accept : String → Bool) (path : String) : Option SourceFile :=
  match textOf? t path with
  | some content =>
    if accept content then
      some ⟨typeName, path, content, languageOfPath path⟩
    else none
  | none => none

/-- The file that is named after the type. -/
def named? (t : Tree) (files : List String) (name : String) :
    Option SourceFile :=
  (files.filter fun f => stem (nameOf f) == name).findSome?
    (sourceAt? t name fun _ => true)

/-- The file that declares the type. -/
def declaring? (t : Tree) (files : List String) (name : String) :
    Option SourceFile :=
  files.findSome? (sourceAt? t name (declaresType · name))

/-- Only a file that is named after the type is read, and the first of them
that can be read is the one. -/
theorem named?_eq (t : Tree) (files : List String) (name : String) :
    named? t files name = files.findSome? fun f =>
      if stem (nameOf f) = name then
        (textOf? t f).map fun s => ⟨name, f, s, languageOfPath f⟩
      else none := by
  rw [named?]
  induction files with
  | nil => rw [List.filter_nil, List.findSome?_nil, List.findSome?_nil]
  | cons f files ih =>
    by_cases h : stem (nameOf f) = name
    · rw [List.filter_cons_of_pos (by simp [h]), List.findSome?_cons,
        List.findSome?_cons, if_pos h, ih, sourceAt?]
      cases textOf? t f <;> rfl
    · rw [List.filter_cons_of_neg (by simp [h]), List.findSome?_cons,
        if_neg h, ih]

/-- The first file that declares the type is the one whose text is given.
-/
theorem declaring?_eq (t : Tree) (files : List String) (name : String) :
    declaring? t files name = files.findSome? fun f =>
      ((textOf? t f).filter (declaresType · name)).map fun s =>
        ⟨name, f, s, languageOfPath f⟩ := by
  rw [declaring?]
  refine congrArg (List.findSome? · files) (funext fun f => ?_)
  rw [sourceAt?]
  cases textOf? t f with
  | none => rfl
  | some s =>
    rw [Option.filter_some]
    dsimp only
    split <;> rfl

/-- The source of a type among the files. -/
def search? (t : Tree) (files : List String) (typeName : String) :
    Option SourceFile :=
  let names := candidateNames typeName
  (names.findSome? (named? t files)).or
    (names.findSome? (declaring? t files))

/-- The files, listed now if they were not before. -/
def files (w : Workspace) (t : Tree) : List String :=
  w.listed.getD (sourcePaths t w.root)

/-- The workspace with its files listed. -/
def list (w : Workspace) (t : Tree) : Workspace :=
  { w with listed := some (w.files t) }

/-- The workspace with its files forgotten. -/
def refresh (w : Workspace) : Workspace := { w with listed := none }

/-- The source of a type, and the workspace with its files listed. -/
def lookup (w : Workspace) (t : Tree) (typeName : String) :
    Option SourceFile × Workspace :=
  (search? t (w.files t) typeName, w.list t)

end Workspace

end CallTrace.Source
