/-
A tree of files, folders and links.

The tree is a list of what stands at each path; a path is there at most
once, and the folders on the way to it are there too. Looking a path up
goes through it part by part, as a file system does: links are followed,
two dots lead back up, and a name that is too long is a fault only once
the folder it is looked for in has been reached.
-/
import CallTrace.Files.Path

namespace CallTrace.Files

/-- The names of the folders on the way, and the last name. -/
abbrev Parts := List String

/-- What can stand at a path. -/
inductive Node where
  | folder
  | file (bytes : List UInt8)
  | link (target : String)
deriving DecidableEq

/-- Why a path leads nowhere, or not to what is wanted. -/
inductive Fault where
  | missing
  | notFolder
  | isFolder
  | tooLong
  | tooManyLinks
deriving DecidableEq

/-- What stands at each path. The empty path is the folder of all. -/
structure Tree where
  nodes : List (Parts × Node) := []
deriving DecidableEq

/-- The greatest length of a name, in bytes. -/
def maxName : Nat := 255

/-- The greatest length of a path, in bytes. -/
def maxPath : Nat := 4095

/-- How many links are followed. -/
def maxLinks : Nat := 40

/-- What a folder is said to hold, in bytes. -/
def folderSize : Nat := 4096

/-- The path starts at the folder of all. -/
def isAbsolute (path : String) : Bool := path.toList.head? == some '/'

/-- A path from a folder: an absolute one is taken as it is. -/
def join (base path : String) : String :=
  let rest := "/".intercalate (parts path)
  if isAbsolute path then "/" ++ rest
  else if rest = "" then base
  else base ++ "/" ++ rest

namespace Tree

/-- What stands at a path itself, no link followed. -/
def node? (t : Tree) (p : Parts) : Option Node :=
  if p = [] then some .folder
  else (t.nodes.find? (·.1 = p)).map (·.2)

/-- The tree with a node at a path. -/
def set (t : Tree) (p : Parts) (n : Node) : Tree :=
  if t.nodes.any (·.1 = p) then
    ⟨t.nodes.map fun e => if e.1 = p then (p, n) else e⟩
  else ⟨t.nodes ++ [(p, n)]⟩

/-- The tree without a path and all below it. -/
def erase (t : Tree) (p : Parts) : Tree :=
  ⟨t.nodes.filter fun e => !p.isPrefixOf e.1⟩

-- ========================================================= looking up

/-- Where a path leads from the folder `at_`, and what stands there. A last
name under which nothing stands is no fault. `links` bounds the links that
are followed. -/
def locate (t : Tree) (links : Nat) (at_ : Parts) :
    Parts → Except Fault (Parts × Option Node)
  | [] => .ok (at_, t.node? at_)
  | ".." :: rest => locate t links at_.dropLast rest
  | name :: rest =>
    if name.utf8ByteSize > maxName then .error .tooLong
    else
      match t.node? (at_ ++ [name]) with
      | some .folder => locate t links (at_ ++ [name]) rest
      | some (.link target) =>
        match links with
        | 0 => .error .tooManyLinks
        | links + 1 =>
          locate t links (if isAbsolute target then [] else at_)
            (parts target ++ rest)
      | some (.file bytes) =>
        if rest = [] then .ok (at_ ++ [name], some (.file bytes))
        else .error .notFolder
      | none =>
        if rest = [] then .ok (at_ ++ [name], none) else .error .missing
termination_by p => (links, p.length)

/-- Where a path leads, and what stands there. -/
def find (t : Tree) (path : String) : Except Fault (Parts × Option Node) :=
  if path.utf8ByteSize > maxPath then .error .tooLong
  else locate t maxLinks [] (parts path)

/-- The bytes of the file at a path. -/
def read (t : Tree) (path : String) : Except Fault (List UInt8) :=
  match t.find path with
  | .ok (_, some (.file bytes)) => .ok bytes
  | .ok (_, some _) => .error .isFolder
  | .ok (_, none) => .error .missing
  | .error e => .error e

/-- The size of what stands at a path, in bytes. -/
def size (t : Tree) (path : String) : Except Fault Nat :=
  match t.read path with
  | .ok bytes => .ok bytes.length
  | .error .isFolder => .ok folderSize
  | .error e => .error e

/-- Something stands at the path. Only a name that is too long is a fault
here. -/
def holds (t : Tree) (path : String) : Except Fault Bool :=
  match t.size path with
  | .ok _ => .ok true
  | .error .tooLong => .error .tooLong
  | .error _ => .ok false

/-- The path without links and dots. What does not exist is taken by its
names. -/
def canonical (t : Tree) (links : Nat) (at_ : Parts) : Parts → Parts
  | [] => at_
  | ".." :: rest => canonical t links at_.dropLast rest
  | name :: rest =>
    match t.node? (at_ ++ [name]) with
    | some (.link target) =>
      match links with
      | 0 => canonical t 0 (at_ ++ [name]) rest
      | links + 1 =>
        canonical t links (if isAbsolute target then [] else at_)
          (parts target ++ rest)
    | _ => canonical t links (at_ ++ [name]) rest
termination_by p => (links, p.length)

/-- The canonical form of a path as text. -/
def canonicalText (t : Tree) (path : String) : String :=
  let rest := "/".intercalate (t.canonical maxLinks [] (parts path))
  if isAbsolute path then "/" ++ rest else rest

-- =========================================================== changing

/-- The folder that a path leads to. -/
def folderAt? (t : Tree) (p : Parts) : Option Parts :=
  match t.locate maxLinks [] p with
  | .ok (q, some .folder) => some q
  | _ => none

/-- The tree with a folder at a path, and on the way to it. What has been
made before a fault stays; a link that leads nowhere is one. -/
def makeFolders (t : Tree) (done : Parts) : Parts → Tree × Except Fault Unit
  | [] => (t, .ok ())
  | name :: rest =>
    let here := done ++ [name]
    match t.locate maxLinks [] here with
    | .ok (_, some .folder) => makeFolders t here rest
    | .ok (p, none) =>
      if t.folderAt? done = some p.dropLast then
        makeFolders (t.set p .folder) here rest
      else (t, .error .notFolder)
    | .ok (_, some _) => (t, .error .notFolder)
    | .error e => (t, .error e)

/-- The tree with bytes in the file at a path. Its folder has to exist. -/
def write (t : Tree) (path : String) (bytes : List UInt8) :
    Except Fault Tree :=
  match t.find path with
  | .ok (_, some .folder) => .error .isFolder
  | .ok (p, _) => .ok (t.set p (.file bytes))
  | .error e => .error e

/-- The folder of a path, and its last name. -/
def splitLast (path : String) : String × String :=
  let ps := parts path
  let front := "/".intercalate ps.dropLast
  (if isAbsolute path then "/" ++ front else front, ps.getLast?.getD "")

/-- Where a path itself stands, its last link not followed. -/
def place (t : Tree) (path : String) : Except Fault Parts :=
  let (front, name) := splitLast path
  match t.find front with
  | .ok (p, some .folder) =>
    if name.utf8ByteSize > maxName then .error .tooLong
    else .ok (p ++ [name])
  | .ok (_, some _) => .error .notFolder
  | .ok (_, none) => .error .missing
  | .error e => .error e

/-- The tree with the file at one path moved over what stands at another;
a folder there is a fault. -/
def move (t : Tree) (source target : String) : Except Fault Tree := do
  let p ← t.place source
  let q ← t.place target
  match t.node? p, t.node? q with
  | none, _ => .error .missing
  | _, some .folder => .error .isFolder
  | some n, _ => .ok ((t.erase p).set q n)

/-- The tree with a new node at a path, the folders on the way made as
well. -/
def plant (t : Tree) (path : String) (n : Node) : Tree :=
  let ps := parts path
  let (t, made) := t.makeFolders [] ps.dropLast
  match made, t.place path with
  | .ok (), .ok p => t.set p n
  | _, _ => t

/-- The tree without what stands at a path. -/
def remove (t : Tree) (path : String) : Tree :=
  match t.place path with
  | .ok p => t.erase p
  | .error _ => t

end Tree

end CallTrace.Files
