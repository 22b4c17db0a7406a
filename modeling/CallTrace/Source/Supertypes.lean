/-
The supertypes named in the declaration of a type.

The header of a declaration is the text between the type's name and its
body. Type arguments are taken out first; what is left is read as a list
of bases in parentheses, as `extends` and `implements` clauses, or as a
clause after a colon. The names come in the order in which they are
written, each once, without the type itself and without the roots that
every type has.
-/
import CallTrace.Text.Pattern
import CallTrace.Text.Lines
import CallTrace.Text.Qualified

namespace CallTrace.Source

open Text Text.Pattern

-- ==================================================== type arguments

/-- A text that is read from left to right, while a bracket may be open:
what is kept, reversed, and what stands after the open bracket,
reversed. -/
structure BracketScan where
  kept : List Char := []
  inside : Option (List Char) := none

namespace BracketScan

/-- The bracket that is open, and what follows it, is kept after all. -/
def flush (opening : Char) (s : BracketScan) : List Char :=
  match s.inside with
  | some held => held ++ opening :: s.kept
  | none => s.kept

/-- A character that is no bracket. -/
def hold (s : BracketScan) (c : Char) : BracketScan :=
  match s.inside with
  | some held => { s with inside := some (c :: held) }
  | none => { s with kept := c :: s.kept }

end BracketScan

def readAngle (s : BracketScan) (c : Char) : BracketScan :=
  if c == '<' then ⟨s.flush '<', some []⟩
  else if c == '>' && s.inside.isSome then { s with inside := none }
  else s.hold c

/-- The text without its innermost `<…>` groups. -/
def dropInnermost (cs : List Char) : List Char :=
  ((cs.foldl readAngle {}).flush '<').reverse

/-- The text without `<…>` groups, whatever their nesting: innermost
groups are dropped until there are none. -/
def stripGenerics (cs : List Char) : List Char :=
  let next := dropInnermost cs
  if next.length < cs.length then stripGenerics next else cs
termination_by cs.length

-- ============================================================= names

def readParen (s : BracketScan) (c : Char) : BracketScan :=
  if c == '(' && s.inside.isNone then ⟨s.kept, some []⟩
  else if c == ')' && s.inside.isSome then { s with inside := none }
  else if c == '\n' then ⟨c :: s.flush '(', none⟩
  else s.hold c

/-- The text without its groups in parentheses on one line. -/
def dropGroups (cs : List Char) : List Char :=
  ((cs.foldl readParen {}).flush '(').reverse

/-- Words that may stand before a base. -/
def accessWords : List String :=
  ["public", "private", "protected", "virtual"]

/-- The text without an access word and the blanks after it. -/
def dropAccess (cs : List Char) : List Char :=
  (after? (all [oneOf accessWords, blanks1]) cs).getD cs

/-- The last part of a type's name, without arguments and access word. -/
def simpleName (cs : List Char) : List Char :=
  trim (lastOf (segments (dropAccess (trim (dropGroups cs)))))

/-- The names in a list of bases. Keyword arguments and what is no
identifier are left out. -/
def splitNames (cs : List Char) : List (List Char) :=
  let parts := ((splitOn ',' cs).map trim).filter fun part =>
    !part.isEmpty && !part.contains '='
  (parts.map simpleName).filter isIdent

-- ============================================================ header

/-- The blanks at the start of the text hold a line feed. -/
def lineEnds (cs : List Char) : Bool :=
  (cs.takeWhile isBlank).contains '\n'

/-- The text up to an opening brace, a colon at the end of a line, or an
empty line; the first 200 characters if there is none of these. -/
def headerOf (cs : List Char) : List Char :=
  (go [] cs).getD (cs.take 200)
where
  go (done : List Char) : List Char → Option (List Char)
    | [] => none
    | c :: rest =>
      if c == '\x7b' || ((c == ':' || c == '\n') && lineEnds rest) then
        some done.reverse
      else go (c :: done) rest

/-- The text before the first place where a pattern matches. The first
character always belongs to it. -/
def upTo (stop : Pattern) : List Char → List Char
  | [] => []
  | c :: rest => c :: go (some c) rest
where
  go (before : Option Char) : List Char → List Char
    | [] => []
    | c :: rest =>
      if (stop ⟨before, c :: rest⟩).isEmpty then c :: go (some c) rest else []

/-- A word that stands alone. -/
def alone (w : String) : Pattern := all [boundary, word w, boundary]

/-- What follows a word in a header, up to one of the words that end it. -/
def clause? (w : String) (ends : List String) (header : List Char) :
    Option (List Char) :=
  match find? (all [boundary, word w, blanks1]) header with
  | some (_, k) =>
    if k.rest.isEmpty then none else some (upTo (any (ends.map alone)) k.rest)
  | none => none

/-- The text before ` where `. -/
def beforeWhere (cs : List Char) : List Char :=
  match cutAtText? " where ".toList cs with
  | some (front, _) => front
  | none => cs

/-- The names in a header that starts with a parenthesis: those after a
colon that follows the group, otherwise those in the group. -/
def namesOfGroup (header : List Char) : List (List Char) :=
  let (inside, after) :=
    match cutAt ')' header with
    | (inside, some after) => (inside.drop 1, after)
    | (_, none) => ((header.drop 1).dropLast, header)
  match trim after with
  | ':' :: bases => splitNames (beforeWhere bases)
  | _ => splitNames inside

/-- The names in a header with clauses. -/
def namesOfClauses (header : List Char) : List (List Char) :=
  let extended? := clause? "extends" ["implements", "with"] header
  let implemented? := clause? "implements" ["extends"] header
  let afterColon :=
    match extended?, header with
    | none, ':' :: rest =>
      let bases := trimLeft rest
      if bases.isEmpty then [] else splitNames (beforeWhere bases)
    | _, _ => []
  (extended?.map splitNames).getD [] ++
    (implemented?.map splitNames).getD [] ++ afterColon

/-- All names in a header, in order. -/
def namesOfHeader (header : List Char) : List (List Char) :=
  match header with
  | '(' :: _ => namesOfGroup header
  | _ => namesOfClauses header

-- ======================================================== supertypes

/-- Roots that say nothing about where a method is declared. -/
def ignoredRoots : List String :=
  ["object", "Object", "ABC", "Generic", "Protocol", "Any"]

/-- The declaration of a type, up to the end of its name. -/
def declaration (typeName : List Char) : Pattern :=
  all [boundary,
    oneOf ["class", "interface", "struct", "record", "object", "trait",
      "enum"],
    blanks1, literal typeName, boundary]

def isDotted (c : Char) : Bool := isWord c || c == '.'

/-- The first class of the text that extends another, up to the name of
the other. -/
def firstExtension : Pattern :=
  all [boundary, word "class", blanks1, run1 isWord, blanks1, word "extends",
    blanks1, ahead (one isDotted)]

/-- The supertypes named in the declaration of a type. Where the type has
no declaration in the text, the first extended class of the text stands
in. -/
def supertypes (content typeName : String) : List String :=
  let cs := content.toList
  match find? (declaration typeName.toList) cs with
  | some (_, k) =>
    let header := trim (stripGenerics (headerOf k.rest))
    (namesOfHeader header).foldl (fun kept name =>
      let name := String.ofList name
      if name == typeName || ignoredRoots.contains name ||
          kept.contains name then kept
      else kept ++ [name]) []
  | none =>
    match find? firstExtension cs with
    | some (_, k) => [String.ofList (simpleName (k.rest.takeWhile isDotted))]
    | none => []

end CallTrace.Source
