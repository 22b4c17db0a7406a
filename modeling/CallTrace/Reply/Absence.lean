/-
Replies that say the method is not there.

Such a reply names types in which the method may be found instead. They
are collected by the kind of line they stand on: extended types first,
then implemented interfaces, then the items of other lists; each name is
kept at its first place.
-/
import CallTrace.Reply.Line

namespace CallTrace.Reply

open Text Text.Pattern

/-- The phrases that say so. -/
def absencePhrases : List Pattern :=
  [all [run1 (· == '#'), blanks, caseless "method", blanks1, caseless "not",
     blanks1, caseless "found"],
   all [boundary, caseless "not", blanks1, caseless "found", blanks1,
     caseless "in", blanks1, optional (seq (caseless "the") blanks1),
     caselessOneOf ["class", "type", "interface", "file"], boundary],
   all [boundary, caseless "does", blanks1, caseless "not", blanks1,
     caseless "exist", blanks1, caseless "in", boundary],
   all [boundary, caseless "no", blanks1,
     optional (seq (caseless "such") blanks1), caseless "method", blanks1,
     caselessOneOf ["named", "called"], boundary],
   all [caseless "method", blanks1, caseless "detection", blanks1,
     caseless "result", run (· == '*'), blanks, optional (one (· == ':')),
     run (· == '*'), blanks, run (· == '*'), blanks, caseless "not", blanks1,
     caseless "found"]]

/-- The text says that the method is not there. -/
def tellsAbsence (cs : List Char) : Bool :=
  absencePhrases.any (occursIn · cs)

-- ======================================================= suggestions

/-- A name that starts with an ASCII capital. -/
def isTypeName : List Char → Bool
  | [] => false
  | c :: rest => c.isUpper && rest.all isIdentRest

/-- Labels of the types that a type extends. -/
private def extendsLabels : List String :=
  ["extends", "parent", "parent class", "superclass", "base class"]

/-- Labels of the interfaces that a type implements. -/
private def implementsLabels : List String :=
  ["implements", "interface", "interfaces"]

/-- On what kind of line a type name stands. -/
inductive Mention where
  | extended
  | implemented
  | listed
deriving DecidableEq

/-- The kind of line, if names on it count. -/
def mention? (line : List Char) : Option Mention :=
  let labelled (names : List String) : Bool :=
    match label? line with
    | some (label, _) => names.contains label
    | none => false
  if labelled extendsLabels then some .extended
  else if labelled implementsLabels then some .implemented
  else if isListItem line then some .listed
  else none

/-- The type names between backticks on a line. -/
def typeNames (line : List Char) : List (List Char) :=
  ((inBackticks line).map fun cs => lastOf (segments (trim cs))).filter
    isTypeName

/-- The names of a list, each at its first place only. -/
def firstPlaces {α : Type} [BEq α] (xs : List α) : List α :=
  xs.foldl (fun kept x => if kept.contains x then kept else kept ++ [x]) []

/-- The types suggested by a reply. -/
def suggestions (cs : List Char) : List String :=
  let mentions := (lines cs).filterMap fun line =>
    (mention? line).map (·, typeNames line)
  let of (m : Mention) := (mentions.filter (·.1 = m)).flatMap (·.2)
  (firstPlaces (of .extended ++ of .implemented ++ of .listed)).map
    String.ofList

end CallTrace.Reply
