/-
The names under which a type is looked for, and which names may be looked
for at all.

A qualified name is looked for by its last segment. A name that starts
with a small letter is taken for a variable that may be named after its
type, so it is tried as it stands and then with a capital.
-/
import CallTrace.Text.Case
import CallTrace.Text.Pattern
import CallTrace.Text.Qualified

namespace CallTrace.Source

open Text Text.Pattern

/-- The names to look for, in order. -/
def candidateNames (typeName : String) : List String :=
  let simple := lastOf (segments typeName.toList)
  match simple with
  | c :: rest =>
    if isSmall c then
      [String.ofList simple, String.ofList (upperChar c ++ rest)]
    else [String.ofList simple]
  | [] => [""]

/-- The text declares a type of this name. -/
def declaresType (content name : String) : Bool :=
  occursIn
    (all [boundary,
      oneOf ["class", "interface", "struct", "trait", "enum", "record",
        "object", "type", "impl"],
      blanks1, literal name.toList, boundary])
    content.toList

/-- The greatest length of a name. -/
def maxNameLength : Nat := 200

private def lengthOk (cs : List Char) : Bool :=
  0 < cs.length && cs.length ≤ maxNameLength

/-- A type and a method that are worth a request: a qualified name and an
identifier of bounded length. A line feed at the end of either is let
through. -/
def isPlausible (typeName methodName : String) : Bool :=
  let t := typeName.toList
  let m := methodName.toList
  lengthOk t && lengthOk m &&
    upToFinalBreak (fun cs => allIdents (segments cs)) t &&
    upToFinalBreak isIdent m

/-- Names are judged by their lengths and by their forms. -/
theorem isPlausible_iff {typeName methodName : String} :
    isPlausible typeName methodName = true ↔
      (0 < typeName.length ∧ typeName.length ≤ maxNameLength) ∧
      (0 < methodName.length ∧ methodName.length ≤ maxNameLength) ∧
      upToFinalBreak (fun cs => allIdents (segments cs)) typeName.toList =
        true ∧
      upToFinalBreak isIdent methodName.toList = true := by
  simp only [isPlausible, lengthOk, Bool.and_eq_true, decide_eq_true_eq,
    String.length_toList, and_assoc]

end CallTrace.Source
