/-
How a reply's free words are mapped onto the closed sets of decisions and
block kinds.

The words of a classification are tried against rules in a fixed order, and
the first rule with a phrase in them decides; words that no rule knows mean
code outside the workspace. A block's tag is compared letter by letter with
the known names, and then searched for one of the longer names.
-/
import CallTrace.Method.Analysis
import CallTrace.Text.Pattern
import CallTrace.Text.Lines
import CallTrace.Text.Qualified

namespace CallTrace.Reply

open Text Text.Pattern

-- ========================================================== decisions

/-- Two words that may be joined by blanks, a hyphen or an underscore. -/
private def joined (a b : String) : Pattern :=
  all [caseless a, blanks, optional (one fun c => c == '-' || c == '_'),
    blanks, caseless b]

/-- Two words with blanks between them. -/
private def spaced (a b : String) : Pattern :=
  all [caseless a, blanks1, caseless b]

/-- The target is unknown. -/
private def meansUnknown : Pattern :=
  any [joined "not" "found",
    caselessOneOf ["unknown", "unresolved", "undetermined", "unclear"],
    spaced "cannot" "determine"]

/-- The text starts by refusing. -/
private def startsWithRefusal : Pattern :=
  all [textStart, blanks,
    any [all [caseless "no", boundary],
      all [caseless "don", optional (one (· == '\'')), caseless "t"],
      spaced "do" "not", caselessOneOf ["never", "skip"]]]

/-- The call only looks something up. -/
private def meansLookup : Pattern :=
  any [joined "object" "lookup",
    all [boundary, caseless "lookup", boundary],
    caselessOneOf ["getter", "accessor"],
    spaced "data" "access", spaced "field" "access",
    spaced "property" "access"]

/-- The call goes into the workspace's own code. -/
private def meansStepInto : Pattern :=
  any [joined "step" "into", all [textStart, blanks, caseless "yes", boundary],
    spaced "own" "code", spaced "application" "code"]

/-- The call leaves the workspace. -/
private def meansExternal : Pattern :=
  any [caselessOneOf ["external", "framework", "library"],
    all [caseless "third", optional (one fun c => c == '-' || isBlank c),
      caseless "party"],
    caselessOneOf ["standard", "builtin", "built-in", "sdk"]]

/-- The rules in their order. -/
private def rules : List (Pattern × Decision) :=
  [(meansUnknown, .notFound), (startsWithRefusal, .external),
   (meansLookup, .objectLookup), (meansStepInto, .stepInto),
   (meansExternal, .external)]

/-- Markup around a tag. -/
private def isMarkup (c : Char) : Bool :=
  c == '*' || c == '[' || c == ']' || c == backtick

/-- The decision that a phrase stands for. -/
def decisionOf (phrase : List Char) : Decision :=
  let cs := trim (trimOf isMarkup (trim phrase))
  match rules.find? fun (p, _) => occursIn p cs with
  | some (_, d) => d
  | none => .external

/-- The tag of the unknown is taken for it, whatever follows. -/
private theorem meansUnknown_tag (rest : List Char) :
    occursIn meansUnknown ("notFound".toList ++ rest) = true := by
  have hnot : caseless "not" ⟨none, "notFound".toList ++ rest⟩ =
      [⟨some 't', "Found".toList ++ rest⟩] := rfl
  have hblanks : blanks ⟨some 't', "Found".toList ++ rest⟩ =
      [⟨some 't', "Found".toList ++ rest⟩] := rfl
  have hmark : optional (one fun c => c == '-' || c == '_')
      ⟨some 't', "Found".toList ++ rest⟩ =
        [⟨some 't', "Found".toList ++ rest⟩] := rfl
  have hfound : caseless "found" ⟨some 't', "Found".toList ++ rest⟩ =
      [⟨some 'd', rest⟩] := rfl
  have hjoined : joined "not" "found" ⟨none, "notFound".toList ++ rest⟩ =
      [⟨some 'd', rest⟩] := by
    simp only [joined, Pattern.all, seq, Pattern.empty, hnot, hblanks, hmark,
      hfound, List.flatMap_cons, List.flatMap_nil, List.append_nil]
  apply occursIn_of_match
  rw [meansUnknown, Pattern.any, List.flatMap_cons, hjoined]
  rfl

/-- A phrase that begins with the tag of the unknown stands for it: that rule
comes first. -/
theorem decisionOf_eq_notFound {phrase rest : List Char}
    (h : trim (trimOf isMarkup (trim phrase)) = "notFound".toList ++ rest) :
    decisionOf phrase = .notFound := by
  have hrules : rules.find? (fun (p, _) => occursIn p
      (trim (trimOf isMarkup (trim phrase)))) =
        some (meansUnknown, .notFound) := by
    rw [h, rules]
    exact List.find?_cons_of_pos (meansUnknown_tag rest)
  simp only [decisionOf, hrules]

/-- A dash that separates a phrase from its reason, or the hyphen. -/
def isDash (c : Char) : Bool := c == '–' || c == '—' || c == '-'

/-- A phrase with its reason in parentheses at the end of the text. -/
def reasonInParens? (cs : List Char) :
    Option (List Char × List Char) :=
  match cs.span fun c => !(c == '(' || isDash c) with
  | (phrase, '(' :: rest) =>
    match rest.reverse with
    | ')' :: reason => some (trim phrase, trim reason.reverse)
    | _ => none
  | _ => none

/-- The marks between a phrase and its reason, in the order tried. -/
def reasonMarks : List String := [" - ", " – ", " — ", ": "]

/-- A classification as the phrase that decides and the reason given. -/
def splitReasoning (value : List Char) : List Char × List Char :=
  let cs := trim value
  match reasonInParens? cs with
  | some found => found
  | none =>
    match reasonMarks.findSome? fun m => cutAtText? m.toList cs with
    | some (phrase, reason) => (trim phrase, trim reason)
    | none => (cs, [])

-- ======================================================== block kinds

/-- The names of the block kinds, with their usual synonyms. -/
def kindNames : List (String × BlockKind) :=
  [("assignment", .assignment), ("assign", .assignment),
   ("declaration", .assignment), ("variable", .assignment),
   ("methodcall", .methodCall), ("call", .methodCall),
   ("invocation", .methodCall), ("conditional", .conditional),
   ("condition", .conditional), ("if", .conditional),
   ("branch", .conditional), ("switch", .conditional), ("loop", .loop),
   ("for", .loop), ("while", .loop), ("iteration", .loop),
   ("shortcircuit", .shortCircuit), ("return", .returning),
   ("exception", .exception), ("throw", .exception),
   ("trycatch", .exception), ("errorhandling", .exception)]

/-- The kind that a block's tag stands for. Only the letters before the
first bar count. A tag that names no kind is a call if the block has calls,
and an assignment otherwise. -/
def blockKindOf (tag : List Char) (hasCalls : Bool) : BlockKind :=
  let letters := (lower (cutAt '|' tag).1).filter fun c => 'a' ≤ c && c ≤ 'z'
  match kindNames.find? fun (n, _) => n.toList == letters with
  | some (_, kind) => kind
  | none =>
    match kindNames.find? fun (n, _) =>
      3 < n.length && holdsText n.toList letters with
    | some (_, kind) => kind
    | none => if hasCalls then .methodCall else .assignment

end CallTrace.Reply
