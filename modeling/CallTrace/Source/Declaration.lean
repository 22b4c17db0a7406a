/-
Whether a source text declares a method, told from its wording.

No language is parsed. Three forms of declaration are looked for: after a
word that introduces a function, after a type at the start of a line, and
as a bare name with a parameter list and an opening brace. A name is found
only as a declaration, so a mere call of the method does not count.
-/
import CallTrace.Text.Pattern

namespace CallTrace.Source

open Text Text.Pattern

/-- Words that may stand before a declaration. -/
private def modifierWords : List String :=
  ["public", "private", "protected", "internal", "static", "final",
   "abstract", "synchronized", "native", "virtual", "override", "async",
   "default", "open", "suspend", "inline", "export", "readonly", "get",
   "set", "sealed", "partial", "extern", "unsafe", "const", "constexpr",
   "pub", "pub(crate)"]

/-- Words that start a statement, and so are no type. -/
private def statementWords : List String :=
  ["return", "new", "throw", "await", "else", "yield", "case", "in", "of",
   "typeof", "delete"]

/-- A space or a tab. -/
private def isIndent (c : Char) : Bool := c == ' ' || c == '\t'

/-- Any number of modifiers, with blanks after each. -/
private def modifiers (limit : Nat) : Pattern :=
  repeated limit (seq (oneOf modifierWords) blanks1)

/-- A group in parentheses without a closing one inside. -/
private def parens : Pattern :=
  all [one (· == '('), whole (· != ')'), one (· == ')')]

/-- The rest of a declaration up to its parameter list: blanks, type
parameters, blanks. -/
private def typeParameters : Pattern :=
  let isInside (c : Char) : Bool := !(c == '>' || c == '(' || c == ')')
  all [whole isBlank,
    optional (all [one (· == '<'), whole isInside, one (· == '>')]),
    whole isBlank]

/-- A function word, perhaps a receiver in parentheses, the name, and an
opening bracket. -/
private def afterFunctionWord (name : Pattern) : Pattern :=
  all [boundary, oneOf ["def", "function", "fun", "func", "fn", "sub"],
    blanks1, optional (seq parens blanks), name, whole isBlank,
    one fun c => c == '<' || c == '(' || c == '[']

/-- What the name of a type may be written with. -/
private def isTypeChar (c : Char) : Bool :=
  isWord c || "<>[],.?*&:".toList.contains c

/-- Annotations, modifiers, a type, the name, and its parameter list. -/
private def afterType (limit : Nat) (name : Pattern) : Pattern :=
  let annotation := all [one (· == '@'), whole1 fun c => isWord c || c == '.',
    optional parens, blanks1]
  all [lineStart, run isIndent, repeated limit annotation, modifiers limit,
    notAhead (seq (oneOf statementWords) boundary),
    whole1 isTypeChar, run1 isIndent, name, typeParameters, one (· == '(')]

/-- Modifiers, the name, a parameter list, perhaps a type after a colon,
and an opening brace. -/
private def withBody (limit : Nat) (name : Pattern) : Pattern :=
  let isInside (c : Char) : Bool := !(c == '\x7b' || c == ';' || c == '=')
  all [lineStart, run isIndent, modifiers limit, name, typeParameters, parens,
    whole isBlank, optional (seq (one (· == ':')) (whole1 isInside)),
    one (· == '\x7b')]

/-- The text visibly declares the method. -/
def declaresMethod (content method : String) : Bool :=
  let cs := content.toList
  let name := literal method.toList
  let limit := cs.length
  occursIn (afterFunctionWord name) cs || occursIn (afterType limit name) cs ||
    occursIn (withBody limit name) cs

end CallTrace.Source
