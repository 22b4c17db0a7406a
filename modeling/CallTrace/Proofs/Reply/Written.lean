/-
What an oracle writes that keeps to the layout it is asked for.

The layout fixes the order of the lines and their labels. The texts are the
oracle's own, and so is the way in which it sets off each label; all that
is asked of a text is what keeps its line from being taken for another one.
The blocks that the oracle has in mind are there beside what it writes.
-/
import CallTrace.Reply.Parse

namespace CallTrace.Reply.Written

open Text

-- ============================================================== texts

/-- A text on one line, with no blanks around it. -/
structure Line where
  text : List Char
  oneLine : '\n' ∉ text
  trimmed : trim text = text

/-- A text that may stand after a label's colon. -/
structure Value extends Line where
  opening : text.head? ≠ some ':'

/-- A value that says something. -/
structure Remark extends Value where
  nonempty : text ≠ []

/-- The description in a heading, which neither the number signs after a
heading nor the stars around it can be part of. -/
structure Title extends Line where
  nonempty : text ≠ []
  opening : text.head? ≠ some '*'
  closing : text.getLast? ≠ some '*'
  closingSign : text.getLast? ≠ some '#'

/-- A line of a narrative. -/
structure Step extends Line where
  nonempty : text ≠ []
  noHeading : isHeading text = false
  noLabel : label? text = none

-- ========================================================== citations

structure Ident where
  text : List Char
  isIdent : isIdent text = true

/-- What joins two names. -/
inductive Joint where
  | dot
  | colons
  | arrow

def Joint.text : Joint → List Char
  | dot => ['.']
  | colons => [':', ':']
  | arrow => ['-', '>']

/-- The number of groups that are open after a text if `depth` are open
before it. There is none if the text closes more than that. -/
def depthAfter? : Nat → List Char → Option Nat
  | depth, [] => some depth
  | depth, '(' :: rest => depthAfter? (depth + 1) rest
  | 0, ')' :: _ => none
  | depth + 1, ')' :: rest => depthAfter? depth rest
  | depth, _ :: rest => depthAfter? depth rest

/-- The parameters of a call. -/
structure Params extends Line where
  balanced : depthAfter? 0 text = some 0
  unquoted : backtick ∉ text

/-- A call, with what is joined to its target's type in front of it. -/
structure Cited where
  outer : List (Ident × Joint) := []
  type : Ident
  joint : Joint := .dot
  method : Ident
  params : Params

namespace Cited

variable (c : Cited)

/-- What the method is called on. -/
def receiver : List Char :=
  c.outer.flatMap (fun (name, joint) => name.text ++ joint.text) ++
    c.type.text

def text : List Char :=
  c.receiver ++ (c.joint.text ++ (c.method.text ++
    '(' :: (c.params.text ++ [')'])))

/-- The type that the call goes to, in the code of the type `owner`. -/
def target (owner : String) : String :=
  let name := String.ofList c.type.text
  if selfReceivers.contains name then owner else name

/-- The call that is cited. -/
def citation (owner : String) : Citation where
  targetType := c.target owner
  targetMethod := String.ofList c.method.text
  parameters := String.ofList c.params.text

end Cited

-- ============================================================= labels

/-- Where the colon of a label stands: after the stars, between them, or
after a label that has none. -/
inductive Style where
  | outside
  | inside
  | plain

/-- The labels of the layout. -/
inductive Field where
  | kind
  | description
  | narrative
  | calls
  | call
  | decision
  | expected
  | condition
deriving DecidableEq

namespace Field

def title : Field → String
  | kind => "Type"
  | description => "Description"
  | narrative => "Execution Flow"
  | calls => "Method Calls"
  | call => "Call"
  | decision => "Classification"
  | expected => "Expected Behavior"
  | condition => "Condition"

/-- What stands before the label on its line. -/
def bullet : Field → String
  | call => "- "
  | decision | expected | condition => "  - "
  | _ => ""

/-- The label on a line of its own. -/
def bare (f : Field) : Style → List Char
  | .outside => f.bullet.toList ++ "**".toList ++ f.title.toList ++
      "**:".toList
  | .inside => f.bullet.toList ++ "**".toList ++ f.title.toList ++
      ":**".toList
  | .plain => f.bullet.toList ++ f.title.toList ++ ":".toList

/-- The label with a value after it. -/
def line (f : Field) (s : Style) (value : List Char) : List Char :=
  f.bare s ++ ' ' :: value

end Field

-- ============================================================== calls

/-- A call as it is described in the list of calls. -/
structure Call where
  cited : Cited
  decision : Decision
  reasoning : Line
  expected : Remark
  condition : Option Remark := none
  style : Field → Style := fun _ => .outside

namespace Call

/-- The decision with the reason for it. -/
def verdict (c : Call) : List Char :=
  c.decision.name.toList ++ (" (".toList ++ (c.reasoning.text ++ [')']))

def lines (c : Call) : List (List Char) :=
  [Field.call.line (c.style .call) (backtick :: (c.cited.text ++ [backtick])),
   Field.decision.line (c.style .decision) c.verdict,
   Field.expected.line (c.style .expected) c.expected.text] ++
  c.condition.toList.map fun r =>
    Field.condition.line (c.style .condition) r.text

/-- The call that is described, at its place in the whole reply. -/
def site (c : Call) (owner : String) (order : Nat) : CallSite where
  targetType := c.cited.target owner
  targetMethod := String.ofList c.cited.method.text
  parameters := String.ofList c.cited.params.text
  decision := c.decision
  reasoning := String.ofList c.reasoning.text
  expectedBehavior := String.ofList c.expected.text
  order := order
  condition := c.condition.map fun r => String.ofList r.text

end Call

-- ============================================================= blocks

/-- A block as it is described under its heading. -/
structure Section where
  title : Title
  kind : BlockKind
  description : Value
  steps : List Step
  nonempty : steps ≠ []
  calls : List Call := []
  /-- The list of calls is announced although it is empty. -/
  announced : Bool := true
  style : Field → Style := fun _ => .outside

namespace Section

/-- What the heading of the block at a place says; the first is block
1. -/
def wholeTitle (s : Section) (index : Nat) : List Char :=
  "Block ".toList ++ ((toString (index + 1)).toList ++
    (": ".toList ++ s.title.text))

def heading (s : Section) (index : Nat) : List Char :=
  "#### ".toList ++ s.wholeTitle index

/-- The lines about the block itself. -/
def opening (s : Section) : List (List Char) :=
  [Field.kind.line (s.style .kind) s.kind.name.toList,
   Field.description.line (s.style .description) s.description.text,
   [],
   Field.narrative.bare (s.style .narrative)] ++
  s.steps.map (·.text) ++ [[]]

/-- The lines about its calls. -/
def closing (s : Section) : List (List Char) :=
  if s.calls.isEmpty && !s.announced then []
  else
    Field.calls.bare (s.style .calls) :: s.calls.flatMap (·.lines) ++ [[]]

/-- The lines under the heading. -/
def body (s : Section) : List (List Char) := s.opening ++ s.closing

/-- The block that is described, its calls numbered from `order` on. -/
def block (s : Section) (owner : String) (index order : Nat) : Block where
  id := "block-" ++ toString index
  kind := s.kind
  description := String.ofList s.title.text
  narrative := String.ofList (joinWith ['\n'] (s.steps.map (·.text)))
  calls := s.calls.zipIdx.map fun (c, i) => c.site owner (order + i)

end Section

-- ============================================================ replies

/-- The first line of a reply, if the names are one line. -/
def caption (typeName method : String) : List Char :=
  "## Method Analysis: ".toList ++
    (typeName.toList ++ '.' :: (method.toList ++ "()".toList))

/-- The lines that say that the method is there. -/
def finding : List (List Char) :=
  [[], "### Method Detection Result:".toList, "Found".toList, []]

/-- The lines of a reply about a method, up to the first block. -/
def foreword (typeName method : String) : List (List Char) :=
  caption typeName method :: finding

/-- The lines of blocks, the first of them at a place. -/
def sectionLines : Nat → List Section → List (List Char)
  | _, [] => []
  | index, s :: rest =>
    s.heading index :: s.body ++ sectionLines (index + 1) rest

/-- The whole reply. -/
def reply (typeName method : String) (ss : List Section) : String :=
  String.ofList
    (joinWith ['\n'] (foreword typeName method ++ sectionLines 0 ss))

/-- The blocks that are described. Each flows into the one after it, and
the calls are numbered through. -/
def blocks (owner : String) (index order : Nat) : List Section → List Block
  | [] => []
  | s :: rest =>
    { s.block owner index order with
      next := if rest.isEmpty then [] else ["block-" ++ toString (index + 1)] }
      :: blocks owner (index + 1) (order + s.calls.length) rest

end CallTrace.Reply.Written
