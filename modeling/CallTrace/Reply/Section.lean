/-
One block's section of a reply, read line by line.

A section starts with the narrative. Labels switch between the narrative
and the list of calls, or fill in a field of the block or of the call that
was cited last. A citation that cannot be read leaves a dropped entry in
the list: the lines that describe it belong to it and go with it, so they
never reach a neighbouring call.
-/
import CallTrace.Reply.Citation
import CallTrace.Reply.Classification
import CallTrace.Reply.Line

namespace CallTrace.Reply

open Text

/-- What a label asks for. -/
inductive Label where
  | blockTag
  | description
  | narrative
  | calls
  | call
  | decision
  | reasoning
  | expected
  | condition
  | parameters
  | other
deriving DecidableEq

/-- The labels by name. -/
def labelNames : List (Label × List String) :=
  [(.blockTag, ["type"]), (.description, ["description"]),
   (.narrative, ["execution flow", "flow"]),
   (.calls, ["method calls", "calls"]),
   (.call, ["call", "method call", "method"]),
   (.decision,
    ["classification", "step into", "step-into", "decision", "step in"]),
   (.reasoning, ["reasoning", "reason"]),
   (.expected,
    ["expected behavior", "expected behaviour", "behavior", "returns"]),
   (.condition,
    ["condition", "conditional execution", "executes only if",
     "conditional"]),
   (.parameters, ["parameters"])]

def Label.ofName (name : String) : Label :=
  match labelNames.find? fun (_, names) => names.contains name with
  | some (l, _) => l
  | none => .other

/-- A call as far as it has been described. -/
structure CallDraft where
  citation : Citation
  phrase : List Char := []
  reasoning : List Char := []
  expected : List Char
  condition : Option (List Char) := none

/-- An entry in the list of calls. -/
inductive Entry where
  | kept (call : CallDraft)
  /-- The citation could not be read. -/
  | dropped

/-- Which part of the section the lines belong to. -/
inductive Part where
  | opening
  | narrative
  | calls
deriving DecidableEq

/-- A section as far as it has been read. The narrative's lines and the
entries are kept in reverse. -/
structure Draft where
  title : List Char
  tag : List Char := []
  description : List Char := []
  narrative : List (List Char) := []
  entries : List Entry := []
  part : Part := .opening

namespace Draft

/-- A new entry for a citation, with what is expected of the call. -/
def cite (d : Draft) (owner : String) (citation expected : List Char) :
    Draft :=
  let entry :=
    match Citation.read? owner citation with
    | some c => .kept { citation := c, expected := trim expected }
    | none => .dropped
  { d with entries := entry :: d.entries }

/-- A line of narrative; blank ones are left out. -/
def narrate (d : Draft) (line : List Char) : Draft :=
  if (trim line).isEmpty then d
  else { d with narrative := trimRight line :: d.narrative }

/-- A line that no label accounts for. -/
def readUnlabelled (d : Draft) (owner : String) (line : List Char) : Draft :=
  match d.part with
  | .calls =>
    match bulletCitation? line with
    | some (citation, rest) => d.cite owner citation rest
    | none => d
  | .opening | .narrative => d.narrate line

/-- A field of a call, or nothing if the label is none of a call's. -/
def describeCall? (label : Label) (value : List Char) (c : CallDraft) :
    Option CallDraft :=
  match label with
  | .decision =>
    let (phrase, reason) := splitReasoning value
    some { c with
      phrase := phrase
      reasoning := if reason.isEmpty then c.reasoning else reason }
  | .reasoning => some { c with reasoning := value }
  | .expected => some { c with expected := value }
  | .condition => some { c with condition := some value }
  | .parameters =>
    let params := String.ofList (trimOf (· == backtick) value)
    some { c with citation := { c.citation with parameters := params } }
  | _ => none

/-- A labelled line that is not about the block itself. -/
def readCallLine (d : Draft) (owner : String) (label : Label)
    (value line : List Char) : Draft :=
  match d.part, d.entries with
  | .calls, .dropped :: _ => d
  | .calls, .kept c :: rest =>
    match describeCall? label value c with
    | some c => { d with entries := .kept c :: rest }
    | none => d.readUnlabelled owner line
  | _, _ => d.readUnlabelled owner line

/-- One more line of the section. -/
def read (owner : String) (d : Draft) (line : List Char) : Draft :=
  match label? line with
  | none => d.readUnlabelled owner line
  | some (name, value) =>
    match Label.ofName name with
    | .blockTag => { d with tag := value }
    | .description => { d with description := value }
    | .narrative =>
      { d with
        part := .narrative
        narrative :=
          if value.isEmpty then d.narrative else value :: d.narrative }
    | .calls => { d with part := .calls }
    | .call =>
      let citation := (inBackticks value).head?.getD value
      { d with part := .calls }.cite owner citation []
    | label => d.readCallLine owner label value line

/-- A whole section. -/
def ofLines (owner : String) (title : List Char)
    (body : List (List Char)) : Draft :=
  body.foldl (read owner) { title := title }

/-- The entries that were kept, in order. -/
def keptCalls (d : Draft) : List CallDraft :=
  d.entries.reverse.filterMap fun
    | .kept c => some c
    | .dropped => none

end Draft

/-- The call that a draft describes, at its place in the whole reply. -/
def CallDraft.toCall (c : CallDraft) (order : Nat) : CallSite where
  targetType := c.citation.targetType
  targetMethod := c.citation.targetMethod
  parameters := c.citation.parameters
  decision := if c.phrase.isEmpty then .external else decisionOf c.phrase
  reasoning := String.ofList c.reasoning
  expectedBehavior :=
    if c.expected.isEmpty then unanalyzedBehavior
    else String.ofList c.expected
  order := order
  condition := (c.condition.filter (!·.isEmpty)).map String.ofList

/-- What a block without a narrative is said to do. -/
def noNarrative : String := "No execution flow documented"

/-- The first of some texts that is not empty. -/
def firstNonempty (choices : List (List Char)) (last : String) :
    String :=
  match choices.find? (!·.isEmpty) with
  | some cs => String.ofList cs
  | none => last

/-- The block at a place of the reply, its calls numbered from `order`
on. -/
def Draft.toBlock (d : Draft) (index order : Nat) : Block :=
  let calls := d.keptCalls.zipIdx.map fun (c, i) => c.toCall (order + i)
  let narrative := trim (joinWith ['\n'] d.narrative.reverse)
  { id := "block-" ++ toString index
    kind := blockKindOf d.tag !calls.isEmpty
    description :=
      firstNonempty [d.title, d.description]
        ("Block " ++ toString (index + 1))
    narrative := firstNonempty [narrative, d.description] noNarrative
    calls := calls }

end CallTrace.Reply
