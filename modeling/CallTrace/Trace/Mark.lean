/-
What the steps of a walkthrough stand for, and how they are written.

A mark says what happens at one place of a walkthrough: a method is
entered, one of its blocks is executed, a call is made. A line is a mark
with its depth. The text of a step, the block it belongs to and the step it
depends on follow from the line and its number, so the order of a
walkthrough can be settled before anything is written.
-/
import CallTrace.Text.Lines
import CallTrace.Trace.Registry
import CallTrace.Trace.Step

namespace CallTrace.Trace

open Text

-- ====================================================== short texts

/-- The greatest length of the statement of a return. -/
def maxSummary : Nat := 100

/-- The text on one line, cut to the greatest length. -/
def shorten (s : String) : String :=
  let cs := squeeze s.toList
  if cs.length ≤ maxSummary then String.ofList cs
  else String.ofList (trimRight (cs.take (maxSummary - 3)) ++ "...".toList)

/-- What a method hands back to its caller: the description of its last
return, or else those of its first three blocks. -/
def returnSummary (a : Analysis) : String :=
  let described (b : Block) : Bool := b.description != ""
  match a.blocks.reverse.find? fun b =>
    b.kind = .returning && described b with
  | some b => shorten b.description
  | none =>
    match ((a.blocks.take 3).filter described).map (·.description) with
    | [] => "Completes without a documented return value"
    | ds => shorten ("; ".intercalate ds)

-- ============================================================ marks

/-- What happens at one place of a walkthrough. The method that is traced
there comes first. -/
inductive Mark where
  | enter (a : Analysis)
  | block (a : Analysis) (b : Block)
  | condition (a : Analysis) (b : Block) (text : String)
  | call (a : Analysis) (b : Block) (c : CallSite)
  /-- The return from a method that was traced just now. -/
  | back (a inner : Analysis)
  /-- The return from a method that was started at an earlier step. -/
  | again (a inner : Analysis) (start : Nat)
  | exit (a : Analysis)
  /-- A call that was stepped into and not expanded: its start, why, its
  end, and the return from it. -/
  | skipEnter (c : CallSite)
  | skip (c : CallSite) (status : Status)
  | skipExit (c : CallSite)
  | skipBack (a : Analysis) (c : CallSite)
deriving DecidableEq

/-- The condition of a call, when it has one that says something. -/
def conditionOf? (c : CallSite) : Option String := c.condition.filter (· != "")

/-- How the start of a method is described. -/
def enterText (a : Analysis) : String :=
  let inherited :=
    match a.inheritedFrom with
    | some t => if t = "" then "" else " (inherited from " ++ t ++ ")"
    | none => ""
  let failure :=
    match a.errorMessage with
    | some m =>
      if a.status = .complete ∨ m = "" then ""
      else " [" ++ a.status.name ++ ": " ++ m ++ "]"
    | none => ""
  "Enter " ++ a.display ++ inherited ++ failure

/-- How a block is described. -/
def blockText (b : Block) : String :=
  if b.narrative = "" then b.description
  else if b.description = "" then b.narrative
  else b.description ++ ": " ++ b.narrative

/-- How a call is described. -/
def callText (c : CallSite) : String :=
  let call := "Call " ++ c.targetType ++ "." ++ c.targetMethod ++ "(" ++
    c.parameters ++ ")"
  if c.expectedBehavior = "" ∨ c.expectedBehavior = unanalyzedBehavior then
    call
  else call ++ ": " ++ c.expectedBehavior

/-- How the return from a method is described. -/
def backText (inner : Analysis) : String :=
  "Return from " ++ inner.display ++ ": " ++ returnSummary inner

/-- Why a call was not expanded. -/
def skipText (c : CallSite) (status : Status) : String :=
  let note :=
    match c.innerNote with
    | some n => if n = "" then "not analyzed" else n
    | none => "not analyzed"
  "Not expanded (" ++ status.name ++ "): " ++ note

namespace Mark

def kind : Mark → StepKind
  | enter _ | skipEnter _ => .methodStart
  | block .. | skip .. => .execution
  | condition .. => .conditional
  | call .. => .methodCall
  | back .. | again .. | skipBack .. => .methodReturn
  | exit _ | skipExit _ => .methodEnd

/-- The method in which it happens, as it is shown. -/
def source : Mark → String
  | enter a | exit a => a.display
  | block a _ | condition a _ _ | call a _ _ => a.display
  | back a _ | again a _ _ | skipBack a _ => a.display
  | skipEnter c | skip c _ | skipExit c => c.display

def text : Mark → String
  | enter a => enterText a
  | block _ b => blockText b
  | condition _ _ t => "Condition: " ++ t
  | call _ _ c => callText c
  | back _ inner => backText inner
  | again _ inner n =>
    backText inner ++ " (already traced at step " ++ toString n ++ ")"
  | exit a => "Exit " ++ a.display
  | skipEnter c => "Enter " ++ c.display
  | skip c status => skipText c status
  | skipExit c => "Exit " ++ c.display
  | skipBack _ c => "Return from " ++ c.display

/-- The block to which it belongs. -/
def block? : Mark → Option Block
  | block _ b | condition _ b _ | call _ b _ => some b
  | _ => none

/-- The call that is made. -/
def call? : Mark → Option CallSite
  | call _ _ c => some c
  | _ => none

/-- The step with this mark. A call under a condition depends on the step
before it, which states the condition. -/
def toStep (m : Mark) (depth number : Nat) : Step where
  number := number
  depth := depth
  source := m.source
  description := m.text
  kind := m.kind
  blockId := m.block?.map (·.id)
  decision := m.call?.map (·.decision)
  dependsOn := ((m.call?.bind conditionOf?).map fun _ => (number : Int) - 1)

end Mark

/-- A place of a walkthrough: how deep it is and what happens there. -/
structure Line where
  depth : Nat
  mark : Mark
deriving DecidableEq

/-- The steps of lines, numbered from one. -/
def writeLines (lines : List Line) : List Step :=
  (lines.zipIdx 1).map fun (l, n) => l.mark.toStep l.depth n

end CallTrace.Trace
