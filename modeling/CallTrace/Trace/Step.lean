/-
The steps of a walkthrough, and how one is written.
-/
import CallTrace.Method.Analysis

namespace CallTrace.Trace

/-- What happens in a step. -/
inductive StepKind where
  | methodStart
  | execution
  | methodCall
  | methodReturn
  | conditional
  | methodEnd
deriving DecidableEq, Inhabited

namespace StepKind

def all : List StepKind :=
  [.methodStart, .execution, .methodCall, .methodReturn, .conditional,
   .methodEnd]

def name : StepKind → String
  | methodStart => "methodStart"
  | execution => "execution"
  | methodCall => "methodCall"
  | methodReturn => "methodReturn"
  | conditional => "conditional"
  | methodEnd => "methodEnd"

def ofName? (s : String) : Option StepKind := all.find? (·.name == s)

/-- The mark before a step of this kind. -/
def icon : StepKind → String
  | methodStart => "▶"
  | execution => "•"
  | methodCall => "→"
  | methodReturn => "↩"
  | conditional => "?"
  | methodEnd => "■"

end StepKind

/-- One line of a walkthrough. -/
structure Step where
  number : Int
  depth : Int
  source : String
  description : String
  kind : StepKind
  blockId : Option String := none
  decision : Option Decision := none
  dependsOn : Option Int := none
deriving DecidableEq

/-- How the decision about a call is shown. -/
def decisionLabel : Decision → String
  | .stepInto => "step into"
  | .objectLookup => "object lookup"
  | .external => "external"
  | .notFound => "unknown"

/-- Two spaces for each level. -/
def indentOf (depth : Int) : String :=
  String.ofList (List.replicate (2 * depth.toNat) ' ')

/-- The step as a line. -/
def Step.line (s : Step) : String :=
  let decision :=
    match s.decision with
    | some d => " _[" ++ decisionLabel d ++ "]_"
    | none => ""
  let condition :=
    match s.dependsOn with
    | some n => " (if step " ++ toString n ++ ")"
    | none => ""
  indentOf s.depth ++ toString s.number ++ ". " ++ s.kind.icon ++ " " ++
    s.description ++ decision ++ condition

end CallTrace.Trace
