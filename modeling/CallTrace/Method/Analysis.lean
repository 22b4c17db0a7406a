/-
What is known about one method: its blocks, the calls in them, and how the
analysis ended.

An analysis is a value: what is learned about the methods it calls goes
into a new one. A method that was not expanded has a placeholder with one
block that gives the reason, so every reader of analyses finds the same
shape.
-/
import CallTrace.Method.Key
import CallTrace.Number.Double

namespace CallTrace

open Number (Double)

/-- How an analysis ended: with blocks, cut short by a limit, or with a
failure. -/
inductive Status where
  | complete
  | truncated
  | failed
deriving DecidableEq, Inhabited

namespace Status

def all : List Status := [.complete, .truncated, .failed]

def name : Status → String
  | complete => "complete"
  | truncated => "partial"
  | failed => "error"

def ofName? (s : String) : Option Status := all.find? (·.name == s)

end Status

/-- What a block of a method does. -/
inductive BlockKind where
  | assignment
  | methodCall
  | conditional
  | loop
  | shortCircuit
  | returning
  | exception
deriving DecidableEq, Inhabited

namespace BlockKind

def all : List BlockKind :=
  [.assignment, .methodCall, .conditional, .loop, .shortCircuit, .returning,
   .exception]

def name : BlockKind → String
  | assignment => "assignment"
  | methodCall => "methodCall"
  | conditional => "conditional"
  | loop => "loop"
  | shortCircuit => "shortCircuit"
  | returning => "return"
  | exception => "exception"

def ofName? (s : String) : Option BlockKind := all.find? (·.name == s)

end BlockKind

/-- What is to be done with a call: trace it further, take it for a simple
lookup, for code outside the workspace, or for a target nobody knows. -/
inductive Decision where
  | stepInto
  | objectLookup
  | external
  | notFound
deriving DecidableEq, Inhabited

namespace Decision

def all : List Decision := [.stepInto, .objectLookup, .external, .notFound]

def name : Decision → String
  | stepInto => "stepInto"
  | objectLookup => "objectLookup"
  | external => "external"
  | notFound => "notFound"

def ofName? (s : String) : Option Decision := all.find? (·.name == s)

end Decision

/-- What is expected of a call before anything is known about it. -/
def unanalyzedBehavior : String := "To be analyzed"

/-- One call in a block. The last two fields are filled in once the called
method has been expanded. -/
structure CallSite where
  targetType : String
  targetMethod : String
  parameters : String := ""
  decision : Decision := .external
  reasoning : String := ""
  expectedBehavior : String := unanalyzedBehavior
  order : Int := 0
  condition : Option String := none
  innerStatus : Option Status := none
  innerNote : Option String := none
deriving DecidableEq

namespace CallSite

def key (c : CallSite) : MethodKey := ⟨c.targetType, c.targetMethod⟩

def display (c : CallSite) : String := c.key.display

end CallSite

/-- A stretch of a method that belongs together. -/
structure Block where
  id : String
  kind : BlockKind := .methodCall
  description : String
  narrative : String := ""
  calls : List CallSite := []
  next : List String := []
deriving DecidableEq

/-- The calls of a method, each in the bucket of its decision. -/
structure CallSummary where
  stepInto : List CallSite := []
  objectLookup : List CallSite := []
  external : List CallSite := []
  notFound : List CallSite := []
deriving DecidableEq, Inhabited

namespace CallSummary

/-- The bucket of a decision. -/
def bucket (s : CallSummary) : Decision → List CallSite
  | .stepInto => s.stepInto
  | .objectLookup => s.objectLookup
  | .external => s.external
  | .notFound => s.notFound

/-- Every call in the bucket of its decision, in the order given. -/
def ofCalls (calls : List CallSite) : CallSummary :=
  let pick (d : Decision) := calls.filter (·.decision = d)
  ⟨pick .stepInto, pick .objectLookup, pick .external, pick .notFound⟩

def total (s : CallSummary) : Nat :=
  s.stepInto.length + s.objectLookup.length + s.external.length +
    s.notFound.length

theorem bucket_ofCalls (calls : List CallSite) (d : Decision) :
    (ofCalls calls).bucket d = calls.filter (·.decision = d) := by
  cases d <;> rfl

end CallSummary

/-- Everything known about one method, and what it was made from. -/
structure Analysis where
  typeName : String
  methodName : String
  language : String := "unknown"
  status : Status
  blocks : List Block := []
  summary : CallSummary := {}
  fingerprint : String := ""
  createdAt : Double
  inheritedFrom : Option String := none
  errorMessage : Option String := none
deriving DecidableEq

namespace Analysis

def key (a : Analysis) : MethodKey := ⟨a.typeName, a.methodName⟩

def display (a : Analysis) : String := a.key.display

/-- All calls, in the order of the blocks and within each block. -/
def calls (a : Analysis) : List CallSite := a.blocks.flatMap (·.calls)

/-- The leaf for a method that was not, or could not be, expanded. -/
def placeholder (key : MethodKey) (status : Status) (reason : String)
    (now : Double) : Analysis where
  typeName := key.typeName
  methodName := key.methodName
  status := status
  blocks := [{
    id := "placeholder-1"
    kind := .methodCall
    description := "Method analysis skipped: " ++ reason
    narrative := "This method was not analyzed due to: " ++ reason }]
  createdAt := now
  errorMessage := some reason

end Analysis

end CallTrace
