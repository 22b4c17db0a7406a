/-
The markdown of a walkthrough: a summary, the steps, and the methods that
were touched; or, when nothing could be traced, what was searched.
-/
import CallTrace.Trace.Assembly
import CallTrace.Trace.Stats

namespace CallTrace.Trace

open Number (Double)

/-- The numbers of a run. The time is given in seconds, the hit rate as a
percentage. -/
def summaryText (root : String) (s : Stats) : String :=
  let seconds := Double.ofQuotient s.timeMs 1000
  "\n".intercalate
    ["## Execution Flow: " ++ root,
     "",
     "- **Methods analyzed**: " ++ toString s.methodsAnalyzed,
     "- **Max depth reached**: " ++ toString s.maxDepthReached,
     "- **Analysis time**: " ++ String.ofList (seconds.fixed 1) ++ "s",
     "- **Cache hit rate**: " ++ String.ofList s.cacheHitRate.percent,
     "- **Oracle calls**: " ++ toString s.oracleCalls,
     "- **Model used**: " ++ s.model]

/-- A text that is there and not empty. -/
private def given? (s : Option String) : Option String := s.filter (· != "")

/-- The line that lists a method. -/
def methodLine (a : Analysis) : String :=
  let counts :=
    if a.status = .complete then
      ", " ++ toString a.blocks.length ++ " blocks, " ++
        toString a.summary.stepInto.length ++ " step-into calls"
    else ""
  let inherited :=
    match given? a.inheritedFrom with
    | some t => ", inherited from `" ++ t ++ "`"
    | none => ""
  let failure :=
    match given? a.errorMessage with
    | some m => ": " ++ m
    | none => ""
  "- `" ++ a.display ++ "` (" ++ a.status.name ++ counts ++ ")" ++ inherited ++
    failure

/-- The whole walkthrough. -/
def flowText (root : Analysis) (steps : List Step) (methods : List Analysis)
    (s : Stats) : String :=
  let inherited :=
    match given? root.inheritedFrom with
    | some t =>
      ["> `" ++ root.methodName ++ "` is not declared on `" ++
        root.typeName ++ "`; it is inherited from `" ++ t ++ "`."]
    | none => []
  let cut :=
    if s.truncatedLeaves = 0 ∧ s.failedLeaves = 0 then []
    else
      ["> Flow truncated: " ++ toString s.truncatedLeaves ++
        " partial and " ++ toString s.failedLeaves ++
        " failed method(s) were not expanded."]
  let listed :=
    if methods.isEmpty then []
    else
      ["### Methods analyzed\n\n" ++
        "\n".intercalate (methods.map methodLine)]
  let sections := [summaryText root.display s] ++ inherited ++ cut ++
    ["### Step-by-step\n\n" ++ "\n".intercalate (steps.map Step.line)] ++
    listed
  "\n\n".intercalate sections ++ "\n"

/-- What is shown when a method could not be found. -/
def failureText (typeName methodName message : String)
    (chain : List String) : String :=
  let searched :=
    if chain.isEmpty then []
    else ["", "Searched: " ++ " -> ".intercalate chain]
  "\n".intercalate
    (["## Execution Flow: " ++ typeName ++ "." ++ methodName ++ "()",
      "",
      "**Analysis failed**: " ++ message] ++ searched ++
     ["",
      "Check the type and method names, or that the source file is inside " ++
      "the workspace."]) ++ "\n"

end CallTrace.Trace
