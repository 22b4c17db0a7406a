/-
Why something could not be done.

Failures are causes; what is said about one is derived from it. A method
that is found nowhere is told apart from all other failures, since it is
the only one that ends a run.
-/
import CallTrace.Json.Value
import CallTrace.Number.Decimal
import CallTrace.Text.Utf8

namespace CallTrace

open Number (Double)

/-- The name under which the analysis reports its failures. -/
def agentName : String := "flow_analyst"

/-- A message with the name of the agent that reports it. -/
def framed (agent message : String) : String := "[" ++ agent ++ "] " ++ message

/-- What was missing: a declaration of the method, any source of the type,
or what the text says. -/
inductive Lack where
  | method
  | type
  | told (reason : String)
deriving DecidableEq

/-- A method that was found nowhere. -/
structure Unresolved where
  typeName : String
  methodName : String
  /-- The types that were searched, in order. -/
  searched : List String := []
  lack : Lack := .method
deriving DecidableEq

namespace Unresolved

def message (u : Unresolved) : String :=
  let said :=
    match u.lack with
    | .method =>
      "Method " ++ u.methodName ++ " not found in " ++ u.typeName ++
        " or its super types"
    | .type => "Type " ++ u.typeName ++ " not found in workspace"
    | .told reason => reason
  if u.searched.isEmpty then said
  else said ++ " (searched: " ++ " -> ".intercalate u.searched ++ ")"

end Unresolved

/-- The part of the work that reports a failure of its own. -/
inductive Concern where
  | flow
  | oracle
  | reply
  | cache
deriving DecidableEq

/-- Why something could not be done. -/
inductive Failure where
  | unresolved (u : Unresolved)
  /-- The oracle did not finish its reply within the limit. -/
  | timedOut (method : String) (limit : Double)
  | reported (concern : Concern) (message : String)
      (details : List (String × Json))
  /-- A part outside gave up waiting. -/
  | gaveUp (text : String)
  /-- A part outside failed in a way of its own. -/
  | foreign (kind text : String)
  /-- A file that should be text is none. -/
  | undecodable (junk : Text.Utf8.Junk)
  | nameTooLong (path : String)
  /-- A document holds an integer of too many digits. -/
  | oversized (digits : Nat)
  /-- An entry is to be dropped where there is none. -/
  | nothingToDrop
  /-- A share is to be taken of no capacity at all. -/
  | noCapacity

namespace Failure

/-- What is said about a failure, or its kind where nothing is said. -/
def message : Failure → String
  | unresolved u => u.message
  | timedOut method limit =>
    "Analysis of " ++ method ++ " timed out after " ++
      String.ofList limit.general ++ "s"
  | reported _ m _ => m
  | gaveUp t => if t = "" then "TimeoutError" else t
  | foreign kind t => if t = "" then kind else t
  | undecodable j => j.message
  | nameTooLong path =>
    "[Errno 36] File name too long: " ++
      String.ofList (Text.quoted path.toList)
  | oversized n =>
    "Exceeds the limit (4300 digits) for integer string conversion: " ++
      "value has " ++ toString n ++ " digits; " ++
      "use sys.set_int_max_str_digits() to increase the limit"
  | nothingToDrop => "min() arg is an empty sequence"
  | noCapacity => "division by zero"

/-- The code under which a failure of the analysis is reported. -/
def code? : Failure → Option String
  | unresolved _ => some "METHOD_NOT_FOUND"
  | timedOut .. => some "ANALYSIS_TIMEOUT"
  | reported .flow .. => some "FLOW_ERROR"
  | reported .oracle .. => some "LLM_ERROR"
  | reported .reply .. => some "PARSE_ERROR"
  | reported .cache .. => some "CACHE_ERROR"
  | _ => none

/-- What was known when the failure was reported. -/
def details : Failure → List (String × Json)
  | unresolved u =>
    [("type_name", .text u.typeName), ("method_name", .text u.methodName),
     ("chain", .list (u.searched.map .text))]
  | timedOut method limit =>
    [("method", .text method), ("timeout_s", .float limit)]
  | reported _ _ details => details
  | _ => []

/-- The failure is one of the analysis itself, and not of a part outside. -/
def isOwn (f : Failure) : Bool := f.code?.isSome

/-- What a failure says of itself where another one quotes it: a failure of
the analysis names the agent, and one from outside may say nothing. -/
def quotation (f : Failure) : String :=
  match f with
  | gaveUp t | foreign _ t => t
  | _ => if f.isOwn then framed agentName f.message else f.message

end Failure

/-- A computation over a state that may fail; the state is kept when it
does. -/
abbrev Action (ω α : Type) := ExceptT Failure (StateM ω) α

/-- A computation over a part of a state. -/
def Action.on {ω τ α : Type} (part : ω → τ) (put : ω → τ → ω)
    (a : Action τ α) : Action ω α := fun s =>
  let (r, t) := a (part s)
  (r, put s t)

end CallTrace
