/-
Reporting runs to a collector of traces.

Nothing is reported until a client was made, for which the environment has
to hold both keys. A collector that fails is of no consequence, except
that without a client nothing is reported. What is sent to the collector
is written down as notices, in the order in which they are sent.
-/
import CallTrace.Json.Value

namespace CallTrace

/-- What a client is made with. -/
structure Credentials where
  publicKey : String
  secretKey : String
  host : String
deriving DecidableEq

/-- How a function is traced. -/
structure Span where
  name : String
  capturesInput : Bool := true
  capturesOutput : Bool := false
  kind : String := "span"
deriving DecidableEq

/-- The name of a span: the one that was given, or else the name of the
function. -/
def Span.nameFor (given : Option String) (function : String) : String :=
  (given.filter (· != "")).getD function

/-- What is sent to the collector. -/
inductive Notice where
  | connect (c : Credentials)
  | span (s : Span)
  | score (name : String) (value comment : Json)
  | flush

/-- Whether there is a client. -/
structure Telemetry where
  enabled : Bool := false
deriving DecidableEq

namespace Telemetry

/-- Where reports go unless the environment says otherwise. -/
def usualHost : String := "https://cloud.langfuse.com"

/-- The credentials in the environment; empty keys count as missing. -/
def credentials? (environment : List (String × String)) :
    Option Credentials :=
  let value? (name : String) : Option String :=
    (environment.reverse.find? (·.1 == name)).map (·.2)
  match (value? "LANGFUSE_PUBLIC_KEY").filter (· != ""),
    (value? "LANGFUSE_SECRET_KEY").filter (· != "") with
  | some publicKey, some secretKey =>
    some ⟨publicKey, secretKey, (value? "LANGFUSE_HOST").getD usualHost⟩
  | _, _ => none

/-- Makes a client, unless there is one. `succeeds` tells whether the
collector accepts it. -/
def start (environment : List (String × String)) (succeeds : Bool)
    (t : Telemetry) : List Notice × Telemetry :=
  if t.enabled then ([], t)
  else
    match credentials? environment with
    | some c => ([.connect c], ⟨succeeds⟩)
    | none => ([], t)

/-- Sends what is left and gives up the client. -/
def stop (t : Telemetry) : List Notice × Telemetry :=
  (if t.enabled then [.flush] else [], {})

/-- What a call of a traced function sends. -/
def spanned (s : Span) (t : Telemetry) : List Notice :=
  if t.enabled then [.span s] else []

/-- What a score of the open span sends. -/
def scored (name : String) (value comment : Json) (t : Telemetry) :
    List Notice :=
  if t.enabled then [.score name value comment] else []

end Telemetry

end CallTrace
