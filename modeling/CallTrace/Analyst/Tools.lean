/-
The tools that the analyst offers to other programs.

A tool is called by its name with arguments in a document, and answers
with a text; most answers are documents themselves. Arguments that are
absent or null leave the usual limits as they are.
-/
import CallTrace.Analyst.Chat
import CallTrace.Json.Writer

namespace CallTrace.Analyst

open Run (Surroundings)

variable {σ : Type}

/-- The call of a tool. Limits are taken as they come and read when the
tool is used. -/
inductive ToolCall where
  | analyze (typeName methodName : String)
      (limits : List (String × Json)) (useCache : Json)
  | request (message : String)
  | cacheStats
  | clearCache (typeName methodName : Option String)

/-- The limits that a call of the analyzing tool may set. -/
def toolLimits : List String :=
  ["max_depth", "max_total_methods", "per_call_timeout_s", "model"]

namespace ToolCall

/-- A call of a tool by its name; nothing if there is no such tool. -/
def of? (tool : String) (arguments : Json) : Option ToolCall :=
  let text? (name : String) : Option String :=
    match arguments.field? name with
    | some (.text s) => some s
    | _ => none
  let text (name : String) : String := (text? name).getD ""
  match tool with
  | "analyze_flow" =>
    let limits := toolLimits.filterMap fun name =>
      match arguments.field? name with
      | none | some .null => none
      | some v => some (name, v)
    some (analyze (text "type_name") (text "method_name") limits
      ((arguments.field? "use_cache").getD (.bool true)))
  | "flow_request" => some (request (text "message"))
  | "get_cache_stats" => some cacheStats
  | "clear_cache" =>
    some (clearCache (text? "type_name") (text? "method_name"))
  | _ => none

end ToolCall

/-- What the analyzing tool answers. -/
def toolReport (r : Trace.Report) : Json :=
  .object
    [("status", .text r.status.name),
     ("root_method", .text r.root),
     ("formatted_steps", .text r.text),
     ("stats", r.stats.toJson),
     ("error_message", .ofText? r.errorMessage)]

/-- The text of a document that a tool answers with. -/
def toolText (v : Json) : String := String.ofList v.compact

/-- Answers the call of a tool. -/
def call (around : Surroundings σ) (name : String) :
    ToolCall → Service σ String
  | .analyze typeName methodName limits useCache => do
    let limits ← limitsWith (limits ++ [("enable_cache", useCache)])
    pure (toolText (toolReport
      (← trace around name ⟨typeName, methodName⟩ limits)))
  | .request message => respond around name message
  | .cacheStats => do pure (toolText (← cacheStats))
  | .clearCache typeName methodName => do
    let removed ← clearCache typeName methodName
    let cleared := (typeName.filter (· != "")).getD "all"
    pure (toolText (.object
      [("cleared", .text cleared), ("removed", .int removed)]))

end CallTrace.Analyst
