/-
Answers to chat messages.

Every message gets a text in markdown. A message that is not understood is
answered with what was expected, and one that says nothing with the list
of commands.
-/
import CallTrace.Analyst
import CallTrace.Request

namespace CallTrace.Analyst

open Cache (Shelf Store)
open Run (Surroundings)

variable {σ : Type}

/-- What is told about the cache in a chat. -/
def cacheText (s : Store) : String :=
  let t := s.session
  let share := String.ofList ((t.hitRate.roundTo 4).percent)
  let average := String.ofList ((t.averageMs.roundTo 1).fixed 0)
  let durable :=
    match s.shelf? with
    | some shelf =>
      ["- Durable: " ++ toString shelf.tier.entries.size ++ " entries in `" ++
        shelf.tier.path ++ "` (" ++ String.ofList shelf.sizeKb.text ++
        " KB)"]
    | none => []
  "\n".intercalate
    (["**Flow analysis cache**",
      "",
      "- Entries: " ++ toString t.entries.size ++ " / " ++
        toString t.maxEntries,
      "- Hits: " ++ toString t.hits ++ ", misses: " ++ toString t.misses ++
        " (hit rate " ++ share ++ ")",
      "- Evictions: " ++ toString t.evictions,
      "- Average analysis time: " ++ average ++ "ms"] ++
     durable ++
     (t.mostUsed Store.listedMethods).map fun e =>
       "  - `" ++ e.1.text ++ "` used " ++ toString e.2.uses ++ "x")

/-- Answers a request. `name` is the name of the session, should there be
one. -/
def answer (around : Surroundings σ) (name : String) :
    Request → Service σ String
  | .analyze typeName methodName => do
    let limits ← accept (← get).usualLimits
    pure (← trace around name ⟨typeName, methodName⟩ limits).text
  | .clearCache => do
    discard (clearCache none none)
    pure "Flow analysis cache cleared."
  | .cacheStats => do pure (cacheText (← get).world.store)
  | .changeModel model => do
    let previous ← (selectModel model : StateM (Analyst σ) String)
    pure ("Analysis model changed from `" ++ previous ++ "` to `" ++ model ++
      "`.")
  | .modelInfo => do
    pure ("Current analysis model: `" ++ (← get).model ++ "`")
  | .help => pure helpText
  | .invalid message => pure message

/-- Answers a chat message. -/
def respond (around : Surroundings σ) (name message : String) :
    Service σ String :=
  answer around name (Request.parse message)

end CallTrace.Analyst
