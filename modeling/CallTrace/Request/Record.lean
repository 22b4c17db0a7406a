/-
Requests as documents.

Every command has the same fields; those that a command does not use are
absent. A document may name a command and leave out what it needs, so the
record is a type of its own.
-/
import CallTrace.Method.Record
import CallTrace.Request

namespace CallTrace

open Json

/-- A command by its name, with whatever was given for it. -/
structure RequestRecord where
  command : String
  typeName : Option String := none
  methodName : Option String := none
  model : Option String := none
  error : Option String := none
deriving DecidableEq

/-- The request with its fields by name. -/
def Request.record (r : Request) : RequestRecord :=
  let plain : RequestRecord := { command := r.commandName }
  match r with
  | .analyze t m => { plain with typeName := some t, methodName := some m }
  | .changeModel m => { plain with model := some m }
  | .invalid e => { plain with error := some e }
  | _ => plain

namespace RequestRecord

/-- The names of the commands. -/
def commandNames : List String :=
  ["analyze", "clear_cache", "cache_stats", "change_model", "model_info",
   "help", "invalid"]

def toJson (r : RequestRecord) : Json :=
  .object
    [("command", .text r.command),
     ("type_name", .ofText? r.typeName),
     ("method_name", .ofText? r.methodName),
     ("model", .ofText? r.model),
     ("error", .ofText? r.error)]

def read : Reader RequestRecord := readObject fun v =>
  let name? (s : String) : Option String :=
    commandNames.find? (· == s)
  let given (field : String) : Reading (Option String) :=
    withDefault field none (readNullable readText) v
  RequestRecord.mk
    <$> required "command" (readName name?) v
    <*> given "type_name"
    <*> given "method_name"
    <*> given "model"
    <*> given "error"

end RequestRecord

end CallTrace
