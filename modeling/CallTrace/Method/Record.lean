/-
Analyses as documents, and back.

The fields of each record are written and read in the order in which the
record declares them. An absent field takes the default of the record; the
time of creation defaults to the time of reading.
-/
import CallTrace.Json.Record
import CallTrace.Method.Analysis

namespace CallTrace

open Json
open Number (Double)

/-- A text that may be absent. -/
def Json.ofText? : Option String → Json
  | some s => .text s
  | none => .null

-- ============================================================= writing

namespace CallSite

def toJson (c : CallSite) : Json :=
  .object
    [("target_type", .text c.targetType),
     ("target_method", .text c.targetMethod),
     ("parameters", .text c.parameters),
     ("classification", .text c.decision.name),
     ("reasoning", .text c.reasoning),
     ("expected_behavior", .text c.expectedBehavior),
     ("execution_order", .int c.order),
     ("conditional_execution", .ofText? c.condition),
     ("inner_status", .ofText? (c.innerStatus.map Status.name)),
     ("inner_note", .ofText? c.innerNote)]

end CallSite

namespace Block

def toJson (b : Block) : Json :=
  .object
    [("block_id", .text b.id),
     ("block_type", .text b.kind.name),
     ("description", .text b.description),
     ("execution_flow", .text b.narrative),
     ("method_calls", .list (b.calls.map CallSite.toJson)),
     ("next_blocks", .list (b.next.map .text))]

end Block

namespace CallSummary

def toJson (s : CallSummary) : Json :=
  let calls (cs : List CallSite) : Json := .list (cs.map CallSite.toJson)
  .object
    [("step_into", calls s.stepInto),
     ("object_lookup", calls s.objectLookup),
     ("external", calls s.external),
     ("not_found", calls s.notFound)]

end CallSummary

namespace Analysis

def toJson (a : Analysis) : Json :=
  .object
    [("type_name", .text a.typeName),
     ("method_name", .text a.methodName),
     ("language", .text a.language),
     ("status", .text a.status.name),
     ("blocks", .list (a.blocks.map Block.toJson)),
     ("call_summary", a.summary.toJson),
     ("fingerprint", .text a.fingerprint),
     ("created_at", .float a.createdAt),
     ("inherited_from", .ofText? a.inheritedFrom),
     ("error_message", .ofText? a.errorMessage)]

end Analysis

-- ============================================================= reading

def readStatus : Reader Status := readName Status.ofName?

namespace CallSite

def read : Reader CallSite := readObject fun v =>
  CallSite.mk
    <$> required "target_type" readText v
    <*> required "target_method" readText v
    <*> withDefault "parameters" "" readText v
    <*> withDefault "classification" .external (readName Decision.ofName?) v
    <*> withDefault "reasoning" "" readText v
    <*> withDefault "expected_behavior" unanalyzedBehavior readText v
    <*> withDefault "execution_order" 0 readInt v
    <*> withDefault "conditional_execution" none (readNullable readText) v
    <*> withDefault "inner_status" none (readNullable readStatus) v
    <*> withDefault "inner_note" none (readNullable readText) v

end CallSite

/-- A sequence of fixed order. -/
def readTuple {α : Type} (r : Reader α) : Reader (List α) :=
  readSequence .tupleType r

namespace Block

def read : Reader Block := readObject fun v =>
  Block.mk
    <$> required "block_id" readText v
    <*> withDefault "block_type" .methodCall (readName BlockKind.ofName?) v
    <*> required "description" readText v
    <*> withDefault "execution_flow" "" readText v
    <*> withDefault "method_calls" [] (readTuple CallSite.read) v
    <*> withDefault "next_blocks" [] (readTuple readText) v

end Block

namespace CallSummary

def read : Reader CallSummary := readObject fun v =>
  let calls (name : String) : Reading (List CallSite) :=
    withDefault name [] (readTuple CallSite.read) v
  CallSummary.mk
    <$> calls "step_into"
    <*> calls "object_lookup"
    <*> calls "external"
    <*> calls "not_found"

end CallSummary

namespace Analysis

/-- Reads an analysis at the time `now`. -/
def read (now : Double) : Reader Analysis := readObject fun v =>
  Analysis.mk
    <$> required "type_name" readText v
    <*> required "method_name" readText v
    <*> withDefault "language" "unknown" readText v
    <*> required "status" readStatus v
    <*> withDefault "blocks" [] (readTuple Block.read) v
    <*> withDefault "call_summary" {} CallSummary.read v
    <*> withDefault "fingerprint" "" readText v
    <*> withDefault "created_at" now readDouble v
    <*> withDefault "inherited_from" none (readNullable readText) v
    <*> withDefault "error_message" none (readNullable readText) v

end Analysis

end CallTrace
