/-
Steps, numbers and finished reports as documents, and back.
-/
import CallTrace.Method.Record
import CallTrace.Trace.Step
import CallTrace.Trace.Stats

namespace CallTrace.Trace

open Json
open Number (Double)

namespace Step

def toJson (s : Step) : Json :=
  .object
    [("step_number", .int s.number),
     ("depth", .int s.depth),
     ("source_method", .text s.source),
     ("description", .text s.description),
     ("step_type", .text s.kind.name),
     ("block_id", .ofText? s.blockId),
     ("classification", .ofText? (s.decision.map Decision.name)),
     ("depends_on_step",
       match s.dependsOn with
       | some n => .int n
       | none => .null)]

def read : Reader Step := readObject fun v =>
  Step.mk
    <$> required "step_number" readInt v
    <*> required "depth" readInt v
    <*> required "source_method" readText v
    <*> required "description" readText v
    <*> required "step_type" (readName StepKind.ofName?) v
    <*> withDefault "block_id" none (readNullable readText) v
    <*> withDefault "classification" none
      (readNullable (readName Decision.ofName?)) v
    <*> withDefault "depends_on_step" none (readNullable readInt) v

end Step

namespace Stats

def toJson (s : Stats) : Json :=
  .object
    [("total_methods_analyzed", .int s.methodsAnalyzed),
     ("max_depth_reached", .int s.maxDepthReached),
     ("analysis_time_ms", .int s.timeMs),
     ("cache_hit_rate", .float s.cacheHitRate),
     ("oracle_calls", .int s.oracleCalls),
     ("partial_leaves", .int s.truncatedLeaves),
     ("error_leaves", .int s.failedLeaves),
     ("total_steps", .int s.totalSteps),
     ("model", .text s.model)]

def read : Reader Stats := readObject fun v =>
  let count (name : String) : Reading Int := withDefault name 0 readInt v
  Stats.mk
    <$> count "total_methods_analyzed"
    <*> count "max_depth_reached"
    <*> count "analysis_time_ms"
    <*> withDefault "cache_hit_rate" .zero readDouble v
    <*> count "oracle_calls"
    <*> count "partial_leaves"
    <*> count "error_leaves"
    <*> count "total_steps"
    <*> withDefault "model" "" readText v

end Stats

/-- What a front end gets back from a run. -/
structure Report where
  session : String
  root : String
  status : Status
  text : String
  stats : Stats
  steps : List Step := []
  methods : List Analysis := []
  errorMessage : Option String := none
deriving DecidableEq

namespace Report

def toJson (r : Report) : Json :=
  .object
    [("session_id", .text r.session),
     ("root_method", .text r.root),
     ("status", .text r.status.name),
     ("formatted_steps", .text r.text),
     ("stats", r.stats.toJson),
     ("steps", .list (r.steps.map Step.toJson)),
     ("method_analyses", .list (r.methods.map Analysis.toJson)),
     ("error_message", .ofText? r.errorMessage)]

/-- Reads a report at the time `now`. -/
def read (now : Double) : Reader Report := readObject fun v =>
  Report.mk
    <$> required "session_id" readText v
    <*> required "root_method" readText v
    <*> required "status" readStatus v
    <*> required "formatted_steps" readText v
    <*> required "stats" Stats.read v
    <*> withDefault "steps" [] (readSequence .listType Step.read) v
    <*> withDefault "method_analyses" []
      (readSequence .listType (Analysis.read now)) v
    <*> withDefault "error_message" none (readNullable readText) v

end Report

end CallTrace.Trace
