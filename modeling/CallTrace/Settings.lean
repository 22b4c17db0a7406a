/-
The settings of the analyst.

Every setting has a usual value. It may be given in the environment, under
its name in any case of letters after a common stem; what the caller gives
counts more. Only the sizes of the two tiers of the cache are checked here:
a bad limit of a run is a fault of the run that uses it.
-/
import CallTrace.Json.Record
import CallTrace.Text.Case

namespace CallTrace

open Json
open Number (Double)

/-- The model that is asked where none is named. -/
def usualModel : String := "gpt-5.2-2025-12-11"

/-- What the analyst is set up with. -/
structure Settings where
  agentName : String := "flow_analyst"
  logLevel : String := "INFO"
  host : String := "0.0.0.0"
  port : Int := 8005
  workspaceRoot : String := "."
  model : String := usualModel
  maxDepth : Int := 5
  maxMethods : Int := 15
  timeout : Double := .ofInt 60
  maxSuggestions : Int := 5
  useCache : Bool := true
  sessionTtl : Double := .ofInt 300
  sessionEntries : Int := 100
  useDurable : Bool := true
  durablePath : String := ".flow-analysis/flow-analysis-cache.json"
  retentionDays : Int := 30
  durableEntries : Int := 1000
  sessionEntries_pos : 1 ≤ sessionEntries := by decide
  durableEntries_pos : 1 ≤ durableEntries := by decide
deriving DecidableEq

namespace Settings

def toJson (s : Settings) : Json :=
  .object
    [("agent_name", .text s.agentName),
     ("log_level", .text s.logLevel),
     ("host", .text s.host),
     ("port", .int s.port),
     ("workspace_root", .text s.workspaceRoot),
     ("analysis_model", .text s.model),
     ("max_depth", .int s.maxDepth),
     ("max_total_methods", .int s.maxMethods),
     ("per_call_timeout_s", .float s.timeout),
     ("max_suggestions", .int s.maxSuggestions),
     ("enable_cache", .bool s.useCache),
     ("cache_ttl_s", .float s.sessionTtl),
     ("cache_max_entries", .int s.sessionEntries),
     ("enable_persistent_cache", .bool s.useDurable),
     ("persistent_cache_path", .text s.durablePath),
     ("persistent_retention_days", .int s.retentionDays),
     ("persistent_max_entries", .int s.durableEntries)]

/-- The usual settings. -/
def usual : Settings := {}

def read : Reader Settings := readObject fun v =>
  let text (name absent : String) := withDefault name absent readText v
  let int (name : String) (absent : Int) := withDefault name absent readInt v
  let bool (name : String) := withDefault name true readBool v
  let number (name : String) (absent : Double) :=
    withDefault name absent readDouble v
  (fun agentName logLevel host port workspaceRoot model maxDepth maxMethods
      timeout maxSuggestions useCache sessionTtl sessionEntries useDurable
      durablePath retentionDays durableEntries =>
    { agentName, logLevel, host, port, workspaceRoot, model, maxDepth
      maxMethods, timeout, maxSuggestions, useCache, sessionTtl
      sessionEntries := sessionEntries.1, useDurable, durablePath
      retentionDays, durableEntries := durableEntries.1
      sessionEntries_pos := sessionEntries.2
      durableEntries_pos := durableEntries.2 : Settings })
    <$> text "agent_name" usual.agentName
    <*> text "log_level" usual.logLevel
    <*> text "host" usual.host
    <*> int "port" usual.port
    <*> text "workspace_root" usual.workspaceRoot
    <*> text "analysis_model" usual.model
    <*> int "max_depth" usual.maxDepth
    <*> int "max_total_methods" usual.maxMethods
    <*> number "per_call_timeout_s" usual.timeout
    <*> int "max_suggestions" usual.maxSuggestions
    <*> bool "enable_cache"
    <*> number "cache_ttl_s" usual.sessionTtl
    <*> withDefault "cache_max_entries" ⟨100, by decide⟩ (readIntAtLeast 1) v
    <*> bool "enable_persistent_cache"
    <*> text "persistent_cache_path" usual.durablePath
    <*> int "persistent_retention_days" usual.retentionDays
    <*> withDefault "persistent_max_entries" ⟨1000, by decide⟩
      (readIntAtLeast 1) v

-- ======================================================== environment

/-- The stem of the names of the settings in the environment. -/
def stem : String := "flow_analyst_"

/-- The value of a setting in the environment. Of several spellings of its
name the last one counts. -/
def inEnvironment? (environment : List (String × String)) (name : String) :
    Option String :=
  (environment.reverse.find? fun e =>
    Text.lower e.1.toList == (stem ++ name).toList).map (·.2)

/-- The names of the settings. -/
def names : List String :=
  match usual.toJson with
  | .object fields => fields.map (·.1)
  | _ => []

/-- The settings that the caller gives, and those of the environment in
place of what is not given. -/
def gather (environment : List (String × String))
    (given : List (String × Json)) : Reading Settings :=
  let found := names.filterMap fun name =>
    (inEnvironment? environment name).map fun value => (name, .text value)
  read (.object (given ++ found))

end Settings

end CallTrace
