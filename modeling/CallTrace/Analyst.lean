/-
The analyst, who traces methods on request.

Between requests the analyst keeps its settings, the model in use and the
world with the cache. Every request to trace is a run of its own: it fixes
its limits and its model when it starts, so a later change of the model
does not touch it. A request that cannot be met is refused, with the faults
of its limits or the failure of the cache; that a method is found nowhere
is no refusal but a report.
-/
import CallTrace.Run.Expand
import CallTrace.Run.Layers
import CallTrace.Settings
import CallTrace.Trace.Markdown
import CallTrace.Trace.Record

namespace CallTrace

open Json
open Number (Double)
open Run (Session Surroundings Tracer World)
open Trace (Report Stats)

/-- Why a request is refused. -/
inductive Refusal where
  | invalid (faults : List Fault)
  | failed (f : Failure)

/-- The analyst between two requests. -/
structure Analyst (σ : Type) where
  settings : Settings
  /-- The model that is asked where a request names none. -/
  model : String
  world : World σ

/-- What a request does; what it has done before it is refused stays
done. -/
abbrev Service (σ α : Type) := ExceptT Refusal (StateM (Analyst σ)) α

-- ============================================================ settings

namespace Settings

/-- The folder that is analyzed, seen from the folder `here`. -/
def workspacePath (s : Settings) (files : Files.Tree) (here : String) :
    String :=
  files.canonicalText (Files.join here s.workspaceRoot)

/-- The durable tier, below the folder that is analyzed unless its path is
absolute. -/
def durableTier? (s : Settings) (workspace : String) :
    Option Cache.DurableTier :=
  if s.useDurable then
    some
      { path := Files.join workspace s.durablePath
        retentionDays := s.retentionDays
        maxEntries := s.durableEntries }
  else none

/-- The session tier. -/
def sessionTier (s : Settings) : Cache.SessionTier :=
  { maxEntries := s.sessionEntries, ttl := s.sessionTtl }

end Settings

namespace Analyst

variable {σ : Type}

/-- An analyst of the sources in a folder. -/
def create (s : Settings) (workspace : String) (clock : Clock)
    (files : Files.Tree) (outside : σ) : Analyst σ where
  settings := s
  model := s.model
  world :=
    { clock := clock
      store := Cache.Store.over s.sessionTier (s.durableTier? workspace) files
      outside := outside }

/-- An analyst of the folder that the settings name, with the sources that
lie in it. `here` is the folder from which relative paths start. -/
def ofSettings (s : Settings) (here : String) (clock : Clock)
    (files : Files.Tree) (below : σ) : Analyst (Run.Housed σ) :=
  let workspace := s.workspacePath files here
  create s workspace clock files ⟨⟨workspace, none⟩, below⟩

-- ============================================================= limits

/-- The limits of a request that sets none, as a document. -/
def limitFields (a : Analyst σ) : List (String × Json) :=
  [("max_depth", .int a.settings.maxDepth),
   ("max_total_methods", .int a.settings.maxMethods),
   ("per_call_timeout_s", .float a.settings.timeout),
   ("enable_cache", .bool a.settings.useCache),
   ("model", .text a.model)]

/-- The limits of a request that sets none. The settings may hold bad
ones. -/
def usualLimits (a : Analyst σ) : Reading Limits :=
  Limits.read (.object a.limitFields)

/-- Goes on with what was read, or refuses. -/
def accept {α : Type} : Reading α → Service σ α
  | .good a => pure a
  | .bad faults => throw (.invalid faults)

/-- The usual limits with some of them replaced. -/
def limitsWith (replaced : List (String × Json)) : Service σ Limits := do
  let limits ← accept (← get).usualLimits
  match limits.toJson with
  | .object fields =>
    accept (Limits.read (.object
      (replaced.foldl (fun fs f => setField fs f.1 f.2) fields)))
  | _ => pure limits

-- ============================================================== runs

/-- The session of a request, not yet started. -/
def sessionFor (a : Analyst σ) (key : MethodKey) (limits : Limits) :
    Session :=
  let model := limits.model.getD a.model
  { root := key
    limits := { limits with model := some model }
    identity := model
    startedAt := a.world.clock.elapsed }

/-- What the analyst traces methods with. -/
def tracer (s : Settings) (around : Surroundings σ) : Tracer σ :=
  { around with maxSuggestions := s.maxSuggestions }

/-- How many calls were answered by a method of some status, the root
counted as one more. -/
def leaves (status : Status) (methods : List Analysis) (root : Analysis) :
    Nat :=
  (methods.flatMap Analysis.calls).countP (·.innerStatus = some status) +
    if root.status = status then 1 else 0

/-- The report of a finished session. `name` is the name of the session. -/
def report (name : String) (s : Session) (now : Double) :
    Run.Outcome → Report
  | .ok root =>
    let methods := s.registry
    let stats : Stats :=
      { methodsAnalyzed := s.analyzed
        maxDepthReached := s.maxDepth
        timeMs := s.elapsedMs now
        cacheHitRate := s.hitRate
        oracleCalls := s.oracleCalls
        truncatedLeaves := leaves .truncated methods root
        failedLeaves := leaves .failed methods root
        totalSteps := s.steps.length
        model := s.identity }
    let whole := !s.cancelled && root.status = .complete
    { session := name
      root := s.root.display
      status := if whole then .complete else .truncated
      text := Trace.flowText root s.steps methods stats
      stats := stats
      steps := s.steps
      methods := methods
      errorMessage := if whole then none else root.errorMessage }
  | .error u =>
    { session := name
      root := s.root.display
      status := .failed
      text := Trace.failureText s.root.typeName s.root.methodName u.message
        u.searched
      stats :=
        { methodsAnalyzed := s.analyzed
          timeMs := s.elapsedMs now
          oracleCalls := s.oracleCalls
          model := s.identity }
      errorMessage := some u.message }

/-- Runs a session to its end. -/
def runSession (around : Surroundings σ) (name : String) (s : Session) :
    StateM (Analyst σ) Report := fun a =>
  let (outcome, state) := (tracer a.settings around).run.run ⟨s, a.world⟩
  (report name state.session state.now outcome,
    { a with world := state.world })

/-- Traces a method within limits. -/
def trace (around : Surroundings σ) (name : String) (key : MethodKey)
    (limits : Limits) : StateM (Analyst σ) Report := do
  runSession around name ((← get).sessionFor key limits)

-- ============================================================== cache

/-- Does something with the cache. -/
def onStore {α : Type} (act : Clock → Action Cache.Store α) : Service σ α :=
  fun a =>
    match act a.world.clock a.world.store with
    | (r, store) =>
      (r.mapError .failed, { a with world := { a.world with store } })

/-- Drops everything from the cache, or one type, or one method of it;
gives the number of entries dropped, of which none are counted when
everything is dropped. -/
def clearCache (typeName methodName : Option String) : Service σ Nat :=
  match typeName with
  | none => do
    onStore Cache.Store.clear
    pure 0
  | some t => onStore fun clock => Cache.Store.invalidate clock t methodName

/-- What is told about the cache. -/
def cacheStats : Service σ Json := do
  match (← get).world.store.stats with
  | .ok stats => pure stats
  | .error f => throw (.failed f)

-- ============================================================== model

/-- Changes the model; gives the one before. -/
def selectModel (model : String) : StateM (Analyst σ) String := fun a =>
  (a.model, { a with model })

end Analyst

end CallTrace
