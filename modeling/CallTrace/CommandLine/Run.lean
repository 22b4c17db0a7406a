/-
One run of the command line.

A run reads its arguments, sets up an analyst of the workspace, and does
one thing: it clears the cache, shows what is told about it, or traces a
method. It leaves behind the clock, the files and the state outside, in
which the next run starts.
-/
import CallTrace.Analyst.Chat
import CallTrace.CommandLine.Options
import CallTrace.Json.Writer

namespace CallTrace.CommandLine

open Json (Reading)
open Run (Event Recorded Surroundings)

variable {σ : Type}

/-- What a run finds and leaves behind. -/
structure Host (σ : Type) where
  clock : Clock
  files : Files.Tree
  outside : σ

/-- What a run shows, and the code with which it ends. -/
structure Ended where
  code : Nat
  output : String := ""
  errors : String := ""
deriving DecidableEq

/-- The outcome of a run; one that is refused has shown nothing. -/
abbrev Outcome := Except Refusal Ended

/-- The line about an event in a verbose run. -/
def eventLine? : Event → Option String
  | .started key depth => some (indent depth ++ "… " ++ key.display ++ "\n")
  | .completed key depth status =>
    some (indent depth ++ "✓ " ++ key.display ++ " (" ++ status.name ++ ")\n")
  | .fragment .. => none
where
  indent (depth : Int) : String :=
    String.join (List.replicate depth.toNat "  ")

/-- The surroundings of a run: its sources lie in a folder, and its events
are kept. -/
abbrev Desk (σ : Type) := Run.Housed (Recorded σ)

/-- What is said when no method is named. -/
def usageHint : String := "Usage: python main.py <TypeName> <methodName>"

/-- The limits that the options ask for. -/
def limitsOf (o : Options) : Service (Desk σ) Limits := do
  let limits ← Analyst.limitsWith o.limits
  pure (if o.skipsCache then { limits with useCache := false } else limits)

/-- Does what a request on the command line asks for. `name` is the name of
the session. -/
def serve (around : Surroundings σ) (name : String) (o : Options) :
    Request → Service (Desk σ) Ended
  | .analyze typeName methodName => do
    let limits ← limitsOf o
    let report ← Analyst.trace around.recorded.housed name
      ⟨typeName, methodName⟩ limits
    let events := (← get).world.outside.below.events.reverse
    pure
      { code := if report.status = .failed then 1 else 0
        output := report.text ++ "\n"
        errors :=
          if o.verbose then String.join (events.filterMap eventLine?) else "" }
  | .invalid message => pure { code := 2, errors := message ++ "\n" }
  | _ => pure { code := 2, errors := usageHint ++ "\n" }

/-- Does what the options ask for. -/
def act (around : Surroundings σ) (name : String) (o : Options) :
    Service (Desk σ) Ended :=
  if o.clearsCache then do
    discard (Analyst.clearCache none none)
    pure { code := 0, output := "Flow analysis cache cleared.\n" }
  else if o.showsStats then do
    let stats ← Analyst.cacheStats
    pure { code := 0, output := String.ofList stats.indented ++ "\n" }
  else serve around name o (Request.parse (" ".intercalate o.target))

/-- One run. Relative paths start from the folder `here`. -/
def run (around : Surroundings σ) (environment : List (String × String))
    (here name : String) (arguments : List String) (host : Host σ) :
    Outcome × Host σ :=
  match Options.read arguments with
  | .error .help => (.ok { code := 0, output := helpPage }, host)
  | .error (.complaint c) =>
    let line := commandName ++ ": error: " ++ c.message ++ "\n"
    (.ok { code := 2, errors := usageText ++ line }, host)
  | .ok o =>
    match Settings.gather environment o.settings with
    | .bad faults => (.error (.invalid faults), host)
    | .good settings =>
      let analyst := Analyst.ofSettings settings here host.clock host.files
        ({ below := host.outside } : Recorded σ)
      let (outcome, after) := (act around name o).run.run analyst
      (outcome,
        { clock := after.world.clock
          files := after.world.store.files
          outside := after.world.outside.below.below })

end CallTrace.CommandLine
