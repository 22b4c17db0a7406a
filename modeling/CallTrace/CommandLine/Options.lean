/-
The options of the command line.
-/
import CallTrace.CommandLine.Switches

namespace CallTrace.CommandLine

/-- The name of the command in its own messages. -/
def commandName : String := "main.py"

/-- The switches of the command. -/
def switches : List Switch :=
  [{ names := ["-h", "--help"], helps := true },
   { names := ["--workspace"], operand := .text },
   { names := ["--model"], operand := .text },
   { names := ["--depth"], operand := .int },
   { names := ["--max-methods"], operand := .int },
   { names := ["--timeout"], operand := .number },
   { names := ["--no-cache"] },
   { names := ["--stats"] },
   { names := ["--clear-cache"] },
   { names := ["--verbose"] }]

/-- How the command is used, in short. -/
def usageText : String :=
  "usage: main.py [-h] [--workspace WORKSPACE] [--model MODEL] " ++
    "[--depth DEPTH]\n" ++
  "               [--max-methods MAX_METHODS] [--timeout TIMEOUT] " ++
    "[--no-cache]\n" ++
  "               [--stats] [--clear-cache] [--verbose]\n" ++
  "               [target ...]\n"

/-- The answer to a call for help. -/
def helpPage : String :=
  usageText ++ "\n" ++
  "Step-by-step execution flow of a method.\n\n" ++
  "positional arguments:\n" ++
  "  target                'Type method' or 'Type.method'\n\n" ++
  "options:\n" ++
  "  -h, --help            show this help message and exit\n" ++
  "  --workspace WORKSPACE\n" ++
  "                        Source tree to analyze (default: current " ++
    "directory)\n" ++
  "  --model MODEL         Model used for this run\n" ++
  "  --depth DEPTH         Maximum call depth below the root\n" ++
  "  --max-methods MAX_METHODS\n" ++
  "                        Maximum distinct methods analyzed\n" ++
  "  --timeout TIMEOUT     Seconds allowed per method analysis\n" ++
  "  --no-cache            Ignore cached analyses for this run\n" ++
  "  --stats               Print cache statistics and exit\n" ++
  "  --clear-cache         Drop all cached analyses and exit\n" ++
  "  --verbose             Print each method as it is analyzed\n"

/-- What the command is asked to do. Values are taken as they come and
read where they are used. -/
structure Options where
  target : List String
  /-- Settings that are given, by their names. -/
  settings : List (String × Json)
  /-- Limits that are given, by their names. -/
  limits : List (String × Json)
  skipsCache : Bool
  showsStats : Bool
  clearsCache : Bool
  verbose : Bool

namespace Options

/-- The options in the arguments of the command. -/
def read (arguments : List String) : Except Stop Options := do
  let (target, values) ← readArguments switches arguments
  let named (pairs : List (String × String)) : List (String × Json) :=
    pairs.filterMap fun (switch, name) =>
      (values.find? (·.1 == switch)).map fun v => (name, v.2)
  let given (switch : String) : Bool := values.any (·.1 == switch)
  pure
    { target := target
      settings := named
        [("--workspace", "workspace_root"), ("--model", "analysis_model")]
      limits := named
        [("--depth", "max_depth"), ("--max-methods", "max_total_methods"),
         ("--timeout", "per_call_timeout_s")]
      skipsCache := given "--no-cache"
      showsStats := given "--stats"
      clearsCache := given "--clear-cache"
      verbose := given "--verbose" }

end Options

end CallTrace.CommandLine
