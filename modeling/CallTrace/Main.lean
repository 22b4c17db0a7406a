/-
The command line as a program.

The paths of the source files come in on standard input, one to a line.
They and the file of the durable tier are read before the run, and that
file is written after it if the run has changed it. There is no model to be
asked: what the cache does not hold fails.
-/
import CallTrace.CommandLine.Run

namespace CallTrace.CommandLine

/-- Surroundings in which no oracle answers and nobody listens. -/
def unanswered : Run.Surroundings Unit where
  sourceOf _ _ o := { value := .ok none, outside := o }
  answerTo identity _ o :=
    { value := [.fail (.reported .oracle ("No connection to " ++ identity) [])]
      outside := o }
  inform _ o := { value := .ok (), outside := o }

/-- The settings in the environment of the program, and the moment that
stands for now. -/
def readEnvironment : IO (List (String × String) × Number.Double) := do
  let names := Settings.names.map fun n => (Settings.stem ++ n).toUpper
  let found ← names.filterMapM fun n => do
    pure ((← IO.getEnv n).map (n, ·))
  let seconds := ((← IO.getEnv "SOURCE_DATE_EPOCH").bind String.toNat?).getD 0
  pure (found, .ofInt seconds)

/-- The tree with a file as it is on the disk, if it can be read. -/
def plantFile (tree : Files.Tree) (path : String) : IO Files.Tree := do
  match ← (IO.FS.readBinFile path).toBaseIO with
  | .ok bytes => pure (tree.plant path (.file bytes.toList))
  | .error _ => pure tree

/-- The path of the durable tier that the arguments lead to. -/
def durablePath? (environment : List (String × String)) (here : String)
    (arguments : List String) : Option String :=
  match Options.read arguments with
  | .ok o =>
    match Settings.gather environment o.settings with
    | .good s => (s.durableTier? (s.workspacePath {} here)).map (·.path)
    | .bad _ => none
  | .error _ => none

/-- Writes the file of the durable tier, if it was changed. -/
def writeBack (before after : Files.Tree) (path : String) : IO Unit := do
  if let .ok bytes := after.read path then
    unless (before.read path).toOption = some bytes do
      IO.FS.createDirAll (Files.Tree.splitLast path).1
      IO.FS.writeBinFile path ⟨bytes.toArray⟩

/-- One run with the arguments of the program. -/
def program (arguments : List String) : IO UInt32 := do
  let (environment, start) ← readEnvironment
  let here := (← IO.currentDir).toString
  let listing ← (← IO.getStdin).readToEnd
  let sources := (Text.lines listing.toList).map fun l =>
    Files.join here (String.ofList l)
  let durable := durablePath? environment here arguments
  let files ← (sources ++ durable.toList).foldlM plantFile {}
  let host : Host Unit := ⟨{ start := start }, files, ()⟩
  let (outcome, after) := run unanswered environment here "" arguments host
  durable.forM (writeBack files after.files)
  match outcome with
  | .ok ended =>
    (← IO.getStderr).putStr ended.errors
    (← IO.getStdout).putStr ended.output
    pure ended.code.toUInt32
  | .error _ =>
    (← IO.getStderr).putStr "The settings or the limits are not valid.\n"
    pure 1

end CallTrace.CommandLine

/-- Runs the command line. -/
def main (arguments : List String) : IO UInt32 :=
  CallTrace.CommandLine.program arguments
