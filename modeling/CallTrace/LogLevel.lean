/-
How much is logged.

Levels are known by names in any case of letters; what is no name of a
level means the usual one. Libraries that log every request are kept down
to warnings.
-/
import CallTrace.Text.Case

namespace CallTrace

/-- A level of logging. -/
inductive LogLevel where
  | unset
  | debug
  | info
  | warning
  | error
  | critical
deriving DecidableEq

namespace LogLevel

/-- The number of a level; what has a smaller number is not logged. -/
def number : LogLevel → Nat
  | unset => 0
  | debug => 10
  | info => 20
  | warning => 30
  | error => 40
  | critical => 50

/-- The names of the levels. -/
def names : List (String × LogLevel) :=
  [("NOTSET", unset), ("DEBUG", debug), ("INFO", info),
   ("WARNING", warning), ("WARN", warning), ("ERROR", error),
   ("CRITICAL", critical), ("FATAL", critical)]

/-- The level of a name. -/
def ofName (name : String) : LogLevel :=
  let raised := String.ofList (Text.upper name.toList)
  ((names.find? (·.1 == raised)).map (·.2)).getD info

/-- The level that is asked for, or else the one of the environment. An
empty name asks for nothing. -/
def chosen (environment : List (String × String)) (asked : Option String) :
    LogLevel :=
  match asked.filter (· != "") with
  | some name => ofName name
  | none =>
    ofName (((environment.reverse.find? (·.1 == "LOG_LEVEL")).map
      (·.2)).getD "INFO")

/-- The level of libraries that log every request. -/
def ofLibraries : LogLevel := warning

end LogLevel

end CallTrace
