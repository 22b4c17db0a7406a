/-
The bookkeeping of one run.

A session belongs to one root method and one oracle. It knows the methods
that are under analysis, innermost first, the methods that were ever
entered, the analyses that came of them, and what has been spent. Once it
is cancelled it stays so.
-/
import CallTrace.Run.Limits
import CallTrace.Trace.Assembly

namespace CallTrace.Run

open Number (Double)

/-- A method under analysis. -/
structure Frame where
  key : MethodKey
  depth : Int
  /-- The call that led here runs under a condition. -/
  conditional : Bool := false
deriving DecidableEq

/-- The state of one run. -/
structure Session where
  root : MethodKey
  limits : Limits := {}
  /-- The oracle that is asked. -/
  identity : String
  startedAt : Double
  /-- The methods under analysis, innermost first. -/
  stack : List Frame := []
  /-- The methods entered, the last one first. -/
  visited : List MethodKey := []
  registry : Trace.Registry := []
  steps : List Trace.Step := []
  analyzed : Nat := 0
  oracleCalls : Nat := 0
  hits : Int := 0
  misses : Int := 0
  maxDepth : Int := 0
  finished : Bool := false
  cancelled : Bool := false
deriving DecidableEq

namespace Session

def cancel (s : Session) : Session := { s with cancelled := true }

/-- The session is cancelled now, or was before. -/
def cancelIf (s : Session) (now : Bool) : Session :=
  { s with cancelled := s.cancelled || now }

/-- The depth of the innermost method under analysis. -/
def depth (s : Session) : Int :=
  match s.stack with
  | f :: _ => f.depth
  | [] => 0

/-- Milliseconds since the session was started. -/
def elapsedMs (s : Session) (now : Double) : Int :=
  ((now - s.startedAt) * .ofInt 1000).truncate

/-- The part of the lookups in the cache that was served. -/
def hitRate (s : Session) : Double :=
  if s.hits + s.misses = 0 then .zero
  else .ofInt s.hits / .ofInt (s.hits + s.misses)

def onStack (s : Session) (key : MethodKey) : Bool :=
  s.stack.any (·.key = key)

/-- The session with one more method under analysis. -/
def push (s : Session) (f : Frame) : Session :=
  { s with stack := f :: s.stack, maxDepth := max s.maxDepth f.depth }

/-- The session without the innermost method under analysis. -/
def pop (s : Session) : Session := { s with stack := s.stack.tail }

/-- The session after a method was entered for the first time. -/
def enter (s : Session) (f : Frame) : Session :=
  ({ s with
      visited := f.key :: s.visited, analyzed := s.analyzed + 1 }).push f

/-- The session with an analysis registered. -/
def register (s : Session) (a : Analysis) : Session :=
  { s with registry := s.registry.register a }

end Session

end CallTrace.Run
