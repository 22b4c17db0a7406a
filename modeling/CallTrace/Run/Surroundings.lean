/-
What a run meets outside itself.

Sources, the oracle and the listener to a run's progress are functions on a
state of their own, about which nothing is assumed. Whatever is asked of
them, the run may be cancelled on the occasion.

An oracle answers with a script: pauses and pieces of text in order, and
perhaps a failure at the end. A run follows the script until its patience
is exhausted.
-/
import CallTrace.Cache.Store
import CallTrace.Source.File
import CallTrace.Run.Session

namespace CallTrace.Run

open Number (Double)
open Source (SourceFile)

/-- What an oracle is told about the method it is to describe. -/
structure Prompt where
  typeName : String
  methodName : String
  source : String
  language : String
deriving DecidableEq

/-- A part of what an oracle does in answer. -/
inductive Beat where
  | wait (seconds : Double)
  | say (text : String)
  | fail (f : Failure)

/-- What a listener is told about a run. -/
inductive Event where
  | started (key : MethodKey) (depth : Int)
  | fragment (key : MethodKey) (depth : Int) (text : String)
  | completed (key : MethodKey) (depth : Int) (status : Status)
deriving DecidableEq

namespace Event

/-- What kind of event it is. -/
def kind : Event → String
  | started .. => "method_start"
  | fragment .. => "fragment"
  | completed .. => "method_complete"

/-- The method that the event is about. -/
def key : Event → MethodKey
  | started k _ | fragment k _ _ | completed k _ _ => k

/-- The depth of the method. -/
def depth : Event → Int
  | started _ d | fragment _ d _ | completed _ d _ => d

/-- The piece of text that came in. -/
def text : Event → String
  | fragment _ _ t => t
  | _ => ""

/-- What has come of the method. -/
def status? : Event → Option Status
  | completed _ _ s => some s
  | _ => none

end Event

/-- An answer from outside, whether the run is cancelled on the occasion,
and the state outside afterwards. -/
structure Answer (σ α : Type) where
  value : α
  cancels : Bool := false
  outside : σ

/-- Everything outside that a run can ask or tell. -/
structure Surroundings (σ : Type) where
  /-- The source of a type; the files are there to be looked into. -/
  sourceOf : String → Files.Tree → σ →
    Answer σ (Except Failure (Option SourceFile))
  /-- What the oracle of an identity does with a prompt. -/
  answerTo : String → Prompt → σ → Answer σ (List Beat)
  /-- Tells the listener. A failure of the listener is of no consequence. -/
  inform : Event → σ → Answer σ (Except Failure Unit)

/-- What lasts from one run to the next. -/
structure World (σ : Type) where
  clock : Clock
  store : Cache.Store
  outside : σ

/-- A run under way. -/
structure State (σ : Type) where
  session : Session
  world : World σ

namespace State

variable {σ : Type}

/-- The state after an answer from outside. -/
def heard {α : Type} (s : State σ) (a : Answer σ α) : State σ :=
  { session := s.session.cancelIf a.cancels
    world := { s.world with outside := a.outside } }

def now (s : State σ) : Double := s.world.clock.elapsed

def timeOfDay (s : State σ) : Double := s.world.clock.timeOfDay

/-- The state at another moment. -/
def setNow (s : State σ) (elapsed : Double) : State σ :=
  { s with world.clock.elapsed := elapsed }

end State

end CallTrace.Run
