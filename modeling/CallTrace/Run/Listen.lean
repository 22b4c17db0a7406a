/-
Following an oracle's answer until it ends or time is up.

The pauses of an answer move the clock. A pause that would last beyond the
deadline is cut off there, and the answer is lost. Nothing but pauses
takes time, so an answer that comes without any is never late.
-/
import CallTrace.Run.Surroundings
import CallTrace.Source.Resolve

namespace CallTrace.Run

open Number (Double)

variable {σ : Type}

/-- What a tracer of methods works with. -/
structure Tracer (σ : Type) extends Surroundings σ where
  /-- There is a cache to be used. -/
  caching : Bool := true
  /-- How many suggested types are tried. -/
  maxSuggestions : Int := 5
  /-- How far up a method is searched. -/
  hierarchyDepth : Nat := Source.maxHierarchyDepth

namespace Tracer

/-- The result of an action, its failure included. -/
def attempt {ω α : Type} (a : Action ω α) : Action ω (Except Failure α) :=
  fun s =>
    match a s with
    | (r, s) => (.ok r, s)

/-- Tells the listener about an event. -/
def tell (t : Tracer σ) (e : Event) : StateM (State σ) Unit :=
  modify fun s => s.heard (t.inform e s.world.outside)

/-- Looks up the source of a type. -/
def lookup (t : Tracer σ) : Source.Lookup (State σ) := fun name s =>
  let a := t.sourceOf name s.world.store.files s.world.outside
  (a.value, s.heard a)

/-- Follows an answer about `key`. `said` holds the pieces of text so far,
reversed. -/
def follow (t : Tracer σ) (key : MethodKey) (limit deadline : Double)
    (said : List String) : List Beat → Action (State σ) String
  | [] => pure (String.join said.reverse)
  | .wait seconds :: rest => do
    let wake := (← get).now + seconds
    if deadline.lt wake then
      modify (·.setNow deadline)
      throw (.timedOut key.display limit)
    else
      modify (·.setNow wake)
      follow t key limit deadline said rest
  | .say text :: rest => do
    t.tell (.fragment key (← get).session.depth text)
    follow t key limit deadline (text :: said) rest
  | .fail (.gaveUp _) :: _ => throw (.timedOut key.display limit)
  | .fail f :: _ => throw f

/-- Asks the oracle of the session to describe a method. -/
def ask (t : Tracer σ) (prompt : Prompt) (key : MethodKey) :
    Action (State σ) String := do
  modify fun s =>
    { s with session.oracleCalls := s.session.oracleCalls + 1 }
  let s ← get
  let limit := s.session.limits.timeout
  let a := t.answerTo s.session.identity prompt s.world.outside
  modify (·.heard a)
  t.follow key limit (s.now + limit) [] a.value

end Tracer

end CallTrace.Run
