/-
Tracing a method and, in depth, the methods it calls.

A method is entered at most once in a run. Entering it makes it known as
visited and puts it on the stack; before it leaves the stack it is
registered, whatever has come of it. A call that is to be stepped into is
answered by the analysis of the called method, or by a leaf that says why
it was not expanded: too deep, already on the stack, no methods left to
spend, or no name that can be looked for. Calls are never dropped and never
reordered; what is learned about a called method goes into a new copy of
the analysis of its caller.

A run ends because the depth that is left shrinks with every step into a
call. Only a root that is found nowhere ends it with a failure.
-/
import CallTrace.Run.Describe
import CallTrace.Source.TypeName

namespace CallTrace.Run

variable {σ : Type}

/-- Why a method was left unanalyzed. -/
def depthReason : String := "maximum recursion depth reached"

def cycleReason : String := "circular dependency detected"

def budgetReason : String := "maximum method count reached"

def invalidReason (key : MethodKey) : String :=
  "invalid method reference " ++ key.typeName ++ "." ++ key.methodName

/-- What tracing a method gives. The only failure is that of a method that
is found nowhere. -/
abbrev Outcome := Except Unresolved Analysis

-- ========================================================= enrichment

/-- What is said in a caller about a method that was expanded. -/
def innerSummary (inner : Analysis) : String :=
  "\n".intercalate
    (("Inner Execution for " ++ inner.display ++ ":") ::
      (inner.blocks.zipIdx 1).map fun (b, n) =>
        "  " ++ toString n ++ ". " ++ b.description)

/-- The call with what is known about the called method. -/
def enrichCall (c : CallSite) (inner : Analysis) : CallSite :=
  let c := { c with innerStatus := some inner.status }
  if inner.status = .complete then
    let c := { c with expectedBehavior := Trace.returnSummary inner }
    match inner.inheritedFrom.filter (· != "") with
    | some t => { c with innerNote := some ("defined in " ++ t) }
    | none => c
  else { c with innerNote := inner.errorMessage }

/-- The block with its calls replaced and notes added to its narrative. -/
def enrichBlock (b : Block) (calls : List CallSite) (notes : List String) :
    Block :=
  if notes.isEmpty then { b with calls := calls }
  else
    let text := "\n\n".intercalate (b.narrative :: notes)
    { b with
      calls := calls
      narrative := String.ofList (Text.trim text.toList) }

/-- The analysis with its blocks replaced. -/
def enrich (a : Analysis) (blocks : List Block) : Analysis :=
  { a with
    blocks := blocks
    summary := .ofCalls (blocks.flatMap (·.calls)) }

/-- The calls of a block, those that are to be stepped into answered by
`trace`, and notes about the expanded ones. -/
def traceCalls (trace : CallSite → StateM (State σ) Analysis) :
    List CallSite → StateM (State σ) (List CallSite × List String)
  | [] => pure ([], [])
  | c :: rest => do
    if c.decision ≠ .stepInto ∨ (← get).session.cancelled then
      let (calls, notes) ← traceCalls trace rest
      pure (c :: calls, notes)
    else
      let inner ← trace c
      let (calls, notes) ← traceCalls trace rest
      let notes :=
        if inner.status = .complete then innerSummary inner :: notes
        else notes
      pure (enrichCall c inner :: calls, notes)

/-- The blocks with their calls traced, in order. -/
def traceBlocks (trace : CallSite → StateM (State σ) Analysis) :
    List Block → StateM (State σ) (List Block)
  | [] => pure []
  | b :: rest => do
    let (calls, notes) ← traceCalls trace b.calls
    let blocks ← traceBlocks trace rest
    pure (enrichBlock b calls notes :: blocks)

namespace Tracer

-- ============================================================ entering

/-- Changes the session. -/
def onSession (f : Session → Session) : StateM (State σ) Unit :=
  modify fun s => { s with session := f s.session }

/-- Registers what has come of a method, and tells the listener. -/
def complete (t : Tracer σ) (f : Frame) (a : Analysis) :
    StateM (State σ) Unit := do
  onSession (·.register a)
  t.tell (.completed f.key f.depth a.status)

/-- What has come of a method, from the outcome of describing it. `expand`
traces the calls of a description. -/
def settle (t : Tracer σ) (f : Frame)
    (expand : Analysis → StateM (State σ) Analysis) :
    Except Failure Analysis → StateM (State σ) Outcome
  | .error (.unresolved u) => do
    onSession (·.register (← leaf f.key .failed u.message))
    pure (.error u)
  | .error failure => do
    let a ← leaf f.key .failed failure.message
    t.complete f a
    pure (.ok a)
  | .ok a => do
    let a ← if a.status = .complete then expand a else pure a
    t.complete f a
    pure (.ok a)

/-- Enters a method: describes it, traces its calls, and leaves it. -/
def enter (t : Tracer σ) (f : Frame)
    (expand : Analysis → StateM (State σ) Analysis) : StateM (State σ) Outcome := do
  onSession (·.enter f)
  t.tell (.started f.key f.depth)
  let described := (t.base f.key).run
  let r ← t.settle f expand (← described)
  onSession Session.pop
  pure r

/-- What is known about a method without entering it: it is under
analysis, was analyzed before, or must not be entered. -/
def known? (s : Session) (key : MethodKey) (placeholder :
    Status → String → Analysis) : Option Analysis :=
  if s.visited.contains key then
    if s.onStack key then some (placeholder .truncated cycleReason)
    else
      some ((s.registry.get? key).getD (placeholder .truncated cycleReason))
  else if s.limits.maxMethods ≤ s.analyzed then
    some (placeholder .truncated budgetReason)
  else if !Source.isPlausible key.typeName key.methodName then
    some (placeholder .failed (invalidReason key))
  else none

/-- The analysis of a method found nowhere, as it is seen by a caller. -/
def orLeaf (key : MethodKey) :
    Except Unresolved Analysis → StateM (State σ) Analysis
  | .ok a => pure a
  | .error u => leaf key .failed u.message

/-- Traces a method. `levels` is how many levels are left, this one
included. -/
def trace (t : Tracer σ) : Nat → Frame → StateM (State σ) Outcome
  | 0, f => do pure (.ok (← leaf f.key .truncated depthReason))
  | levels + 1, f => do
    let s ← get
    match known? s.session f.key
      fun st reason => .placeholder f.key st reason s.timeOfDay with
    | some a => pure (.ok a)
    | none =>
      t.enter f fun a => do
        let step (c : CallSite) : StateM (State σ) Analysis := do
          let inner : Frame := ⟨c.key, f.depth + 1, c.condition.isSome⟩
          orLeaf c.key (← trace t levels inner)
        pure (enrich a (← traceBlocks step a.blocks))

/-- How many levels are left at a depth, that depth included. -/
def levelsAt (limits : Limits) (depth : Int) : Nat :=
  ((limits.maxDepth : Int) + 1 - depth).toNat

/-- Traces a method at a depth of the session under way. -/
def traceAt (t : Tracer σ) (key : MethodKey) (depth : Int) :
    StateM (State σ) Outcome := do
  t.trace (levelsAt (← get).session.limits depth) ⟨key, depth, false⟩

/-- Traces the root of the session and puts the walkthrough together. -/
def run (t : Tracer σ) : StateM (State σ) Outcome := do
  let r ← t.traceAt (← get).session.root 0
  onSession fun s => { s with finished := true }
  match r with
  | .ok root =>
    onSession fun s => { s with steps := Trace.assemble s.registry root }
    pure (.ok root)
  | .error u => pure (.error u)

end Tracer

end CallTrace.Run
