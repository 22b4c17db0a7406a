/-
The walkthrough of a method, put together from registered analyses.

A method contributes its start, a line for each block, the lines of each
call in the block, and its end. A call that was expanded contributes the
lines of the called method, one level deeper, and the return from it. A
method is traced in full only once: later calls refer to the step at which
it was started. A call that was stepped into and not expanded contributes
lines that say why.

Every method traced inside another one is registered and was not started
before, so the nesting is never deeper than the registry is long; this is
the fuel of `Emission.traceMethod`.
-/
import CallTrace.Trace.Mark

namespace CallTrace.Trace

/-- The lines emitted so far, and the step at which each method was
started. -/
structure Emission where
  lines : Array Line := #[]
  started : List (MethodKey × Nat) := []

namespace Emission

/-- The step at which a method was started. -/
def startOf? (e : Emission) (key : MethodKey) : Option Nat :=
  (e.started.find? (·.1 = key)).map (·.2)

/-- One more line. -/
def add (e : Emission) (depth : Nat) (mark : Mark) : Emission :=
  { e with lines := e.lines.push ⟨depth, mark⟩ }

/-- The start of a method. -/
def enter (e : Emission) (a : Analysis) (depth : Nat) : Emission :=
  let e := e.add depth (.enter a)
  { e with started := (a.key, e.lines.size) :: e.started }

/-- The lines of a call of `a` that was stepped into and not expanded. -/
def skip (e : Emission) (a : Analysis) (c : CallSite) (status : Status)
    (depth : Nat) : Emission :=
  e.add (depth + 1) (.skipEnter c)
    |>.add (depth + 1) (.skip c status)
    |>.add (depth + 1) (.skipExit c)
    |>.add depth (.skipBack a c)

/-- The lines inside a call of `a`, and the return from it. `trace` traces
a method that was not started yet. -/
def enterCall (trace : Analysis → Nat → Emission → Emission)
    (r : Registry) (e : Emission) (a : Analysis) (c : CallSite)
    (status : Status) (depth : Nat) : Emission :=
  match status, r.get? c.key with
  | .complete, some inner =>
    match e.startOf? inner.key with
    | some n => e.add depth (.again a inner n)
    | none => (trace inner (depth + 1) e).add depth (.back a inner)
  | status, _ => e.skip a c status depth

/-- The condition of a call, and the call itself. -/
def announce (e : Emission) (a : Analysis) (b : Block) (c : CallSite)
    (depth : Nat) : Emission :=
  let e :=
    match conditionOf? c with
    | some text => e.add depth (.condition a b text)
    | none => e
  e.add depth (.call a b c)

/-- The lines of one call of a block: its condition, the call itself, and
what happens inside it. -/
def traceCall (trace : Analysis → Nat → Emission → Emission) (r : Registry)
    (a : Analysis) (b : Block) (depth : Nat) (e : Emission) (c : CallSite) :
    Emission :=
  let e := e.announce a b c depth
  match c.decision, c.innerStatus with
  | .stepInto, some status => enterCall trace r e a c status depth
  | _, _ => e

/-- The lines of one block. -/
def traceBlock (trace : Analysis → Nat → Emission → Emission) (r : Registry)
    (a : Analysis) (depth : Nat) (e : Emission) (b : Block) : Emission :=
  b.calls.foldl (traceCall trace r a b depth) (e.add depth (.block a b))

/-- The lines of a method. `fuel` bounds the nesting of methods. -/
def traceMethod (r : Registry) :
    Nat → Analysis → Nat → Emission → Emission
  | 0, _, _, e => e
  | fuel + 1, a, depth, e =>
    let e := a.blocks.foldl (traceBlock (traceMethod r fuel) r a depth)
      (e.enter a depth)
    e.add depth (.exit a)

end Emission

/-- The lines of the walkthrough of a method over the registered
analyses. -/
def outline (r : Registry) (root : Analysis) : List Line :=
  (Emission.traceMethod r (r.length + 1) root 0 {}).lines.toList

/-- The walkthrough of a method over the registered analyses. -/
def assemble (r : Registry) (root : Analysis) : List Step :=
  writeLines (outline r root)

end CallTrace.Trace
