/-
The analyses that a run has touched.

Each method is registered once, at the place where its key came first; a
later analysis of the same method takes that place. The order is the one
in which the methods are listed under a walkthrough.
-/
import CallTrace.Method.Analysis

namespace CallTrace.Trace

/-- Registered analyses, in the order in which their keys came. -/
abbrev Registry := List Analysis

namespace Registry

/-- The analysis registered under a key. -/
def get? (r : Registry) (key : MethodKey) : Option Analysis :=
  r.find? (·.key = key)

def contains (r : Registry) (key : MethodKey) : Bool := (r.get? key).isSome

/-- The registry with an analysis under its key. -/
def register (r : Registry) (a : Analysis) : Registry :=
  if r.contains a.key then r.map fun b => if b.key = a.key then a else b
  else r ++ [a]

/-- The registered keys, in order. -/
def keys (r : Registry) : List MethodKey := r.map (·.key)

end Registry

end CallTrace.Trace
