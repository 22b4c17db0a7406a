/-
The numbers that are reported with a finished walkthrough.
-/
import CallTrace.Number.Decimal

namespace CallTrace.Trace

open Number (Double)

/-- What a run has cost, and how far it came. -/
structure Stats where
  methodsAnalyzed : Int := 0
  maxDepthReached : Int := 0
  timeMs : Int := 0
  cacheHitRate : Double := .zero
  oracleCalls : Int := 0
  truncatedLeaves : Int := 0
  failedLeaves : Int := 0
  totalSteps : Int := 0
  model : String := ""
deriving DecidableEq

end CallTrace.Trace
