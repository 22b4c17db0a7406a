/-
Sources of types.

A lookup answers with the source of a type, with nothing when there is
none, or with a failure. What it does besides, such as keeping a list of
files, is a change of the state it runs in.
-/
import CallTrace.Failure

namespace CallTrace.Source

/-- The source of a type. -/
structure SourceFile where
  typeName : String
  path : String
  content : String
  language : String
deriving DecidableEq

/-- A way to look up the sources of types. -/
abbrev Lookup (ω : Type) := String → Action ω (Option SourceFile)

end CallTrace.Source
