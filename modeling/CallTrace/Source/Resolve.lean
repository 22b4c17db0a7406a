/-
Finding the type that declares a method.

The requested type comes first. When its source does not visibly declare
the method, the types above it are searched in depth, in the order in
which they are written, each at most once and up to a greatest depth. When
none declares it either, the requested type's own source is used, and
whoever reads it has the last word.

The walk recurses on the depth that is left, so it ends whatever the
lookups answer.
-/
import CallTrace.Source.Declaration
import CallTrace.Source.File
import CallTrace.Source.Supertypes

namespace CallTrace.Source

/-- Where a method is to be read. -/
structure Resolved where
  /-- The type that was asked for, as its source names it. -/
  requested : String
  source : SourceFile
  /-- The types that were searched, in order. -/
  chain : List String
  /-- The source visibly declares the method. -/
  declared : Bool := true
deriving DecidableEq

namespace Resolved

/-- The type whose source it is. -/
def defining (r : Resolved) : String := r.source.typeName

def inherited (r : Resolved) : Bool := r.defining != r.requested

/-- The defining type, when it is not the one that was asked for. -/
def inheritedFrom (r : Resolved) : Option String :=
  if r.inherited then some r.defining else none

end Resolved

/-- A walk so far: the types searched, and all names that need no further
look. -/
structure Walk where
  chain : List String := []
  seen : List String := []
deriving DecidableEq

namespace Walk

/-- The walk has come to a type. -/
def visit (w : Walk) (typeName : String) : Walk :=
  ⟨w.chain ++ [typeName], typeName :: w.seen⟩

/-- The walk knows that a name has no source. -/
def giveUp (w : Walk) (name : String) : Walk :=
  { w with seen := name :: w.seen }

variable {ω : Type}

/-- Searches the types of these names. `descend` searches one type and
those above it. -/
def searchNames (lookup : Lookup ω)
    (descend : SourceFile → Walk → Action ω (Option SourceFile × Walk)) :
    List String → Walk → Action ω (Option SourceFile × Walk)
  | [], w => pure (none, w)
  | name :: names, w =>
    if w.seen.contains name then searchNames lookup descend names w
    else do
      match ← lookup name with
      | none => searchNames lookup descend names (w.giveUp name)
      | some parent =>
        if w.seen.contains parent.typeName then
          searchNames lookup descend names w
        else
          match ← descend parent w with
          | (some found, w) => pure (some found, w)
          | (none, w) => searchNames lookup descend names w

/-- Searches a type and those above it, `depth` levels up at most, for a
declaration of the method. -/
def search (lookup : Lookup ω) (method : String) :
    Nat → SourceFile → Walk → Action ω (Option SourceFile × Walk)
  | depth, source, w =>
    let w := w.visit source.typeName
    if declaresMethod source.content method then pure (some source, w)
    else
      match depth with
      | 0 => pure (none, w)
      | depth + 1 =>
        searchNames lookup (search lookup method depth)
          (supertypes source.content source.typeName) w

end Walk

/-- How far up a method is searched, unless something else is said. -/
def maxHierarchyDepth : Nat := 10

/-- Finds the type that declares a method of `typeName`. -/
def resolve {ω : Type} (lookup : Lookup ω) (depth : Nat)
    (typeName method : String) : Action ω Resolved := do
  match ← lookup typeName with
  | none =>
    throw (.unresolved ⟨typeName, method, [typeName], .type⟩)
  | some root =>
    let (found, w) ← Walk.search lookup method depth root {}
    match found with
    | some source => pure ⟨root.typeName, source, w.chain, true⟩
    | none => pure ⟨root.typeName, root, w.chain, false⟩

end CallTrace.Source
