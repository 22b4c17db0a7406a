/-
The two tiers of the cache behind one interface.

A lookup goes to the session tier first; what only the durable tier holds
is taken over into the session tier. Setting and dropping go to both. The
durable tier may be missing. The files are part of the store, since the
durable tier lies in them.
-/
import CallTrace.Cache.DurableTier
import CallTrace.Cache.SessionTier

namespace CallTrace.Cache

open Number (Double)

/-- The two tiers, and the files. -/
structure Store where
  session : SessionTier := {}
  durable : Option DurableTier := none
  files : Files.Tree := {}

/-- A store over a session tier. One that is still empty is replaced by a
tier with the usual limits. -/
def Store.over (session : SessionTier) (durable : Option DurableTier)
    (files : Files.Tree) : Store :=
  ⟨if session.entries.size = 0 then {} else session, durable, files⟩

namespace Store

/-- The durable tier with its files. -/
def shelf? (s : Store) : Option Shelf := s.durable.map (⟨·, s.files⟩)

/-- The store after a change of the durable tier. -/
def withShelf (s : Store) (shelf : Shelf) : Store :=
  { s with durable := some shelf.tier, files := shelf.files }

/-- Does something with the durable tier; `absent` is the answer without
one. -/
def onShelf {α : Type} (absent : α) (act : Action Shelf α) :
    Action Store α := fun s =>
  match s.shelf? with
  | none => (.ok absent, s)
  | some shelf =>
    match act shelf with
    | (r, shelf) => (r, s.withShelf shelf)

/-- Does something with the session tier. -/
def onSession {α : Type} (f : SessionTier → α × SessionTier) :
    Action Store α := fun s =>
  match f s.session with
  | (a, session) => (.ok a, { s with session := session })

/-- Sets an analysis in the session tier. -/
def hold (clock : Clock) (key : MethodKey) (a : Analysis)
    (fingerprint identity : String) : Action Store Unit := do
  let s ← get
  let session ← s.session.set clock.elapsed key a fingerprint identity
  set { s with session := session }

/-- Looks an analysis up in the durable tier, and takes it over into the
session tier. -/
def takeOver (clock : Clock) (key : MethodKey)
    (fingerprint identity : String) : Action Store (Option Analysis) := do
  match ← onShelf none
    (Shelf.lookup clock.timeOfDay key fingerprint identity) with
  | none => pure none
  | some a =>
    hold clock key a fingerprint identity
    pure (some a)

/-- Looks an analysis up. -/
def lookup (clock : Clock) (key : MethodKey)
    (fingerprint identity : String) : Action Store (Option Analysis) := do
  match ← onSession fun t =>
    t.get clock.elapsed key (some fingerprint) (some identity) with
  | some a => pure (some a)
  | none => takeOver clock key fingerprint identity

/-- Sets an analysis in both tiers. -/
def store (clock : Clock) (key : MethodKey) (a : Analysis)
    (fingerprint identity sourcePath : String) : Action Store Unit := do
  hold clock key a fingerprint identity
  onShelf ()
    (Shelf.store clock.timeOfDay key a fingerprint identity sourcePath)

/-- The analysis in the session tier, looked up without a trace. -/
def peek (s : Store) (clock : Clock) (key : MethodKey) : Option Analysis :=
  s.session.peek clock.elapsed key

/-- Drops one method of a type, or all of them, in both tiers; gives the
number of entries dropped. -/
def invalidate (clock : Clock) (typeName : String)
    (methodName : Option String) : Action Store Nat := do
  let n ← onSession fun t => t.invalidate typeName methodName
  let m ← onShelf 0
    (Shelf.invalidate clock.timeOfDay typeName methodName)
  pure (n + m)

/-- Drops everything in both tiers. -/
def clear (clock : Clock) : Action Store Unit := do
  onSession fun t => ((), t.clear)
  onShelf () (Shelf.clear clock.timeOfDay)

/-- Notes how long an analysis took, in milliseconds. -/
def recordTime (s : Store) (ms : Double) : Store :=
  { s with session := s.session.recordTime ms }

/-- How many methods are listed as the most used ones. -/
def listedMethods : Int := 5

/-- What is told about both tiers. -/
def stats (s : Store) : Except Failure Json := do
  let size ← s.session.sizeInfo
  let durable :=
    match s.shelf? with
    | some shelf => [("durable", shelf.stats)]
    | none => []
  pure (.object (s.session.countFields ++
    [("size", size), ("top_methods", s.session.topMethods listedMethods)] ++
    durable))

end Store

end CallTrace.Cache
