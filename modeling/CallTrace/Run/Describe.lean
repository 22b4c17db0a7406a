/-
The description of a method by itself, before the methods it calls are
looked at.

The description is taken from the cache or asked of the oracle. An oracle
that does not find the method where it was looked for may suggest other
types; these are tried in order until one has the method. A description
that was found under a suggestion is filed under the method that was asked
for as well.
-/
import CallTrace.Reply.Parse
import CallTrace.Run.Listen
import CallTrace.Slice
import CallTrace.Source.Fingerprint
import CallTrace.Source.Resolve

namespace CallTrace.Run

open Number (Double)
open Source (Resolved)

variable {σ : Type}

/-- Why a method was left unanalyzed by a cancelled run. -/
def cancelledReason : String := "analysis cancelled"

/-- What comes of looking for a method in one source: its description, or
the types suggested instead. -/
inductive Finding where
  | described (a : Analysis)
  | absent (suggestions : List String)
deriving DecidableEq

namespace Tracer

/-- A leaf for a method that is not analyzed. -/
def leaf (key : MethodKey) (status : Status) (reason : String) :
    StateM (State σ) Analysis := do
  pure (.placeholder key status reason (← get).timeOfDay)

/-- The leaf of a cancelled run. -/
def cancelledLeaf (key : MethodKey) : Action (State σ) Analysis :=
  liftM (leaf key .truncated cancelledReason : StateM (State σ) Analysis)

-- ============================================================== cache

/-- The cache is there and wanted. -/
def usesCache (t : Tracer σ) (s : State σ) : Bool :=
  s.session.limits.useCache && t.caching

/-- Does something with the store. -/
def onStore {α : Type} (act : Clock → Action Cache.Store α) :
    Action (State σ) α := fun s =>
  match act s.world.clock s.world.store with
  | (r, store) => (r, { s with world.store := store })

/-- The description in the cache. -/
def cached (t : Tracer σ) (key : MethodKey) (fingerprint : String) :
    Action (State σ) (Option Analysis) := do
  let s ← get
  if t.usesCache s then
    match ← onStore fun clock =>
      Cache.Store.lookup clock key fingerprint s.session.identity with
    | some a =>
      modify fun s => { s with session.hits := s.session.hits + 1 }
      pure (some a)
    | none =>
      modify fun s => { s with session.misses := s.session.misses + 1 }
      pure none
  else pure none

/-- Files a description under the source that the method was resolved
to. -/
def file (t : Tracer σ) (key : MethodKey) (a : Analysis) (r : Resolved) :
    Action (State σ) Unit := do
  let s ← get
  if t.usesCache s then
    onStore fun clock =>
      Cache.Store.store clock key a (Source.fingerprint r.source.content)
        s.session.identity r.source.path

/-- Notes how long an answer took. -/
def recordTime (t : Tracer σ) (ms : Double) : StateM (State σ) Unit :=
  if t.caching then
    modify fun s => { s with world.store := s.world.store.recordTime ms }
  else pure ()

-- ============================================================= oracle

/-- What is asked about a method in the source it was resolved to. -/
def promptFor (key : MethodKey) (r : Resolved) : Prompt :=
  ⟨r.defining, key.methodName, r.source.content, r.source.language⟩

/-- The failure of an answer that describes no method. -/
def unreadable (key : MethodKey) (answer message : String) : Failure :=
  .reported .reply
    ("Could not parse analysis of " ++ key.display ++ ": " ++ message)
    [("method", .text key.display),
     ("preview", .text (String.ofList (answer.toList.take 200)))]

/-- The description that an answer gives. -/
def describe (key : MethodKey) (r : Resolved) (reply : Reply)
    (now : Double) : Analysis where
  typeName := key.typeName
  methodName := key.methodName
  language := r.source.language
  status := .complete
  blocks := reply.blocks
  summary := reply.summary
  fingerprint := Source.fingerprint r.source.content
  createdAt := now
  inheritedFrom := r.inheritedFrom

/-- Has the oracle describe a method from the source it was resolved to,
and files the description. -/
def inquire (t : Tracer σ) (key : MethodKey) (r : Resolved) :
    Action (State σ) Finding := do
  let started := (← get).now
  let answer ← t.ask (promptFor key r) key
  let ms := ((← get).now - started) * .ofInt 1000
  match Reply.parse r.defining answer with
  | .absent suggestions => pure (.absent suggestions)
  | reply =>
    match reply.errorMessage? r.defining with
    | some message => throw (unreadable key answer message)
    | none =>
      let a := describe key r reply (← get).timeOfDay
      t.recordTime ms
      t.file key a r
      pure (.described a)

/-- Describes a method from the source it was resolved to. -/
def find (t : Tracer σ) (key : MethodKey) (r : Resolved) :
    Action (State σ) Finding := do
  match ← t.cached key (Source.fingerprint r.source.content) with
  | some a => pure (.described a)
  | none =>
    if (← get).session.cancelled then
      pure (.described (← cancelledLeaf key))
    else t.inquire key r

-- ======================================================== suggestions

/-- The description of one method as that of another, which has it from
the type it was found in. -/
def readdress (key : MethodKey) (a : Analysis) (definer : String) :
    Analysis :=
  { a with
    typeName := key.typeName
    methodName := key.methodName
    inheritedFrom :=
      match a.inheritedFrom with
      | some t => if t = "" then some definer else some t
      | none => some definer }

/-- Describes a method that was resolved to `r` from the source of another
type, and files it as its own. When that comes to nothing, `next` goes
on. -/
def tryOther (t : Tracer σ) (key : MethodKey) (r other : Resolved)
    (next : Action (State σ) Analysis) : Action (State σ) Analysis := do
  match ← attempt (t.find ⟨other.defining, key.methodName⟩ other) with
  | .error (.unresolved u) => throw (.unresolved u)
  | .error f => if f.isOwn then next else throw f
  | .ok (.absent _) => next
  | .ok (.described a) =>
    if a.status = .complete then do
      let a := readdress key a other.defining
      t.file key a r
      pure a
    else next

/-- Tries suggested types for a method that was resolved to `r` and not
found there. `tried` are types that need not be tried, `searched` those
that were searched so far, in order. -/
def trySuggestions (t : Tracer σ) (key : MethodKey) (r : Resolved)
    (tried searched : List String) :
    List String → Action (State σ) Analysis
  | [] =>
    throw (.unresolved ⟨key.typeName, key.methodName, searched, .method⟩)
  | name :: rest =>
    if tried.contains name then trySuggestions t key r tried searched rest
    else do
      let tried := name :: tried
      if (← get).session.cancelled then cancelledLeaf key
      else
        match ← attempt (Source.resolve t.lookup t.hierarchyDepth name
          key.methodName) with
        | .error (.unresolved _) =>
          trySuggestions t key r tried (searched ++ [name]) rest
        | .error f => throw f
        | .ok other =>
          let searched := searched ++
            other.chain.filter fun n => !searched.contains n
          t.tryOther key r other
            (trySuggestions t key r tried searched rest)

/-- Describes a method, wherever it is found. -/
def base (t : Tracer σ) (key : MethodKey) : Action (State σ) Analysis := do
  if (← get).session.cancelled then cancelledLeaf key
  else
    let r ← Source.resolve t.lookup t.hierarchyDepth key.typeName
      key.methodName
    match ← t.find key r with
    | .described a => pure a
    | .absent suggestions =>
      t.trySuggestions key r r.chain r.chain
        (firstItems t.maxSuggestions suggestions)

end Tracer

end CallTrace.Run
