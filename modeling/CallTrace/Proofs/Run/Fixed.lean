/-
What describing a method comes to when nothing varies.

The sources are fixed, and so is what the oracle has to say to a prompt.
Then there is one description of a method, or one reason why there is none,
and it can be worked out without a cache, a clock or a listener. The
functions here do that; each has the shape of the piece of a run that it
tells about.

Only a reply that never comes depends on anything else: the failure says
how long was waited. So what is described is the same within every limit.
-/
import CallTrace.Proofs.Cache.Document
import CallTrace.Run.Describe

namespace CallTrace.Run

open Number (Double)
open Source (Resolved SourceFile)

/-- What an oracle makes of a prompt, if it is given time. -/
inductive Response where
  | replies (text : String)
  | fails (f : Failure)
  | never

/-- All that a description depends on. -/
structure Fixed where
  sourceOf : String → Except Failure (Option SourceFile)
  responseTo : Prompt → Response
  /-- The oracle that is asked. -/
  identity : String
  /-- How long a reply is waited for. -/
  limit : Double
  maxSuggestions : Int := 5
  hierarchyDepth : Nat := Source.maxHierarchyDepth

namespace Fixed

-- ========================================================== what comes

/-- What asking for a description of `key` comes to. -/
def ask (x : Fixed) (key : MethodKey) (prompt : Prompt) :
    Except Failure String :=
  match x.responseTo prompt with
  | .replies text => .ok text
  | .fails f => .error f
  | .never => .error (.timedOut key.display x.limit)

/-- The source that a method of the type is resolved to. -/
def resolve (x : Fixed) (typeName method : String) :
    Except Failure Resolved :=
  (Source.resolve (fun name u => (x.sourceOf name, u)) x.hierarchyDepth
    typeName method ()).1

/-- What comes of asking about a method in the source it was resolved to.
A description is of no particular time. -/
def find (x : Fixed) (key : MethodKey) (r : Resolved) :
    Except Failure Finding :=
  match x.ask key (Tracer.promptFor key r) with
  | .error f => .error f
  | .ok answer =>
    match Reply.parse r.defining answer with
    | .absent suggestions => .ok (.absent suggestions)
    | reply =>
      match reply.errorMessage? r.defining with
      | some message => .error (Tracer.unreadable key answer message)
      | none => .ok (.described (Tracer.describe key r reply .zero))

/-- What comes of trying the source of another type, and `next` if that
comes to nothing. -/
def tryOther (x : Fixed) (key : MethodKey) (other : Resolved)
    (next : Except Failure Analysis) : Except Failure Analysis :=
  match x.find ⟨other.defining, key.methodName⟩ other with
  | .error (.unresolved u) => .error (.unresolved u)
  | .error f => if f.isOwn then next else .error f
  | .ok (.absent _) => next
  | .ok (.described a) => .ok (Tracer.readdress key a other.defining)

/-- What comes of trying suggested types. -/
def trySuggestions (x : Fixed) (key : MethodKey)
    (tried searched : List String) :
    List String → Except Failure Analysis
  | [] =>
    .error (.unresolved ⟨key.typeName, key.methodName, searched, .method⟩)
  | name :: rest =>
    if tried.contains name then x.trySuggestions key tried searched rest
    else
      match x.resolve name key.methodName with
      | .error (.unresolved _) =>
        x.trySuggestions key (name :: tried) (searched ++ [name]) rest
      | .error f => .error f
      | .ok other =>
        let searched := searched ++
          other.chain.filter fun n => !searched.contains n
        x.tryOther key other
          (x.trySuggestions key (name :: tried) searched rest)

/-- The description of a method, or why there is none. -/
def base (x : Fixed) (key : MethodKey) : Except Failure Analysis :=
  match x.resolve key.typeName key.methodName with
  | .error f => .error f
  | .ok r =>
    match x.find key r with
    | .error f => .error f
    | .ok (.described a) => .ok a
    | .ok (.absent suggestions) =>
      x.trySuggestions key r.chain r.chain
        (firstItems x.maxSuggestions suggestions)

variable {x : Fixed} {key : MethodKey} {r other : Resolved} {a : Analysis}

/-- A description is complete. -/
theorem find_described (h : x.find key r = .ok (.described a)) :
    a.status = .complete ∧ a.stamped .zero = a := by
  rw [find] at h
  split at h
  · cases h
  · split at h
    · cases h
    · split at h <;> cases h
      exact ⟨rfl, rfl⟩

/-- A type that is tried in place of another gives complete descriptions
only. -/
theorem tryOther_described {next : Except Failure Analysis}
    (hnext : ∀ a, next = .ok a → a.status = .complete)
    (h : x.tryOther key other next = .ok a) : a.status = .complete := by
  rw [tryOther] at h
  split at h
  · cases h
  · split at h
    · exact hnext a h
    · cases h
  · exact hnext a h
  · rename_i b hb
    cases h
    exact (find_described hb).1

/-- So does trying suggestions. -/
theorem trySuggestions_described {names : List String} :
    ∀ {tried searched : List String},
      x.trySuggestions key tried searched names = .ok a →
      a.status = .complete := by
  induction names generalizing a with
  | nil => exact fun h => absurd h (by simp [trySuggestions])
  | cons name rest ih =>
    intro tried searched h
    rw [trySuggestions] at h
    split at h
    · exact ih h
    split at h
    · exact ih h
    · cases h
    · exact tryOther_described (fun _ => ih) h

/-- What describes a method, when nothing varies, is complete. -/
theorem base_described (h : x.base key = .ok a) : a.status = .complete := by
  rw [base] at h
  split at h
  · cases h
  · split at h
    · cases h
    · rename_i hfound
      cases h
      exact (find_described hfound).1
    · exact trySuggestions_described h

-- ============================================================== limits

/-- The same, but for how long a reply is waited for. -/
def within (x : Fixed) (limit : Double) : Fixed := { x with limit := limit }

/-- Two results that differ in nothing but how long was waited for a reply
that never came. -/
inductive Agree {α : Type} : Except Failure α → Except Failure α → Prop where
  | same (result : Except Failure α) : Agree result result
  | late (method : String) (limit limit' : Double) :
    Agree (.error (.timedOut method limit)) (.error (.timedOut method limit'))

theorem Agree.ok_iff {α : Type} {result result' : Except Failure α}
    (h : Agree result result') (v : α) : result = .ok v ↔ result' = .ok v := by
  cases h <;> simp

/-- With another limit of time the same is found, but for how long was
waited. -/
theorem agree_find (x : Fixed) (limit : Double) (key : MethodKey)
    (r : Resolved) : Agree ((x.within limit).find key r) (x.find key r) := by
  rw [find, find, ask, ask]
  show Agree (match (match x.responseTo _ with
    | .replies text => Except.ok text
    | .fails f => .error f
    | .never => .error (.timedOut key.display limit)) with
    | .error f => .error f
    | .ok answer => _) _
  rcases x.responseTo (Tracer.promptFor key r) with text | f | _
  · exact .same _
  · exact .same _
  · exact .late _ _ _

/-- With another limit of time the same comes of trying a type. -/
theorem agree_tryOther (x : Fixed) (limit : Double) (key : MethodKey)
    (other : Resolved) {next next' : Except Failure Analysis}
    (hnext : Agree next next') :
    Agree ((x.within limit).tryOther key other next)
      (x.tryOther key other next') := by
  have hfind := x.agree_find limit ⟨other.defining, key.methodName⟩ other
  rw [tryOther, tryOther]
  revert hfind
  generalize (x.within limit).find _ other = result'
  generalize x.find _ other = result
  intro hfind
  rcases hfind with (f | a | l) | _
  · cases f with
    | unresolved u => exact .same _
    | _ =>
      dsimp only
      split
      · exact hnext
      · exact .same _
  · exact .same _
  · exact hnext
  · exact hnext

/-- With another limit of time the same comes of trying suggestions. -/
theorem agree_trySuggestions (x : Fixed) (limit : Double) (key : MethodKey)
    (names : List String) : ∀ tried searched : List String,
      Agree ((x.within limit).trySuggestions key tried searched names)
        (x.trySuggestions key tried searched names) := by
  induction names with
  | nil => exact fun _ _ => .same _
  | cons name rest ih =>
    intro tried searched
    rw [trySuggestions, trySuggestions]
    split
    · exact ih _ _
    have hresolve : (x.within limit).resolve name key.methodName =
        x.resolve name key.methodName := rfl
    rw [hresolve]
    rcases x.resolve name key.methodName with f | other
    · cases f with
      | unresolved u => exact ih _ _
      | _ => exact .same _
    · exact x.agree_tryOther limit key other (ih _ _)

/-- With another limit of time a method has the same description. -/
theorem agree_base (x : Fixed) (limit : Double) (key : MethodKey) :
    Agree ((x.within limit).base key) (x.base key) := by
  have hresolve : (x.within limit).resolve key.typeName key.methodName =
      x.resolve key.typeName key.methodName := rfl
  rw [base, base, hresolve]
  rcases x.resolve key.typeName key.methodName with f | r
  · exact .same _
  dsimp only
  have hfind := x.agree_find limit key r
  revert hfind
  generalize (x.within limit).find key r = result'
  generalize x.find key r = result
  intro hfind
  rcases hfind with (f | a | l) | _
  · exact .same _
  · exact .same _
  · exact x.agree_trySuggestions limit key _ _ _
  · exact .late _ _ _

-- ========================================================= suggestions

/-- The method is not found where it is resolved to, and the type is among
those that may be tried instead. -/
def Refers (x : Fixed) (key : MethodKey) (name : String) : Prop :=
  ∃ r suggestions, x.resolve key.typeName key.methodName = .ok r ∧
    x.find key r = .ok (.absent suggestions) ∧
    name ∈ firstItems x.maxSuggestions suggestions ∧
    r.chain.contains name = false

/-- The source is where its own type has the method as well, and not by
inheritance from elsewhere; and if the method is not found there, the type
has it from no other type either. -/
structure Alone (x : Fixed) (method : String) (other : Resolved) : Prop where
  resolved : ∃ r, x.resolve other.defining method = .ok r ∧
    r.source = other.source ∧ r.inheritedFrom = other.inheritedFrom
  final : ∀ suggestions a,
    x.find ⟨other.defining, method⟩ other = .ok (.absent suggestions) →
    x.base ⟨other.defining, method⟩ ≠ .ok a

/-- Wherever a method is looked for on a suggestion stands alone. -/
def Standalone (x : Fixed) : Prop :=
  ∀ key name other, x.Refers key name →
    x.resolve name key.methodName = .ok other → x.Alone key.methodName other

namespace Alone

variable {method : String} (h : x.Alone method other)

include h

/-- To look for the method of its own type is to look there. -/
theorem resolves : ∃ r, x.resolve other.defining method = .ok r ∧
    x.find ⟨other.defining, method⟩ r =
      x.find ⟨other.defining, method⟩ other := by
  obtain ⟨r, hr, hsource, hinherited⟩ := h.resolved
  refine ⟨r, hr, ?_⟩
  simp only [find, Tracer.promptFor, Tracer.describe, Resolved.defining,
    hsource, hinherited]

/-- What is described there is what its own type has. -/
theorem base_of_find (hfind : x.find ⟨other.defining, method⟩ other =
    .ok (.described a)) : x.base ⟨other.defining, method⟩ = .ok a := by
  obtain ⟨r, hr, hsame⟩ := h.resolves
  simp only [base, hr, hsame, hfind]

/-- What its own type has is described there. -/
theorem find_of_base (hbase : x.base ⟨other.defining, method⟩ = .ok a) :
    x.find ⟨other.defining, method⟩ other = .ok (.described a) := by
  obtain ⟨r, hr, hsame⟩ := h.resolves
  rcases hfind : x.find ⟨other.defining, method⟩ other with f | b | l
  · simp only [base, hr, hsame, hfind] at hbase
    cases hbase
  · rw [h.base_of_find hfind] at hbase
    cases hbase
    rfl
  · exact absurd hbase (h.final l a hfind)

end Alone

/-- Whom a method refers to does not depend on the limit of time. -/
theorem refers_within (limit : Double) {name : String} :
    (x.within limit).Refers key name ↔ x.Refers key name := by
  have hfind : ∀ r suggestions,
      (x.within limit).find key r = .ok (.absent suggestions) ↔
        x.find key r = .ok (.absent suggestions) :=
    fun r suggestions => (x.agree_find limit key r).ok_iff _
  constructor <;> rintro ⟨r, suggestions, hr, hf, hrest⟩
  · exact ⟨r, suggestions, hr, (hfind r suggestions).1 hf, hrest⟩
  · exact ⟨r, suggestions, hr, (hfind r suggestions).2 hf, hrest⟩

/-- Within every limit it is the same. -/
theorem Standalone.within (h : x.Standalone) (limit : Double) :
    (x.within limit).Standalone := by
  intro key name other hrefers hother
  obtain ⟨hresolved, hfinal⟩ :=
    h key name other ((refers_within limit).1 hrefers) hother
  refine ⟨hresolved, fun suggestions a hf hb => ?_⟩
  exact hfinal suggestions a (((x.agree_find limit _ other).ok_iff _).1 hf)
    (((x.agree_base limit _).ok_iff _).1 hb)

end Fixed

end CallTrace.Run
