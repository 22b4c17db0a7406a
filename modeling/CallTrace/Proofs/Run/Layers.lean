/-
A layer over the surroundings of a run leaves the run as it is.

A layer keeps something of its own and gives the answers from below. A run
over the layer then goes abreast of the run below: every piece of the one
mirrors the same piece of the other, and the sessions, the store and the
clock stay the same. So what a layer has kept in the end, such as what the
listener was told, tells about the run below.
-/
import CallTrace.Proofs.Run.Abreast
import CallTrace.Proofs.Run.InStep
import CallTrace.Run.Layers

namespace CallTrace.Run

open Number (Double)
open Source (Resolved)

variable {σ τ α : Type}

-- ============================================================== layers

/-- The answer as it is below a layer. -/
def Answer.below (f : τ → σ) (a : Answer τ α) : Answer σ α :=
  ⟨a.value, a.cancels, f a.outside⟩

/-- The state as it is below a layer. -/
def State.below (f : τ → σ) (s : State τ) : State σ :=
  ⟨s.session, ⟨s.world.clock, s.world.store, f s.world.outside⟩⟩

/-- The state `s'` is what lies below `s`. -/
def Beneath (f : τ → σ) (s : State τ) (s' : State σ) : Prop :=
  s' = s.below f

/-- What `u` answers over a layer is what `t` answers below it. -/
structure Tracer.Over (f : τ → σ) (u : Tracer τ) (t : Tracer σ) : Prop where
  caching : u.caching = t.caching
  maxSuggestions : u.maxSuggestions = t.maxSuggestions
  hierarchyDepth : u.hierarchyDepth = t.hierarchyDepth
  sourceOf : ∀ name files o,
    t.sourceOf name files (f o) = (u.sourceOf name files o).below f
  answerTo : ∀ identity prompt o,
    t.answerTo identity prompt (f o) = (u.answerTo identity prompt o).below f
  inform : ∀ e o, t.inform e (f o) = (u.inform e o).below f

/-- The state with a record in which nothing is kept yet. -/
def State.watched (s : State σ) : State (Recorded σ) :=
  ⟨s.session, ⟨s.world.clock, s.world.store, { below := s.world.outside }⟩⟩

namespace Tracer

/-- The tracer with what it tells its listener kept. -/
def watched (t : Tracer σ) : Tracer (Recorded σ) :=
  { t with toSurroundings := t.toSurroundings.recorded }

theorem watched_over (t : Tracer σ) :
    t.watched.Over Recorded.below t where
  caching := rfl
  maxSuggestions := rfl
  hierarchyDepth := rfl
  sourceOf _ _ _ := rfl
  answerTo _ _ _ := rfl
  inform _ _ := rfl

namespace Over

variable {f : τ → σ} {u : Tracer τ} {t : Tracer σ} (h : u.Over f t)

-- ============================================================== pieces

include h in
theorem mirrors_lookup (name : String) :
    Mirrors (Beneath f) (u.lookup name) (t.lookup name) := by
  rintro s _ rfl
  have hsource := h.sourceOf name s.world.store.files s.world.outside
  refine ⟨congrArg Answer.value hsource.symm, ?_⟩
  exact congrArg (s.below f).heard hsource

include h in
theorem mirrors_tell (e : Event) :
    Mirrors (Beneath f) (u.tell e) (t.tell e) := by
  refine mirrors_modify ?_
  rintro s _ rfl
  exact congrArg (s.below f).heard (h.inform e s.world.outside)

include h in
/-- What lies beneath a run hears what the run hears. -/
theorem hearsAlike : HearsAlike u t (Beneath f) where
  now := by
    rintro s _ rfl
    rfl
  depth := by
    rintro s _ rfl
    rfl
  timeout := by
    rintro s _ rfl
    rfl
  counted := by
    rintro s _ rfl
    rfl
  answered := by
    rintro s _ rfl prompt
    have hanswer := h.answerTo s.session.identity prompt s.world.outside
    exact ⟨congrArg Answer.value hanswer.symm,
      congrArg (s.below f).heard hanswer⟩
  told := h.mirrors_tell
  slept := by
    rintro s _ rfl now
    rfl

-- ============================================================== caching

include h in
/-- What lies beneath a run uses the cache as the run does. -/
theorem cachesAlike : CachesAlike u t (Beneath f) where
  caching := h.caching
  useCache := by
    rintro s _ rfl
    rfl
  identity := by
    rintro s _ rfl
    rfl
  stored act := by
    rintro s _ rfl
    exact ⟨rfl, rfl⟩
  hit := by
    rintro s _ rfl
    rfl
  missed := by
    rintro s _ rfl
    rfl
  timed := by
    rintro s _ rfl ms
    rfl

-- ================================================================ runs

include h in
theorem mirrors_base (key : MethodKey) :
    Mirrors (Beneath f) (u.base key) (t.base key) := by
  refine InStep.mirrors_base (.of_alike h.hearsAlike h.cachesAlike
    h.mirrors_lookup h.maxSuggestions h.hierarchyDepth ?_ ?_) key
  · rintro s _ rfl
    rfl
  · rintro s _ rfl
    rfl

include h in
/-- What lies beneath a run keeps abreast of it. -/
theorem abreast : Abreast u t (Beneath f) where
  session := by
    rintro s _ rfl
    rfl
  timeOfDay := by
    rintro s _ rfl
    rfl
  changed _ := by
    refine mirrors_modify ?_
    rintro s _ rfl
    rfl
  told := h.mirrors_tell
  described := h.mirrors_base

include h in
/-- A run over a layer mirrors the run below it. -/
theorem mirrors_run : Mirrors (Beneath f) u.run t.run := h.abreast.run

end Over

/-- Keeping what the listener is told changes nothing in a run. -/
theorem watched_run (t : Tracer σ) (s : State σ) :
    t.run s = ((t.watched.run s.watched).1,
      (t.watched.run s.watched).2.below Recorded.below) := by
  obtain ⟨hvalue, hstate⟩ := t.watched_over.mirrors_run s.watched s rfl
  exact Prod.ext hvalue.symm hstate

end Tracer

end CallTrace.Run
