/-
Two runs that describe a method in step.

To describe a method a run looks up sources, asks the oracle, consults the
cache and fills it, and looks whether it was cancelled. Where each of these
goes the same way in two runs, so does the whole description. What is
compared of the analyses is left open: two runs at different times may be
compared but for the times, and two that go together in every respect.

A run may be compared with itself. Then the relation says of it what
describing a method does to the state, whatever store it started with.
-/
import CallTrace.Proofs.Run.Listen
import CallTrace.Run.Describe

namespace CallTrace.Run

open Number (Double)
open Source (Resolved)

variable {σ τ : Type} {α : Type}

-- ============================================================== asking

/-- From related states, in which it is the same time, two runs hear the
same from the oracle and tell the same, and come to related states. -/
structure HearsAlike (t : Tracer σ) (u : Tracer τ)
    (R : State σ → State τ → Prop) : Prop where
  now : ∀ {s s'}, R s s' → s.now = s'.now
  depth : ∀ {s s'}, R s s' → s.session.depth = s'.session.depth
  timeout : ∀ {s s'}, R s s' →
    s.session.limits.timeout = s'.session.limits.timeout
  counted : ∀ {s s'}, R s s' →
    R { s with session.oracleCalls := s.session.oracleCalls + 1 }
      { s' with session.oracleCalls := s'.session.oracleCalls + 1 }
  answered : ∀ {s s'}, R s s' → ∀ prompt,
    let a := t.answerTo s.session.identity prompt s.world.outside
    let a' := u.answerTo s'.session.identity prompt s'.world.outside
    a.value = a'.value ∧ R (s.heard a) (s'.heard a')
  told : ∀ e, Mirrors R (t.tell e) (u.tell e)
  slept : ∀ {s s'}, R s s' → ∀ now, R (s.setNow now) (s'.setNow now)

namespace HearsAlike

variable {t : Tracer σ} {u : Tracer τ} {R : State σ → State τ → Prop}
  (h : HearsAlike t u R)

include h

/-- Two runs listen to the oracle alike. -/
theorem follow (key : MethodKey) (limit deadline : Double)
    (said : List String) (beats : List Beat) :
    Mirrors R (t.follow key limit deadline said beats)
      (u.follow key limit deadline said beats) := by
  induction beats generalizing said with
  | nil => exact Action.mirrors_pure _
  | cons beat rest ih =>
    cases beat with
    | wait seconds =>
      have hset : ∀ now : Double, Mirrors R
          (modify (·.setNow now) : Action (State σ) PUnit)
          (modify (·.setNow now) : Action (State τ) PUnit) :=
        fun now => Action.mirrors_modify fun _ _ hs => h.slept hs now
      refine Action.mirrors_get fun s s' hs => ?_
      rw [h.now hs]
      dsimp only
      split
      · exact Action.mirrors_bind (hset _) fun _ => Action.mirrors_throw _
      · exact Action.mirrors_bind (hset _) fun _ => ih said
    | say text =>
      refine Action.mirrors_get fun s s' hs => ?_
      rw [h.depth hs]
      exact Action.mirrors_bind (Action.mirrors_lift (h.told _))
        fun _ => ih _
    | fail failure =>
      cases failure <;> exact Action.mirrors_throw _

/-- Two runs ask alike, and hear the same. -/
theorem ask (prompt : Prompt) (key : MethodKey) :
    Mirrors R (t.ask prompt key) (u.ask prompt key) := by
  refine Action.mirrors_bind (Action.mirrors_modify
    fun _ _ hs => h.counted hs) fun _ => ?_
  intro s s' hs
  obtain ⟨hvalue, hstate⟩ := h.answered hs prompt
  have hfollow := h.follow key s.session.limits.timeout
    (s.now + s.session.limits.timeout) []
    (t.answerTo s.session.identity prompt s.world.outside).value _ _ hstate
  rw [Action.bind_ok (Action.get_run s), Action.bind_ok (Action.get_run s'),
    Action.bind_ok (Action.modify_run ..),
    Action.bind_ok (Action.modify_run ..), ← hvalue, ← h.timeout hs,
    ← h.now hs]
  exact hfollow

end HearsAlike

-- ============================================================== caching

/-- In related states two runs use the cache alike: both do or neither, in
one name, and whatever is done with the store gives the same and leads to
related states. -/
structure CachesAlike (t : Tracer σ) (u : Tracer τ)
    (R : State σ → State τ → Prop) : Prop where
  caching : t.caching = u.caching
  useCache : ∀ {s s'}, R s s' →
    s.session.limits.useCache = s'.session.limits.useCache
  identity : ∀ {s s'}, R s s' → s.session.identity = s'.session.identity
  stored : ∀ {β : Type} (act : Clock → Action Cache.Store β),
    Mirrors R (Tracer.onStore act) (Tracer.onStore act)
  hit : ∀ {s s'}, R s s' →
    R { s with session.hits := s.session.hits + 1 }
      { s' with session.hits := s'.session.hits + 1 }
  missed : ∀ {s s'}, R s s' →
    R { s with session.misses := s.session.misses + 1 }
      { s' with session.misses := s'.session.misses + 1 }
  timed : ∀ {s s'}, R s s' → ∀ ms,
    R { s with world.store := s.world.store.recordTime ms }
      { s' with world.store := s'.world.store.recordTime ms }

namespace CachesAlike

variable {t : Tracer σ} {u : Tracer τ} {R : State σ → State τ → Prop}
  (h : CachesAlike t u R)

include h

theorem usesCache {s : State σ} {s' : State τ} (hs : R s s') :
    t.usesCache s = u.usesCache s' := by
  rw [Tracer.usesCache, Tracer.usesCache, h.useCache hs, h.caching]

/-- Two runs take the same from the cache. -/
theorem cached (key : MethodKey) (fingerprint : String) :
    Mirrors R (t.cached key fingerprint) (u.cached key fingerprint) := by
  refine Action.mirrors_get fun s s' hs => ?_
  rw [h.usesCache hs, h.identity hs]
  split
  · refine Action.mirrors_bind (h.stored _) fun found => ?_
    rcases found with _ | a
    · exact Action.mirrors_bind (Action.mirrors_modify fun _ _ => h.missed)
        fun _ => Action.mirrors_pure _
    · exact Action.mirrors_bind (Action.mirrors_modify fun _ _ => h.hit)
        fun _ => Action.mirrors_pure _
  · exact Action.mirrors_pure _

theorem file (key : MethodKey) (a : Analysis) (r : Resolved) :
    Mirrors R (t.file key a r) (u.file key a r) := by
  refine Action.mirrors_get fun s s' hs => ?_
  rw [h.usesCache hs, h.identity hs]
  split
  · exact h.stored _
  · exact Action.mirrors_pure _

theorem recordTime (ms : Double) :
    Mirrors R (t.recordTime ms) (u.recordTime ms) := by
  rw [Tracer.recordTime, Tracer.recordTime, h.caching]
  split
  · exact mirrors_modify fun _ _ hs => h.timed hs ms
  · exact mirrors_pure _

end CachesAlike

-- ============================================================= in step

theorem Tracer.mirrors_attempt {ω ω' : Type} {R : ω → ω' → Prop}
    {a : Action ω α} {a' : Action ω' α} (ha : Mirrors R a a') :
    Mirrors R (attempt a) (attempt a') := by
  intro s s' h
  obtain ⟨hvalue, hstate⟩ := ha s s' h
  exact ⟨congrArg Except.ok hvalue, hstate⟩

/-- What is seen of a finding, from what is seen of an analysis. -/
def Finding.seen (see : Analysis → Analysis) : Finding → Finding
  | .described a => .described (see a)
  | .absent suggestions => .absent suggestions

/-- From related states the pieces of a description go the same way in two
runs, as far as it is seen, and lead to related states. -/
structure InStep (t : Tracer σ) (u : Tracer τ) (see : Analysis → Analysis)
    (R : State σ → State τ → Prop) : Prop where
  maxSuggestions : t.maxSuggestions = u.maxSuggestions
  hierarchyDepth : t.hierarchyDepth = u.hierarchyDepth
  looked : ∀ name, Mirrors R (t.lookup name) (u.lookup name)
  asked : ∀ prompt key, Mirrors R (t.ask prompt key) (u.ask prompt key)
  consulted : ∀ key fingerprint,
    MirrorsUpTo (Except.map (Option.map see)) R (t.cached key fingerprint)
      (u.cached key fingerprint)
  filed : ∀ key a a' r, see a = see a' →
    Mirrors R (t.file key a r) (u.file key a' r)
  /-- An answer that took from one state to another is timed. -/
  timed : ∀ {s₀ s s₀' s'}, R s₀ s₀' → R s s' →
    Mirrors R (t.recordTime ((s.now - s₀.now) * .ofInt 1000))
      (u.recordTime ((s'.now - s₀'.now) * .ofInt 1000))
  cancelled : ∀ {s s'}, R s s' →
    s.session.cancelled = s'.session.cancelled
  left : ∀ {s s'}, R s s' → ∀ key status reason,
    see (.placeholder key status reason s.timeOfDay) =
      see (.placeholder key status reason s'.timeOfDay)
  described : ∀ {s s'}, R s s' → ∀ key r reply,
    see (Tracer.describe key r reply s.timeOfDay) =
      see (Tracer.describe key r reply s'.timeOfDay)
  status : ∀ {a a'}, see a = see a' → a.status = a'.status
  readdressed : ∀ {a a'}, see a = see a' → ∀ key definer,
    see (Tracer.readdress key a definer) =
      see (Tracer.readdress key a' definer)

namespace InStep

open Tracer

variable {t : Tracer σ} {u : Tracer τ} {see : Analysis → Analysis}
  {R : State σ → State τ → Prop} (h : InStep t u see R)

include h

theorem cancelledLeaf (key : MethodKey) :
    MirrorsUpTo (Except.map see) R (cancelledLeaf key)
      (cancelledLeaf key) :=
  fun _ _ hs => ⟨congrArg Except.ok (h.left hs key _ _), hs⟩

theorem resolve (typeName method : String) :
    Mirrors R (Source.resolve t.lookup t.hierarchyDepth typeName method)
      (Source.resolve u.lookup u.hierarchyDepth typeName method) := by
  rw [h.hierarchyDepth]
  exact Source.mirrors_resolve h.looked _ _ _

/-- Two runs that ask about a method find the same, as far as it is seen.
-/
theorem inquire (key : MethodKey) (r : Resolved) :
    MirrorsUpTo (Except.map (Finding.seen see)) R (t.inquire key r)
      (u.inquire key r) := by
  rw [Tracer.inquire, Tracer.inquire]
  refine Action.mirrorsUpTo_look fun s₀ s₀' hs₀ => ?_
  refine Action.mirrorsUpTo_after (h.asked _ key) fun answer => ?_
  refine Action.mirrorsUpTo_look fun s s' hs => ?_
  dsimp only
  split
  · exact Action.mirrorsUpTo_pure rfl
  split
  · exact Action.mirrorsUpTo_throw _
  · refine Action.mirrorsUpTo_look fun s₁ s₁' hs₁ => ?_
    refine Action.mirrorsUpTo_after
      (Action.mirrors_lift (h.timed hs₀ hs)) fun _ => ?_
    have hseen := h.described hs₁ key r (Reply.parse r.defining answer)
    exact Action.mirrorsUpTo_after (h.filed key _ _ r hseen) fun _ =>
      Action.mirrorsUpTo_pure (congrArg Finding.described hseen)

/-- Two runs that look for a method find the same, as far as it is seen. -/
theorem find (key : MethodKey) (r : Resolved) :
    MirrorsUpTo (Except.map (Finding.seen see)) R (t.find key r)
      (u.find key r) := by
  refine Action.mirrorsUpTo_bind (h.consulted key _) fun found found' hf => ?_
  rcases found with _ | a <;> rcases found' with _ | a' <;>
    simp only [Option.map_none, Option.map_some, reduceCtorEq,
      Option.some.injEq] at hf
  · refine Action.mirrorsUpTo_look fun s s' hs => ?_
    rw [h.cancelled hs]
    split
    · exact Action.mirrorsUpTo_bind (h.cancelledLeaf key) fun _ _ ha =>
        Action.mirrorsUpTo_pure (congrArg Finding.described ha)
    · exact h.inquire key r
  · exact Action.mirrorsUpTo_pure (congrArg Finding.described hf)

/-- Trying a type goes alike in both runs, if what follows does. -/
theorem tryOther (key : MethodKey) (r other : Resolved)
    {next : Action (State σ) Analysis} {next' : Action (State τ) Analysis}
    (hnext : MirrorsUpTo (Except.map see) R next next') :
    MirrorsUpTo (Except.map see) R (t.tryOther key r other next)
      (u.tryOther key r other next') := by
  have hattempt : MirrorsUpTo
      (Except.map (Except.map (Finding.seen see))) R
      (attempt (t.find ⟨other.defining, key.methodName⟩ other))
      (attempt (u.find ⟨other.defining, key.methodName⟩ other)) := by
    intro s s' hs
    obtain ⟨hvalue, hstate⟩ := h.find _ other s s' hs
    exact ⟨congrArg Except.ok hvalue, hstate⟩
  refine Action.mirrorsUpTo_bind hattempt fun found found' hf => ?_
  rcases found with e | a | suggestions <;>
    rcases found' with e' | a' | suggestions' <;>
    simp only [Except.map, Finding.seen, reduceCtorEq, Except.error.injEq,
      Except.ok.injEq, Finding.described.injEq] at hf
  · subst hf
    cases e with
    | unresolved missing => exact Action.mirrorsUpTo_throw _
    | _ =>
      dsimp only
      split
      · exact hnext
      · exact Action.mirrorsUpTo_throw _
  · dsimp only
    rw [h.status hf]
    split
    · have hseen := h.readdressed hf key other.defining
      exact Action.mirrorsUpTo_after (h.filed key _ _ r hseen) fun _ =>
        Action.mirrorsUpTo_pure hseen
    · exact hnext
  · exact hnext

/-- Trying suggestions goes alike in both runs. -/
theorem trySuggestions (key : MethodKey) (r : Resolved)
    (names : List String) : ∀ tried searched,
      MirrorsUpTo (Except.map see) R
        (t.trySuggestions key r tried searched names)
        (u.trySuggestions key r tried searched names) := by
  induction names with
  | nil => exact fun _ _ => Action.mirrorsUpTo_throw _
  | cons name rest ih =>
    intro tried searched
    rw [Tracer.trySuggestions, Tracer.trySuggestions]
    split
    · exact ih _ _
    refine Action.mirrorsUpTo_look fun s s' hs => ?_
    rw [h.cancelled hs]
    split
    · exact h.cancelledLeaf key
    refine Action.mirrorsUpTo_after
      (mirrors_attempt (h.resolve name key.methodName)) fun found => ?_
    rcases found with e | other
    · cases e with
      | unresolved missing => exact ih _ _
      | _ => exact Action.mirrorsUpTo_throw _
    · exact h.tryOther key r other (ih _ _)

/-- A method is described in step. -/
theorem base (key : MethodKey) :
    MirrorsUpTo (Except.map see) R (t.base key) (u.base key) := by
  refine Action.mirrorsUpTo_look fun s s' hs => ?_
  rw [h.cancelled hs]
  split
  · exact h.cancelledLeaf key
  refine Action.mirrorsUpTo_after (h.resolve key.typeName key.methodName)
    fun r => ?_
  refine Action.mirrorsUpTo_bind (h.find key r) fun found found' hf => ?_
  rcases found with a | suggestions <;> rcases found' with a' | suggestions' <;>
    simp only [Finding.seen, reduceCtorEq, Finding.described.injEq,
      Finding.absent.injEq] at hf
  · exact Action.mirrorsUpTo_pure hf
  · subst hf
    rw [h.maxSuggestions]
    exact h.trySuggestions key r _ _ _

omit h in
/-- Two runs that hear, use the cache and look alike describe a method in
step, in every respect. -/
theorem of_alike (hears : HearsAlike t u R) (caches : CachesAlike t u R)
    (looked : ∀ name, Mirrors R (t.lookup name) (u.lookup name))
    (maxSuggestions : t.maxSuggestions = u.maxSuggestions)
    (hierarchyDepth : t.hierarchyDepth = u.hierarchyDepth)
    (cancelled : ∀ {s s'}, R s s' →
      s.session.cancelled = s'.session.cancelled)
    (timeOfDay : ∀ {s s'}, R s s' → s.timeOfDay = s'.timeOfDay) :
    InStep t u id R where
  maxSuggestions := maxSuggestions
  hierarchyDepth := hierarchyDepth
  looked := looked
  asked := hears.ask
  consulted key fingerprint s s' hs := by
    obtain ⟨hvalue, hstate⟩ := caches.cached key fingerprint s s' hs
    exact ⟨congrArg _ hvalue, hstate⟩
  filed key a a' r ha := by
    obtain rfl : a = a' := ha
    exact caches.file key a r
  timed hs₀ hs := by
    rw [hears.now hs, hears.now hs₀]
    exact caches.recordTime _
  cancelled := cancelled
  left hs key status reason := by rw [timeOfDay hs]
  described hs key r reply := by rw [timeOfDay hs]
  status ha := congrArg Analysis.status ha
  readdressed ha _ _ := congrArg (Tracer.readdress _ · _) ha

omit h in
/-- In step in every respect, the descriptions are the same. -/
theorem mirrors_base (h : InStep t u id R) (key : MethodKey) :
    Mirrors R (t.base key) (u.base key) := by
  intro s s' hs
  obtain ⟨hvalue, hstate⟩ := h.base key s s' hs
  simp only [Except.map_id, id] at hvalue
  exact ⟨hvalue, hstate⟩

end InStep

-- ====================================================== a run by itself

/-- A relation that dealing with the cache brings about, whatever the cache
holds and however it fails. -/
structure Storing (R : State σ → State σ → Prop) : Prop where
  refl : ∀ s, R s s
  trans : ∀ s s' s'', R s s' → R s' s'' → R s s''
  stored : ∀ (s : State σ) (store : Cache.Store),
    R s { s with world.store := store }
  hit : ∀ s : State σ, R s { s with session.hits := s.session.hits + 1 }
  missed : ∀ s : State σ,
    R s { s with session.misses := s.session.misses + 1 }

namespace Storing

variable {R : State σ → State σ → Prop} (h : Storing R) (t : Tracer σ)

include h

/-- Taking from the cache brings the relation about. -/
theorem cached (key : MethodKey) (fingerprint : String) :
    (t.cached key fingerprint).Changes R := by
  refine Action.changes_bind h.trans h.refl fun s => ?_
  split
  · refine Action.changes_bind h.trans (fun s => h.stored s _) fun found => ?_
    rcases found with _ | a
    · exact Action.changes_bind h.trans h.missed
        fun _ => Action.changes_pure h.refl _
    · exact Action.changes_bind h.trans h.hit
        fun _ => Action.changes_pure h.refl _
  · exact Action.changes_pure h.refl _

theorem file (key : MethodKey) (a : Analysis) (r : Resolved) :
    (t.file key a r).Changes R := by
  refine Action.changes_bind h.trans h.refl fun s => ?_
  split
  · exact fun s => h.stored s _
  · exact Action.changes_pure h.refl _

theorem recordTime (ms : Double) (s : State σ) :
    R s (t.recordTime ms s).2 := by
  rw [Tracer.recordTime]
  split
  · exact h.stored s _
  · exact h.refl s

/-- After the answer of the oracle there is only the cache to deal with. -/
theorem inquire (key : MethodKey) (r : Resolved) (s : State σ) :
    R (t.ask (Tracer.promptFor key r) key s).2 (t.inquire key r s).2 := by
  rw [Tracer.inquire, Action.bind_ok (Action.get_run s)]
  rcases hr : t.ask (Tracer.promptFor key r) key s with ⟨e | answer, s₁⟩
  · rw [Action.bind_error hr]
    exact h.refl s₁
  rw [Action.bind_ok hr, Action.bind_ok (Action.get_run s₁)]
  rcases Reply.parse r.defining answer with suggestions | blocks | _
  · exact h.refl s₁
  · let a := Tracer.describe key r (.described blocks) s₁.timeOfDay
    let filed : Action (State σ) Finding := do
      t.recordTime ((s₁.now - s.now) * .ofInt 1000)
      t.file key a r
      pure (.described a)
    have hfiled : filed.Changes R :=
      Action.changes_bind h.trans (fun s => h.recordTime t _ s)
        fun _ => Action.changes_bind h.trans (h.file t key a r)
          fun _ => Action.changes_pure h.refl _
    exact hfiled s₁
  · exact h.refl s₁

end Storing

/-- A relation that the pieces of a description bring about, where the
oracle is asked by a run that is not cancelled. -/
structure Wary (t : Tracer σ) (R : State σ → State σ → Prop) : Prop
    extends Storing R where
  looked : ∀ name, (t.lookup name).Changes R
  asked : ∀ prompt key s, s.session.cancelled = false →
    R s (t.ask prompt key s).2

namespace Wary

open Tracer

variable {t : Tracer σ} {R : State σ → State σ → Prop} (h : Wary t R)

include h

theorem resolve (typeName method : String) :
    (Source.resolve t.lookup t.hierarchyDepth typeName method).Changes R :=
  Source.changes_resolve h.refl h.trans h.looked _ _ _

theorem inquire (key : MethodKey) (r : Resolved) {s : State σ}
    (hc : s.session.cancelled = false) : R s (t.inquire key r s).2 :=
  h.trans _ _ _ (h.asked _ key s hc) (h.toStoring.inquire t key r s)

/-- Looking for a method brings the relation about. -/
theorem find (key : MethodKey) (r : Resolved) :
    (t.find key r).Changes R := by
  refine Action.changes_bind h.trans (h.toStoring.cached t key _)
    fun found s => ?_
  cases found with
  | some a => exact h.refl s
  | none =>
    dsimp only
    rw [Action.bind_ok (Action.get_run s)]
    split
    · exact h.refl s
    · rename_i hc
      exact h.inquire key r (by simpa using hc)

/-- So does trying a type, if what follows does. -/
theorem tryOther (key : MethodKey) (r other : Resolved)
    {next : Action (State σ) Analysis} (hnext : next.Changes R) :
    (t.tryOther key r other next).Changes R := by
  have hfind : (attempt (t.find ⟨other.defining, key.methodName⟩
      other)).Changes R := h.find _ other
  refine Action.changes_bind h.trans hfind fun found => ?_
  rcases found with e | a | suggestions
  · cases e with
    | unresolved u => exact Action.changes_throw h.refl _
    | _ =>
      dsimp only
      split
      · exact hnext
      · exact Action.changes_throw h.refl _
  · dsimp only
    split
    · exact Action.changes_bind h.trans (h.toStoring.file t key _ r)
        fun _ => Action.changes_pure h.refl _
    · exact hnext
  · exact hnext

/-- So does trying suggestions. -/
theorem trySuggestions (key : MethodKey) (r : Resolved)
    (names : List String) : ∀ tried searched,
      (t.trySuggestions key r tried searched names).Changes R := by
  induction names with
  | nil => exact fun _ _ => Action.changes_throw h.refl _
  | cons name rest ih =>
    intro tried searched s
    rw [Tracer.trySuggestions]
    split
    · exact ih _ _ s
    rw [Action.bind_ok (Action.get_run s)]
    split
    · exact h.refl s
    have hresolve : (attempt (Source.resolve t.lookup t.hierarchyDepth name
        key.methodName)).Changes R := h.resolve _ _
    refine Action.changes_bind h.trans hresolve (fun found => ?_) s
    rcases found with e | other
    · cases e with
      | unresolved u => exact ih _ _
      | _ => exact Action.changes_throw h.refl _
    · exact h.tryOther key r other (ih _ _)

/-- Describing a method brings the relation about. -/
theorem base (key : MethodKey) : (t.base key).Changes R := by
  intro s
  rw [Tracer.base, Action.bind_ok (Action.get_run s)]
  split
  · exact h.refl s
  refine Action.changes_bind h.trans (h.resolve _ _)
    (fun r => ?_) s
  refine Action.changes_bind h.trans (h.find key r) fun found => ?_
  cases found with
  | described a => exact Action.changes_pure h.refl _
  | absent suggestions => exact h.trySuggestions key r _ _ _

end Wary

/-- A relation that the pieces of a description bring about, whatever the
cache holds and however it fails. -/
structure Describing (t : Tracer σ) (R : State σ → State σ → Prop) : Prop
    extends Heeds t R where
  asked : ∀ prompt key, (t.ask prompt key).Changes R
  stored : ∀ (s : State σ) (store : Cache.Store),
    R s { s with world.store := store }
  hit : ∀ s : State σ, R s { s with session.hits := s.session.hits + 1 }
  missed : ∀ s : State σ,
    R s { s with session.misses := s.session.misses + 1 }

namespace Describing

open Tracer

variable {t : Tracer σ} {R : State σ → State σ → Prop}
  (h : Describing t R)

include h

theorem wary : Wary t R where
  refl := h.refl
  trans := h.trans
  stored := h.stored
  hit := h.hit
  missed := h.missed
  looked name s := h.looked name s
  asked prompt key s _ := h.asked prompt key s

theorem base (key : MethodKey) : (t.base key).Changes R := h.wary.base key

end Describing

end CallTrace.Run
