/-
A run that must not use the cache.

The limits of a run say whether it may use the cache. If it may not, it
neither looks an analysis up nor files one: all it notes in the store is how
long an answer took. So the store may be exchanged for any other over the
same files, and the run goes abreast of itself over the other one: it asks
the same, tells the same and finds the same, and both stores stay as they
were but for the times noted.
-/
import CallTrace.Proofs.Run.Abreast
import CallTrace.Proofs.Run.InStep

namespace CallTrace

variable {σ : Type}

-- ============================================================== stores

namespace Cache.Store

/-- The store without the times noted in it. -/
def untimed (s : Store) : Store :=
  { s with session.timed := .zero, session.timings := 0 }

theorem files_of_untimed {s s' : Store} (h : s.untimed = s'.untimed) :
    s.files = s'.files := by
  have hfiles := congrArg Store.files h
  exact hfiles

end Cache.Store

namespace Run

open Cache (Store)
open Number (Double)

-- ============================================================ off

/-- The run may not use the cache, and its store is, but for the times, as
it was found. -/
structure Uncached (found : Store) (s : State σ) : Prop where
  off : s.session.limits.useCache = false
  kept : s.world.store.untimed = found.untimed

/-- The second run is the first one over another store. Neither may use the
cache, and both stores are as they were found. -/
structure Aside (found found' : Store) (s s' : State σ) : Prop where
  uncached : Uncached found s
  exchanged : ∃ store, store.untimed = found'.untimed ∧
    s' = { s with world.store := store }

section

variable {found found' : Store} {s s' : State σ} (t : Tracer σ)

/-- What leaves the limits and the store alone can be done in both. -/
theorem Aside.both (h : Aside found found' s s') (f : State σ → State σ)
    (hlimits : (f s).session.limits = s.session.limits)
    (hstore : (f s).world.store = s.world.store)
    (hf : ∀ store, f { s with world.store := store } =
      { f s with world.store := store }) :
    Aside found found' (f s) (f s') := by
  obtain ⟨⟨hoff, hkept⟩, store, hstore', rfl⟩ := h
  exact ⟨⟨hlimits ▸ hoff, hstore ▸ hkept⟩, store, hstore', hf store⟩

theorem Aside.recordTime (h : Aside found found' s s') (ms : Double) :
    Aside found found' (t.recordTime ms s).2 (t.recordTime ms s').2 := by
  obtain ⟨⟨hoff, hkept⟩, store, hstore, rfl⟩ := h
  rw [Tracer.recordTime]
  split
  · exact ⟨⟨hoff, hkept⟩, store.recordTime ms, hstore, rfl⟩
  · exact ⟨⟨hoff, hkept⟩, store, hstore, rfl⟩

theorem Uncached.cached (h : Uncached found s) (key : MethodKey)
    (fingerprint : String) :
    t.cached key fingerprint s = (.ok none, s) := by
  rw [Tracer.cached, Action.bind_ok (Action.get_run s),
    if_neg (by simp [Tracer.usesCache, h.off])]
  rfl

theorem Uncached.file (h : Uncached found s) (key : MethodKey)
    (a : Analysis) (r : Source.Resolved) :
    t.file key a r s = (.ok (), s) := by
  rw [Tracer.file, Action.bind_ok (Action.get_run s),
    if_neg (by simp [Tracer.usesCache, h.off])]
  rfl

theorem Aside.other (h : Aside found found' s s') : Uncached found' s' := by
  obtain ⟨⟨hoff, -⟩, store, hstore, rfl⟩ := h
  exact ⟨hoff, hstore⟩

variable (hfiles : found.files = found'.files)

/-- A run that may not use the cache hears the same over any store. -/
theorem hearsAlike_aside :
    HearsAlike t t (Aside (σ := σ) found found') where
  now := by
    rintro s _ ⟨-, store, -, rfl⟩
    rfl
  depth := by
    rintro s _ ⟨-, store, -, rfl⟩
    rfl
  timeout := by
    rintro s _ ⟨-, store, -, rfl⟩
    rfl
  counted h := h.both (fun s =>
    { s with session.oracleCalls := s.session.oracleCalls + 1 }) rfl rfl
      fun _ => rfl
  answered {s s'} h prompt := by
    have hheard := h.both (fun s => s.heard (t.answerTo s.session.identity
      prompt s.world.outside)) rfl rfl fun _ => rfl
    refine ⟨?_, hheard⟩
    obtain ⟨store, -, rfl⟩ := h.exchanged
    rfl
  told e s s' h := ⟨rfl, h.both (fun s =>
    s.heard (t.inform e s.world.outside)) rfl rfl fun _ => rfl⟩
  slept h now := h.both (·.setNow now) rfl rfl fun _ => rfl

include hfiles in
/-- It describes every method alike over any store. -/
theorem inStep_aside : InStep t t id (Aside (σ := σ) found found') where
  maxSuggestions := rfl
  hierarchyDepth := rfl
  looked name s s' h := by
    obtain ⟨⟨hoff, hkept⟩, store, hstore, rfl⟩ := h
    have hsame : store.files = s.world.store.files :=
      (Store.files_of_untimed hstore).trans
        (hfiles.symm.trans (Store.files_of_untimed hkept).symm)
    have hlook : t.lookup name { s with world.store := store } =
        ((t.lookup name s).1,
          { (t.lookup name s).2 with world.store := store }) := by
      simp only [Tracer.lookup, hsame]
      rfl
    rw [hlook]
    exact ⟨rfl, ⟨hoff, hkept⟩, store, hstore, rfl⟩
  asked := (hearsAlike_aside t).ask
  consulted key fingerprint s s' h := by
    rw [h.uncached.cached, h.other.cached]
    exact ⟨rfl, h⟩
  filed key a a' r _ s s' h := by
    rw [h.uncached.file, h.other.file]
    exact ⟨rfl, h⟩
  timed h₀ h s s' hs := by
    rw [(hearsAlike_aside t).now h, (hearsAlike_aside t).now h₀]
    exact ⟨rfl, hs.recordTime t _⟩
  cancelled := by
    rintro s _ ⟨-, store, -, rfl⟩
    rfl
  left := by
    rintro s _ ⟨-, store, -, rfl⟩ key status reason
    rfl
  described := by
    rintro s _ ⟨-, store, -, rfl⟩ key r reply
    rfl
  status ha := congrArg Analysis.status ha
  readdressed ha _ _ := congrArg (Tracer.readdress _ · _) ha

include hfiles in
/-- It goes abreast of itself over any store. -/
theorem abreast_aside : Abreast t t (Aside (σ := σ) found found') where
  session := by
    rintro s _ ⟨-, store, -, rfl⟩
    rfl
  timeOfDay := by
    rintro s _ ⟨-, store, -, rfl⟩
    rfl
  changed {g} hg := mirrors_modify fun s _ h =>
    h.both (fun s => { s with session := g s.session }) (hg _) rfl
      fun _ => rfl
  told := (hearsAlike_aside t).told
  described := (inStep_aside t hfiles).mirrors_base

end

-- ============================================================= summary

/-- A run that may not use the cache leaves the store as it was but for the
times noted, and would do the same over any other store with the same files,
which it would leave so too. -/
theorem Tracer.run_uncached (t : Tracer σ) {s : State σ}
    (h : s.session.limits.useCache = false) :
    (t.run s).2.world.store.untimed = s.world.store.untimed ∧
    ∀ store, store.files = s.world.store.files →
      ∃ store', store'.untimed = store.untimed ∧
        t.run { s with world.store := store } =
          ((t.run s).1, { (t.run s).2 with world.store := store' }) := by
  have hrun : ∀ store, store.files = s.world.store.files →
      (t.run s).1 = (t.run { s with world.store := store }).1 ∧
        Aside s.world.store store (t.run s).2
          (t.run { s with world.store := store }).2 :=
    fun store hfiles => (abreast_aside t hfiles.symm).run s _
      ⟨⟨h, rfl⟩, store, rfl, rfl⟩
  refine ⟨(hrun _ rfl).2.uncached.kept, fun store hfiles => ?_⟩
  obtain ⟨hvalue, -, store', hkept, hstate⟩ := hrun store hfiles
  exact ⟨store', hkept, Prod.ext hvalue.symm hstate⟩

end Run

end CallTrace
