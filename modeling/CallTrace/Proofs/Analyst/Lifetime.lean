/-
The session tier over the life of an analyst.

An analyst is made once and then meets requests, commands about the cache
and changes of the model, while time goes by and things change outside.
Whatever it meets, the session tier is the one it was made with, and the
tier keeps its own limits at every point of a run and between runs.

Which limits these are is another matter. A tier that is still empty is
replaced when the analyst is made, so the tier has the usual limits,
whatever the settings say.
-/
import CallTrace.Analyst
import CallTrace.Proofs.Run.Deeds
import CallTrace.Proofs.Run.Sound

namespace CallTrace

open Cache (SessionTier Store)
open Number (Double)
open Run (Deeds Filing Surroundings World cachingLimits)

variable {σ : Type}

-- ============================================================== stores

namespace Run

/-- The capacity of a session tier, unless something else is said. -/
def usualCapacity : Int := 100

/-- How long a session tier serves an analysis, unless something else is
said, in seconds. -/
def usualAge : Double := .ofInt 300

/-- There is no durable tier, and the session tier has the usual limits
and holds only what was logged when it was set. -/
structure Usual (log : List Filing) (s : Store) : Prop where
  undurable : s.durable = none
  session : s.session.Bounded usualCapacity usualAge
    fun key a time => ⟨key, a, time⟩ ∈ log

namespace Usual

variable {log more : List Filing} {s : Store} {key : MethodKey}
  {a : Analysis}

theorem mono (h : Usual log s) (hlog : log ⊆ more) : Usual more s :=
  ⟨h.undurable, h.session.mono fun _ _ _ he => hlog he⟩

/-- A lookup goes to the session tier only. -/
theorem lookup_run (h : Usual log s) (clock : Clock) (key : MethodKey)
    (f i : String) :
    Store.lookup clock key f i s =
      (.ok (s.session.get clock.elapsed key (some f) (some i)).1,
        { s with session :=
          (s.session.get clock.elapsed key (some f) (some i)).2 }) := by
  rcases hg : s.session.get clock.elapsed key (some f) (some i) with
    ⟨found, tier⟩
  have hsession : Store.onSession (·.get clock.elapsed key (some f)
      (some i)) s = (.ok found, { s with session := tier }) := by
    rw [Store.onSession, hg]
  rw [Store.lookup, Action.bind_ok hsession]
  rcases found with _ | a
  · have hundurable : { s with session := tier }.durable = none :=
      h.undurable
    exact Action.bind_ok (Store.onShelf_undurable hundurable)
  · rfl

theorem lookup (h : Usual log s) (clock : Clock) (key : MethodKey)
    (f i : String) : Usual log (Store.lookup clock key f i s).2 := by
  rw [h.lookup_run]
  exact ⟨h.undurable, h.session.get _ _ _ _⟩

/-- Filing sets an analysis in the session tier only, if that succeeds. -/
theorem store (h : Usual log s) (clock : Clock) (key : MethodKey)
    (a : Analysis) (f i path : String) :
    Usual (⟨key, a, clock.elapsed⟩ :: log)
      (Store.store clock key a f i path s).2 := by
  have hmore : Usual (⟨key, a, clock.elapsed⟩ :: log) s :=
    h.mono (List.subset_cons_self _ _)
  rw [Store.store]
  rcases hh : Store.hold clock key a f i s with ⟨e | u, s'⟩
  · rw [Action.bind_error hh]
    exact Store.hold_error hh ▸ hmore
  · obtain ⟨tier, hset, rfl⟩ := Store.hold_cases hh
    have hundurable : { s with session := tier }.durable = none :=
      h.undurable
    rw [Action.bind_ok hh, Store.onShelf_undurable hundurable]
    exact ⟨h.undurable, hmore.session.set (List.mem_cons_self ..) hset⟩

/-- A store that is cleared is still as usual. -/
theorem clear (h : Usual log s) (clock : Clock) :
    Usual log (Store.clear clock s).2 := by
  have hundurable : { s with session := s.session.clear }.durable = none :=
    h.undurable
  have hrun : Store.clear clock s =
      (.ok (), { s with session := s.session.clear }) :=
    (Action.bind_ok rfl).trans (Store.onShelf_undurable hundurable)
  rw [hrun]
  exact ⟨h.undurable, h.session.clear⟩

/-- So is one from which entries are dropped. -/
theorem invalidate (h : Usual log s) (clock : Clock) (typeName : String)
    (methodName : Option String) :
    Usual log (Store.invalidate clock typeName methodName s).2 := by
  let tier := (s.session.invalidate typeName methodName).2
  have hundurable : { s with session := tier }.durable = none := h.undurable
  have hsession : Store.onSession (·.invalidate typeName methodName) s =
      (.ok (s.session.invalidate typeName methodName).1,
        { s with session := tier }) := rfl
  have hrun : (Store.invalidate clock typeName methodName s).2 =
      { s with session := tier } := by
    rw [Store.invalidate, Action.bind_ok hsession,
      Action.bind_ok (Store.onShelf_undurable hundurable)]
    rfl
  rw [hrun]
  exact ⟨h.undurable, h.session.keep _⟩

/-- A run keeps the session tier within the usual limits, and what it
files is logged. -/
theorem deeds {t : Tracer σ} {identity : String} {w w' : World σ}
    (h : Usual log w.store) (hd : Deeds t identity w more w') :
    Usual (more ++ log) w'.store := by
  induction hd with
  | none => exact h
  | met _ _ ih | slept _ _ ih => exact ih
  | consulted _ key f _ ih => exact ih.lookup _ _ _ _
  | timed _ ms ih => exact ⟨ih.undurable, { ih.session with }⟩
  | described _ _ _ _ _ _ ih | adopted _ _ _ _ _ ih =>
    exact ih.store _ _ _ _ _ _

/-- What is served was set, and not too long ago. -/
theorem served (h : Usual log s) {clock : Clock}
    (hserved : s.peek clock key = some a ∨ ∃ f i,
      (Store.lookup clock key f i s).1 = .ok (some a)) :
    ∃ e ∈ log, e.key = key ∧ e.analysis = a ∧
      usualAge.lt (clock.elapsed - e.time) = false := by
  have hentry : ∃ e, s.session.entries.get? key = some e ∧
      e.analysis = a ∧ s.session.expired clock.elapsed e = false := by
    rcases hserved with hpeek | ⟨f, i, hlookup⟩
    · obtain ⟨e, he, rfl⟩ := Option.map_eq_some_iff.1 hpeek
      obtain ⟨he, hfresh⟩ := Option.filter_eq_some_iff.1 he
      exact ⟨e, he, rfl, by simpa using hfresh⟩
    · rw [h.lookup_run] at hlookup
      obtain ⟨e, he, ha, hfresh, -⟩ :=
        SessionTier.get_cases (Except.ok.inj hlookup)
      exact ⟨e, he, ha, hfresh⟩
  obtain ⟨e, he, rfl, hfresh⟩ := hentry
  rw [SessionTier.expired, h.session.ttl] at hfresh
  exact ⟨_, h.session.dated _ (Cache.Table.mem_of_get? he), rfl, rfl,
    hfresh⟩

end Usual

end Run

namespace Analyst

-- ============================================================ lifetime

/-- What an analyst can meet: from `a₀` on it came to be `a`. What its runs
filed is logged, the last one first. -/
inductive Lived (around : Surroundings σ) (a₀ : Analyst σ) :
    List Filing → Analyst σ → Prop where
  | created : Lived around a₀ [] a₀
  | traced {log more : List Filing} {a : Analyst σ}
      (h : Lived around a₀ log a) (name : String) (key : MethodKey)
      (limits : Limits)
      (hdeeds : Deeds (tracer a.settings around)
        (a.sessionFor key limits).identity a.world more
        (trace around name key limits a).2.world) :
    Lived around a₀ (more ++ log) (trace around name key limits a).2
  | cleared {log : List Filing} {a : Analyst σ}
      (h : Lived around a₀ log a) (typeName methodName : Option String) :
    Lived around a₀ log (clearCache typeName methodName a).2
  | shown {log : List Filing} {a : Analyst σ}
      (h : Lived around a₀ log a) : Lived around a₀ log (cacheStats a).2
  | selected {log : List Filing} {a : Analyst σ}
      (h : Lived around a₀ log a) (model : String) :
    Lived around a₀ log (selectModel model a).2
  | waited {log : List Filing} {a : Analyst σ}
      (h : Lived around a₀ log a) (seconds : Double) :
    Lived around a₀ log
      { a with world.clock := a.world.clock.advance seconds }
  | changed {log : List Filing} {a : Analyst σ}
      (h : Lived around a₀ log a) (files : Files.Tree) (outside : σ) :
    Lived around a₀ log
      { a with
        world.store.files := files
        world.outside := outside }

/-- Tracing a method does to the world what the run does. -/
theorem trace_deeds (around : Surroundings σ) (name : String)
    (key : MethodKey) (limits : Limits) (a : Analyst σ) :
    ∃ log, Deeds (tracer a.settings around)
      (a.sessionFor key limits).identity a.world log
      (trace around name key limits a).2.world :=
  (tracer a.settings around).run_deeds ⟨a.sessionFor key limits, a.world⟩

/-- The tier that an analyst is made with is empty, and so has the usual
limits. -/
theorem usual_create {s : Settings} (hs : s.useDurable = false)
    (workspace : String) (clock : Clock) (files : Files.Tree)
    (outside : σ) :
    Run.Usual [] (create s workspace clock files outside).world.store where
  undurable := by simp [create, Store.over, Settings.durableTier?, hs]
  session :=
    { maxEntries := rfl
      ttl := rfl
      size := Int.natCast_nonneg 100
      dated := fun e he => absurd he List.not_mem_nil }

/-- Clearing the cache does to the store what the store offers. -/
theorem store_clearCache (typeName methodName : Option String)
    (a : Analyst σ) :
    (clearCache typeName methodName a).2.world.store =
      match typeName with
      | none => (Store.clear a.world.clock a.world.store).2
      | some t =>
        (Store.invalidate a.world.clock t methodName a.world.store).2 := by
  cases typeName with
  | none =>
    rcases hr : Store.clear a.world.clock a.world.store with ⟨e | u, s⟩
    all_goals
      simp [clearCache, onStore, hr, bind, ExceptT.bind, ExceptT.bindCont,
        ExceptT.mk, StateT.bind]
      rfl
  | some t => rfl

/-- Showing what is told about the cache changes nothing. -/
theorem cacheStats_run (a : Analyst σ) : (cacheStats a).2 = a := by
  have hlook : ∀ f : Analyst σ → Service σ Json, (get >>= f) a = f a a :=
    fun _ => rfl
  rw [cacheStats, hlook]
  cases a.world.store.stats <;> rfl

/-- The session tier of an analyst without a durable tier has the usual
limits in the whole of its life. -/
theorem Lived.usual {around : Surroundings σ} {a₀ a : Analyst σ}
    {log : List Filing} (h : Lived around a₀ log a)
    (h₀ : Run.Usual [] a₀.world.store) : Run.Usual log a.world.store := by
  induction h with
  | created => exact h₀
  | traced _ name key limits hdeeds ih => exact ih.deeds hdeeds
  | cleared _ typeName methodName ih =>
    rw [store_clearCache]
    cases typeName with
    | none => exact ih.clear _
    | some t => exact ih.invalidate _ t methodName
  | @shown log a _ ih =>
    rw [cacheStats_run]
    exact ih
  | selected _ _ ih | waited _ _ ih => exact ih
  | changed _ _ _ ih => exact ⟨ih.undurable, ih.session⟩

/-- Without a durable tier the session tier keeps, whatever the settings
say, to the usual capacity and the usual age: at every point that deeds can
lead to from any moment in the life of the analyst, inside a run or between
runs, it holds no more analyses than that, and what it serves was filed no
longer ago than that. What a request does to the world is deeds. -/
theorem lived_session_tier {around : Surroundings σ} {s : Settings}
    (hs : s.useDurable = false) {workspace : String} {clock : Clock}
    {files : Files.Tree} {outside : σ} {log : List Filing} {a : Analyst σ}
    (h : Lived around (create s workspace clock files outside) log a) :
    (∀ name key limits, ∃ more,
      Deeds (tracer a.settings around) (a.sessionFor key limits).identity
        a.world more (trace around name key limits a).2.world) ∧
    ∀ identity more w,
      Deeds (tracer a.settings around) identity a.world more w →
      w.store.session.maxEntries = Run.usualCapacity ∧
      (w.store.session.entries.size : Int) ≤ Run.usualCapacity ∧
      ∀ key x, (w.store.peek w.clock key = some x ∨ ∃ f i,
          (Store.lookup w.clock key f i w.store).1 = .ok (some x)) →
        ∃ e ∈ more ++ log, e.key = key ∧ e.analysis = x ∧
          Run.usualAge.lt (w.clock.elapsed - e.time) = false := by
  have husual := h.usual (usual_create hs workspace clock files outside)
  refine ⟨fun name key limits => trace_deeds around name key limits a,
    fun identity more w hdeeds => ?_⟩
  have hw := husual.deeds hdeeds
  exact ⟨hw.session.maxEntries, hw.session.size,
    fun key x hserved => hw.served hserved⟩

-- ============================================================= a life

private theorem onePlace : (1 : Int) ≤ 1 := Int.le_refl 1

private theorem manyPlaces : (1 : Int) ≤ 1000 := by decide

/-- Settings for a cache of one analysis that is served for one second. -/
def tightSettings : Settings where
  sessionTtl := .ofInt 1
  sessionEntries := 1
  useDurable := false
  sessionEntries_pos := onePlace
  durableEntries_pos := manyPlaces

/-- An analyst with these settings, of a source with two methods. -/
def tightAnalyst : Analyst Unit :=
  create tightSettings "/w" { start := .zero } {} ()

/-- The analyst after it has traced one method that calls the other. -/
def busyAnalyst : Analyst Unit :=
  (trace Run.pairTracer.toSurroundings "s" ⟨"A", "m"⟩ cachingLimits
    tightAnalyst).2

/-- The analyst 100 seconds later. -/
def idleAnalyst : Analyst Unit :=
  { busyAnalyst with
    world.clock := busyAnalyst.world.clock.advance (.ofInt 100) }

theorem lived_idle : ∃ log,
    Lived Run.pairTracer.toSurroundings tightAnalyst log idleAnalyst := by
  obtain ⟨more, hdeeds⟩ := trace_deeds Run.pairTracer.toSurroundings "s"
    ⟨"A", "m"⟩ cachingLimits tightAnalyst
  have hbusy : Lived Run.pairTracer.toSurroundings tightAnalyst (more ++ [])
      busyAnalyst := .traced .created "s" ⟨"A", "m"⟩ cachingLimits hdeeds
  exact ⟨_, hbusy.waited (.ofInt 100)⟩

/-- Over the life of this analyst the tier keeps to its bound, and serves
what was once filed. -/
theorem lived_session_tier_idle :
    tightSettings.useDurable = false ∧
    ∃ log, Lived Run.pairTracer.toSurroundings tightAnalyst log idleAnalyst ∧
      (idleAnalyst.world.store.session.entries.size : Int) ≤ 100 ∧
      ∀ key x, idleAnalyst.world.store.peek idleAnalyst.world.clock key =
          some x → ∃ e ∈ log, e.key = key ∧ e.analysis = x := by
  obtain ⟨log, hlived⟩ := lived_idle
  refine ⟨rfl, log, hlived, ?_⟩
  obtain ⟨-, hlimits⟩ := lived_session_tier (s := tightSettings) rfl hlived
  obtain ⟨-, hsize, hserved⟩ := hlimits "" [] _ .none
  refine ⟨hsize, fun key x hx => ?_⟩
  obtain ⟨e, he, hkey, ha, -⟩ := hserved key x (.inl hx)
  exact ⟨e, he, hkey, ha⟩

/-- What the tier holds after the 100 seconds. -/
theorem held_idle :
    tightSettings.sessionEntries <
      (idleAnalyst.world.store.session.entries.size : Int) ∧
    (idleAnalyst.world.store.session.entries.get?
      ⟨"A", "m"⟩).isSome = true ∧
    (idleAnalyst.world.store.session.entries.get?
      ⟨"A", "m"⟩).all (fun h =>
        !idleAnalyst.world.store.session.expired
          idleAnalyst.world.clock.elapsed h &&
        tightSettings.sessionTtl.lt
          (idleAnalyst.world.clock.elapsed - h.insertedAt)) = true := by
  decide +kernel

/-- The settings allow one analysis for one second. The tier holds two, and
serves one of them after 100 seconds. -/
theorem lived_beyond_settings : ∃ log,
    Lived Run.pairTracer.toSurroundings tightAnalyst log idleAnalyst ∧
    tightSettings.sessionEntries <
      (idleAnalyst.world.store.session.entries.size : Int) ∧
    ∃ h, idleAnalyst.world.store.session.entries.get? ⟨"A", "m"⟩ = some h ∧
      idleAnalyst.world.store.peek idleAnalyst.world.clock ⟨"A", "m"⟩ =
        some h.analysis ∧
      tightSettings.sessionTtl.lt
        (idleAnalyst.world.clock.elapsed - h.insertedAt) = true := by
  obtain ⟨log, hlived⟩ := lived_idle
  obtain ⟨hsize, hentry, hage⟩ := held_idle
  obtain ⟨h, hh⟩ := Option.isSome_iff_exists.1 hentry
  rw [hh, Option.all_some, Bool.and_eq_true, Bool.not_eq_true'] at hage
  exact ⟨log, hlived, hsize, h, hh, SessionTier.peek_eq_some hh hage.1,
    hage.2⟩

end Analyst

end CallTrace
