/-
How a session grows along a tour.

Between two calls the books are tidy: besides being sound, they hold
something registered for exactly those methods that were entered and left,
once for each. A tour keeps them tidy. What it adds can be read off it: the
methods entered, in the order of a walk that comes to a method before the
methods it calls, and the analyses registered, in the order of one that
comes to it after them.

Nothing that is entered or registered is ever taken back, so what is known
at one point of a run stays known, under the same key, to its end.
-/
import CallTrace.Proofs.Run.Sound

namespace CallTrace.Run

open Tracer (closed_stack closed_limits closed_visited closed_registry)

variable {σ : Type}

-- ========================================================= what is added

namespace Tour

/-- The methods entered, in order. -/
def entries : Tour → List MethodKey
  | done => []
  | block _ rest | passed _ rest | leaf _ _ rest => rest.entries
  | failed c _ rest => c.key :: rest.entries
  | entered c _ inside rest => c.key :: (inside.entries ++ rest.entries)

/-- The analyses registered, in order. -/
def registered : Tour → List Analysis
  | done => []
  | block _ rest | passed _ rest | leaf _ _ rest => rest.registered
  | failed _ a rest => a :: rest.registered
  | entered _ b inside rest =>
    inside.registered ++ expanded b inside :: rest.registered

end Tour

-- ========================================================== tidy books

/-- Sound books between two calls: registered is, once each, what was
entered and is under analysis no more. -/
structure Session.Tidy (s : Session) : Prop extends s.Sound where
  registeredOnce : s.registry.keys.Nodup
  visited_of_registered : ∀ key ∈ s.registry.keys, key ∈ s.visited
  stack_unregistered : ∀ f ∈ s.stack, f.key ∉ s.registry.keys

theorem Session.Fresh.tidy {s : Session} (h : s.Fresh) : s.Tidy where
  toSound := h.sound
  registeredOnce := by rw [h.registry]; exact List.nodup_nil
  visited_of_registered key hkey := absurd hkey (by simp [h.registry,
    Trace.Registry.keys])
  stack_unregistered f hf := absurd hf (by simp [h.stack])

namespace Session.Tidy

variable {s s' : Session}

/-- Tidiness depends on the books of the session alone. -/
theorem congr (h : s.Tidy)
    (hlimits : s'.limits = s.limits) (hstack : s'.stack = s.stack)
    (hvisited : s'.visited = s.visited)
    (hregistry : s'.registry = s.registry)
    (hanalyzed : s'.analyzed = s.analyzed) : s'.Tidy where
  toSound := h.toSound.congr hlimits hstack hvisited hregistry hanalyzed
  registeredOnce := by rw [hregistry]; exact h.registeredOnce
  visited_of_registered := by
    rw [hregistry, hvisited]
    exact h.visited_of_registered
  stack_unregistered := by
    rw [hregistry, hstack]
    exact h.stack_unregistered

/-- Entering a method that may be entered keeps the session tidy. -/
theorem enter (h : s.Tidy) {f : Frame} (hnew : Enterable s f.key)
    (hdepth : f.depth = s.stack.length)
    (hshallow : f.depth ≤ s.limits.maxDepth) : (s.enter f).Tidy where
  toSound := h.toSound.enter hnew hdepth hshallow
  registeredOnce := h.registeredOnce
  visited_of_registered key hkey :=
    List.mem_cons_of_mem _ (h.visited_of_registered key hkey)
  stack_unregistered g hg := by
    rcases List.mem_cons.1 hg with rfl | hg
    · exact fun hmem => hnew.fresh (h.visited_of_registered _ hmem)
    · exact h.stack_unregistered g hg

/-- What is registered for the innermost method comes last. -/
theorem register_top (h : s.Tidy) {f : Frame} {rest : List Frame}
    (hstack : s.stack = f :: rest) {a : Analysis} (hkey : a.key = f.key) :
    s.registry.register a = s.registry ++ [a] := by
  refine Trace.Registry.register_of_not_mem ?_
  rw [hkey]
  exact h.stack_unregistered f (hstack ▸ List.mem_cons_self ..)

/-- Registering what has come of the innermost method and leaving it keeps
the books tidy. -/
theorem close (h : s.Tidy) {f : Frame} {rest : List Frame}
    (hstack : s.stack = f :: rest) {a : Analysis} (hkey : a.key = f.key) :
    (s.register a).pop.Tidy := by
  have hreg : (s.register a).registry = s.registry ++ [a] :=
    h.register_top hstack hkey
  have hkeys : (s.register a).registry.keys = s.registry.keys ++ [a.key] := by
    rw [hreg]
    exact List.map_append
  have htop := h.stack_unregistered f (hstack ▸ List.mem_cons_self ..)
  have hpop : (s.register a).pop.stack = rest := congrArg List.tail hstack
  constructor
  case toSound =>
    refine (h.toSound.register a).pop hstack ?_
    rw [hkeys, hkey]
    simp
  case registeredOnce =>
    show (s.register a).registry.keys.Nodup
    rw [hkeys]
    refine List.nodup_append.2 ⟨h.registeredOnce, by simp, ?_⟩
    intro k hk k' hk'
    rw [List.mem_singleton.1 hk', hkey]
    rintro rfl
    exact htop hk
  case visited_of_registered =>
    show ∀ key ∈ (s.register a).registry.keys, key ∈ s.visited
    rw [hkeys]
    intro key hmem
    rcases List.mem_append.1 hmem with hmem | hmem
    · exact h.visited_of_registered key hmem
    · rw [List.mem_singleton.1 hmem, hkey]
      exact h.stackVisited f (hstack ▸ List.mem_cons_self ..)
  case stack_unregistered =>
    rw [hpop]
    show ∀ g ∈ rest, g.key ∉ (s.register a).registry.keys
    rw [hkeys]
    intro g hg hmem
    rcases List.mem_append.1 hmem with hmem | hmem
    · exact h.stack_unregistered g (hstack ▸ List.mem_cons_of_mem _ hg) hmem
    · have hnodup := h.stackDistinct
      rw [hstack, List.map_cons, List.nodup_cons] at hnodup
      rw [List.mem_singleton, hkey] at hmem
      exact hnodup.1 (hmem ▸ List.mem_map_of_mem hg)

end Session.Tidy

-- ======================================================== between calls

/-- The session is between two calls of a method at a depth, with `levels`
levels left: its books are tidy, and the methods under analysis are those
at this depth and above it. -/
structure Resting (levels : Nat) (depth : Int) (s : Session) : Prop
    extends s.Tidy where
  height : (s.stack.length : Int) = depth + 1
  levels : levels + depth = s.limits.maxDepth

section

variable {t : Tracer σ} {levels n : Nat} {depth : Int} {c : CallSite}
  {s s₁ : State σ}

/-- Once a method is entered and described, its own calls come next. -/
theorem Resting.inside (hs : Resting (levels + 1) depth s.session)
    (hnew : Enterable s.session c.key)
    (hm : Moves t n (t.opened (frameOf c depth) s) s₁) :
    Resting levels (depth + 1) s₁.session where
  toTidy := (hs.toTidy.enter (f := frameOf c depth) hnew hs.height.symm
    (by
      have := hs.levels
      show depth + 1 ≤ _
      omega)).congr hm.limits hm.stack hm.visited hm.registry hm.analyzed
  height := by
    have := hs.height
    rw [hm.stack, Tracer.opened_stack, List.length_cons]
    omega
  levels := by
    have := hs.levels
    rw [hm.limits, Tracer.opened_limits]
    omega

/-- What is registered for the method that is left comes last. -/
theorem Resting.registry_closed (hs : Resting levels (depth + 1) s.session)
    {rest : List Frame} (hstack : s.session.stack = frameOf c depth :: rest)
    {a : Analysis} (ha : a.key = c.key) (told : Bool) :
    (t.closed (frameOf c depth) a told s).session.registry =
      s.session.registry ++ [a] := by
  rw [closed_registry]
  exact hs.toTidy.register_top hstack ha

/-- Once the method is left, the call after it comes next. -/
theorem Resting.outside (hs : Resting levels (depth + 1) s.session)
    {rest : List Frame} (hstack : s.session.stack = frameOf c depth :: rest)
    {a : Analysis} (ha : a.key = c.key) (told : Bool) :
    Resting (levels + 1) depth
      (t.closed (frameOf c depth) a told s).session where
  toTidy := (hs.toTidy.close hstack ha).congr (closed_limits ..)
    (closed_stack ..) (closed_visited ..) (closed_registry ..)
    (Tracer.closed_analyzed ..)
  height := by
    have := hs.height
    rw [hstack, List.length_cons] at this
    rw [closed_stack, hstack, List.tail_cons]
    omega
  levels := by
    have := hs.levels
    rw [closed_limits]
    omega

end

/-- What a tour leaves as it is, and what it adds. -/
structure Grown (T : Tour) (s s' : Session) : Prop where
  limits : s'.limits = s.limits
  stack : s'.stack = s.stack
  visited : s'.visited = T.entries.reverse ++ s.visited
  registry : s'.registry = s.registry ++ T.registered

/-- A tour comes to rest where it started, and what it has registered and
visited is added to the session. -/
theorem Toured.grown {t : Tracer σ} {levels : Nat} {depth : Int}
    {cs : List CallSite} {bs : List Block} {s s' : State σ} {T : Tour}
    (h : Toured t levels depth cs bs s T s')
    (hs : Resting levels depth s.session) :
    Resting levels depth s'.session ∧ Grown T s.session s'.session := by
  induction h with
  | done => exact ⟨hs, rfl, rfl, rfl, by simp [Tour.registered]⟩
  | block _ ih =>
    obtain ⟨hs', hg⟩ := ih hs
    exact ⟨hs', hg.limits, hg.stack, hg.visited, hg.registry⟩
  | passed _ _ ih =>
    obtain ⟨hs', hg⟩ := ih hs
    exact ⟨hs', hg.limits, hg.stack, hg.visited, hg.registry⟩
  | leaf _ _ _ _ ih =>
    obtain ⟨hs', hg⟩ := ih hs
    exact ⟨hs', hg.limits, hg.stack, hg.visited, hg.registry⟩
  | @failed levels depth c cs bs s s₁ s' T a n told hc hlive hnew hm hn ha _ ih =>
    have hs₁ := hs.inside hnew hm
    obtain ⟨hs', hg⟩ := ih (hs₁.outside hm.stack ha.key told)
    refine ⟨hs', ?_, ?_, ?_, ?_⟩
    · rw [hg.limits, closed_limits, hm.limits]
      rfl
    · rw [hg.stack, closed_stack, hm.stack]
      rfl
    · rw [hg.visited, closed_visited, hm.visited, Tracer.opened_visited,
        Tour.entries, List.reverse_cons, List.append_assoc]
      rfl
    · rw [hg.registry, hs₁.registry_closed hm.stack ha.key, hm.registry,
        Tracer.opened_registry, Tour.registered, List.append_assoc]
      rfl
  | @entered levels depth c cs bs s s₁ s₂ s' I T b n hc hlive hnew hm hn hb _ _
      ihI ih =>
    have hs₁ := hs.inside hnew hm
    obtain ⟨hs₂, hI⟩ := ihI hs₁
    have hkey := key_expanded hb I
    have hstack₂ := hI.stack.trans hm.stack
    obtain ⟨hs', hg⟩ := ih (hs₂.outside hstack₂ hkey true)
    refine ⟨hs', ?_, ?_, ?_, ?_⟩
    · rw [hg.limits, closed_limits, hI.limits, hm.limits]
      rfl
    · rw [hg.stack, closed_stack, hstack₂]
      rfl
    · rw [hg.visited, closed_visited, hI.visited, hm.visited,
        Tracer.opened_visited, Tour.entries]
      simp [frameOf]
    · rw [hg.registry, hs₂.registry_closed hstack₂ hkey, hI.registry,
        hm.registry, Tracer.opened_registry, Tour.registered]
      simp

-- ================================================================ runs

namespace Tracer

@[simp] theorem concluded_registry (r : Outcome) (s : State σ) :
    (concluded r s).session.registry = s.session.registry := by
  cases r <;> rfl

/-- A run from `s` tours the call that stands for its root by way of `T`,
which comes to `a` and ends in `s'`. -/
structure Surveyed (t : Tracer σ) (s : State σ) (T : Tour) (a : Analysis)
    (s' : State σ) : Prop where
  course : Course t (s.session.limits.maxDepth + 1) (-1)
    [rootCall s.session.root] [] s T s'
  toured : Toured t (s.session.limits.maxDepth + 1) (-1)
    [rootCall s.session.root] [] s T s'
  start : Resting (s.session.limits.maxDepth + 1) (-1) s.session
  rest : Resting (s.session.limits.maxDepth + 1) (-1) s'.session
  starts : Starts (rootCall s.session.root) a .done T
  gives : Gives s.session.root (t.run s).1 s' a
  ended : (t.run s).2 = concluded (t.run s).1 s'
  stack : s'.session.stack = []
  registry : (t.run s).2.session.registry = T.registered
  visited : (t.run s).2.session.visited = T.entries.reverse

/-- A run from a fresh session has a tour, and ends as that tour does. -/
theorem run_surveyed (t : Tracer σ) {s : State σ} (hfresh : s.session.Fresh)
    (hstore : s.world.store.Obeys Cache.bareRule) :
    ∃ T a s', t.Surveyed s T a s' := by
  obtain ⟨T, a, s', hcourse, hstarts, hgives, hend⟩ := t.run_course s
  obtain ⟨htoured, -⟩ := hcourse.toured hstore
  have hs : Resting (s.session.limits.maxDepth + 1) (-1) s.session :=
    ⟨hfresh.tidy, by rw [hfresh.stack]; rfl, by omega⟩
  obtain ⟨hs', hg⟩ := htoured.grown hs
  refine ⟨T, a, s', hcourse, htoured, hs, hs', hstarts, hgives, hend, ?_, ?_,
    ?_⟩
  · rw [hg.stack, hfresh.stack]
  · rw [hend, concluded_registry, hg.registry, hfresh.registry,
      List.nil_append]
  · have hvisited : s'.session.visited = T.entries.reverse := by
      rw [hg.visited, hfresh.visited, List.append_nil]
    rw [hend]
    cases (t.run s).1 <;> exact hvisited

end Tracer

end CallTrace.Run
