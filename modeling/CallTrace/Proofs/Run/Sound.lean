/-
The bookkeeping of a run at each of its steps.

A run takes steps of a few kinds: it makes a move while it describes a
method, puts a question to the oracle, tells the listener, enters a method,
registers what has come of the innermost one, leaves that one, and at the
end notes that it has finished and puts the walkthrough together. Each
kind has a condition under which a run takes it; a method, for one, is
left only when something is registered for it.

Under these conditions every step keeps the bookkeeping sound, so that a
run that starts with sound books has sound books wherever one looks at it.
That a run takes no other steps is read off its tour.
-/
import CallTrace.Proofs.Run.Reachable
import CallTrace.Proofs.Trace.Registry
import Mathlib.Logic.Relation
import Mathlib.Data.List.Chain

namespace CallTrace.Run

open Cache (bareRule)
open Relation (ReflTransGen)
open Tracer (closed_stack closed_limits)

variable {σ : Type}

-- =============================================================== books

/-- The books of a session are sound: the methods entered are counted, all
different, and within the limit; those under analysis are among them, all
different, at the depths 0, 1, 2 and so on from the outermost one, none
beyond the limit; and for those that are under analysis no more something
is registered under their own key. -/
structure Session.Sound (s : Session) : Prop where
  counted : s.analyzed = s.visited.length
  distinct : s.visited.Nodup
  room : s.analyzed ≤ s.limits.maxMethods
  stackDistinct : (s.stack.map (·.key)).Nodup
  stackVisited : ∀ f ∈ s.stack, f.key ∈ s.visited
  depths : s.stack.reverse.map (·.depth) =
    (List.range s.stack.length).map Int.ofNat
  shallow : ∀ f ∈ s.stack, f.depth ≤ s.limits.maxDepth
  registered : ∀ key ∈ s.visited, s.onStack key = false →
    ∃ a, s.registry.get? key = some a ∧ a.key = key

/-- Nothing has been done yet in the session. -/
structure Session.Fresh (s : Session) : Prop where
  stack : s.stack = []
  visited : s.visited = []
  registry : s.registry = []
  analyzed : s.analyzed = 0
  oracleCalls : s.oracleCalls = 0

/-- The books of a fresh session are sound: there is nothing in them. -/
theorem Session.Fresh.sound {s : Session} (h : s.Fresh) : s.Sound where
  counted := by rw [h.analyzed, h.visited]; rfl
  distinct := by rw [h.visited]; exact List.nodup_nil
  room := by rw [h.analyzed]; exact Nat.zero_le _
  stackDistinct := by rw [h.stack]; exact List.nodup_nil
  stackVisited f hf := absurd hf (by simp [h.stack])
  depths := by rw [h.stack]; rfl
  shallow f hf := absurd hf (by simp [h.stack])
  registered key hk := absurd hk (by simp [h.visited])

namespace Session

theorem onStack_iff {s : Session} {key : MethodKey} :
    s.onStack key = true ↔ ∃ f ∈ s.stack, f.key = key := by
  simp [onStack, List.any_eq_true]

theorem onStack_eq_false_iff {s : Session} {key : MethodKey} :
    s.onStack key = false ↔ ∀ f ∈ s.stack, f.key ≠ key := by
  simp [onStack, List.any_eq_false]

variable {s s' : Session}

/-- Soundness does not depend on the counts of questions and lookups, on
cancellation, or on what was put together. -/
theorem Sound.congr (h : s.Sound)
    (hlimits : s'.limits = s.limits) (hstack : s'.stack = s.stack)
    (hvisited : s'.visited = s.visited)
    (hregistry : s'.registry = s.registry)
    (hanalyzed : s'.analyzed = s.analyzed) : s'.Sound where
  counted := by rw [hanalyzed, hvisited]; exact h.counted
  distinct := by rw [hvisited]; exact h.distinct
  room := by rw [hanalyzed, hlimits]; exact h.room
  stackDistinct := by rw [hstack]; exact h.stackDistinct
  stackVisited := by rw [hstack, hvisited]; exact h.stackVisited
  depths := by rw [hstack]; exact h.depths
  shallow := by rw [hstack, hlimits]; exact h.shallow
  registered := by
    rw [hvisited, hregistry]
    intro key hkey hstack'
    rw [onStack, hstack, ← onStack] at hstack'
    exact h.registered key hkey hstack'

theorem Sound.of_books (h : s.Sound) (hbooks : s'.books = s.books) :
    s'.Sound :=
  h.congr (congrArg Session.limits hbooks :)
    (congrArg Session.stack hbooks :) (congrArg Session.visited hbooks :)
    (congrArg Session.registry hbooks :)
    (congrArg Session.analyzed hbooks :)

/-- Entering a method that may be entered, at the depth that comes next,
keeps the books sound. -/
theorem Sound.enter (h : s.Sound) {f : Frame}
    (hnew : Enterable s f.key) (hdepth : f.depth = s.stack.length)
    (hshallow : f.depth ≤ s.limits.maxDepth) : (s.enter f).Sound where
  counted := congrArg (· + 1) h.counted
  distinct := List.nodup_cons.2 ⟨hnew.fresh, h.distinct⟩
  room := hnew.room
  stackDistinct := by
    refine List.nodup_cons.2 ⟨fun hmem => ?_, h.stackDistinct⟩
    obtain ⟨g, hg, hkey⟩ := List.mem_map.1 hmem
    have hvisited := h.stackVisited g hg
    rw [hkey] at hvisited
    exact hnew.fresh hvisited
  stackVisited g hg := by
    rcases List.mem_cons.1 hg with rfl | hg
    · exact List.mem_cons_self ..
    · exact List.mem_cons_of_mem _ (h.stackVisited g hg)
  depths := by
    show (f :: s.stack).reverse.map (·.depth) =
      (List.range (s.stack.length + 1)).map Int.ofNat
    rw [List.reverse_cons, List.map_append, h.depths, List.range_succ,
      List.map_append, List.map_singleton, hdepth]
    rfl
  shallow g hg := by
    rcases List.mem_cons.1 hg with rfl | hg
    · exact hshallow
    · exact h.shallow g hg
  registered key hkey hstack := by
    rw [onStack_eq_false_iff] at hstack
    rcases List.mem_cons.1 hkey with rfl | hkey
    · exact absurd rfl (hstack f (List.mem_cons_self ..))
    · exact h.registered key hkey (onStack_eq_false_iff.2
        fun g hg => hstack g (List.mem_cons_of_mem _ hg))

/-- So does registering what has come of any method. -/
theorem Sound.register (h : s.Sound) (a : Analysis) :
    (s.register a).Sound where
  counted := h.counted
  distinct := h.distinct
  room := h.room
  stackDistinct := h.stackDistinct
  stackVisited := h.stackVisited
  depths := h.depths
  shallow := h.shallow
  registered key hkey hstack := by
    obtain ⟨b, hb, -⟩ := h.registered key hkey hstack
    have hmem : key ∈ (s.registry.register a).keys := by
      refine Trace.Registry.mem_keys_register ?_
      rw [← Trace.Registry.get?_eq_some_key hb]
      exact List.mem_map_of_mem (Trace.Registry.mem_of_get? hb)
    obtain ⟨c, hc⟩ := Option.ne_none_iff_exists'.1
      (mt Trace.Registry.get?_eq_none_iff.1 (not_not.2 hmem))
    exact ⟨c, hc, Trace.Registry.get?_eq_some_key hc⟩

/-- Leaving the innermost method keeps the books sound when something is
registered for it. -/
theorem Sound.pop (h : s.Sound) {f : Frame} {rest : List Frame}
    (hstack : s.stack = f :: rest) (hf : f.key ∈ s.registry.keys) :
    s.pop.Sound := by
  have hpop : s.pop.stack = rest := congrArg List.tail hstack
  have hsub : ∀ g ∈ rest, g ∈ s.stack := fun g hg =>
    hstack ▸ List.mem_cons_of_mem f hg
  constructor
  case counted => exact h.counted
  case distinct => exact h.distinct
  case room => exact h.room
  case stackDistinct =>
    have hnodup := h.stackDistinct
    rw [hstack, List.map_cons, List.nodup_cons] at hnodup
    rw [hpop]
    exact hnodup.2
  case stackVisited =>
    rw [hpop]
    exact fun g hg => h.stackVisited g (hsub g hg)
  case depths =>
    have hdepths := h.depths
    rw [hstack, List.reverse_cons, List.map_append, List.length_cons,
      List.range_succ, List.map_append] at hdepths
    rw [hpop]
    exact (List.append_inj' hdepths rfl).1
  case shallow =>
    rw [hpop]
    exact fun g hg => h.shallow g (hsub g hg)
  case registered =>
    intro key hkey hfree
    rw [onStack_eq_false_iff, hpop] at hfree
    by_cases he : key = f.key
    · rw [he]
      obtain ⟨c, hc⟩ := Option.ne_none_iff_exists'.1
        (mt Trace.Registry.get?_eq_none_iff.1 (not_not.2 hf))
      exact ⟨c, hc, Trace.Registry.get?_eq_some_key hc⟩
    · refine h.registered key hkey (onStack_eq_false_iff.2 ?_)
      rw [hstack]
      intro g hg
      rcases List.mem_cons.1 hg with rfl | hg
      · exact Ne.symm he
      · exact hfree g hg

end Session

-- =============================================================== steps

/-- One step of a run, with the condition under which it is taken. -/
inductive Step (t : Tracer σ) : State σ → State σ → Prop where
  | moved {s s' : State σ} (h : Move t s s') : Step t s s'
  | asked {s s' : State σ} (h : Asking s s') : Step t s s'
  | told (s : State σ) (e : Event) :
    Step t s (s.heard (t.inform e s.world.outside))
  | entered (s : State σ) (f : Frame) (hnew : Enterable s.session f.key)
      (hdepth : f.depth = s.session.stack.length)
      (hshallow : f.depth ≤ s.session.limits.maxDepth) :
    Step t s { s with session := s.session.enter f }
  | registered (s : State σ) (a : Analysis) (f : Frame)
      (hf : s.session.stack.head? = some f) (hkey : a.key = f.key) :
    Step t s { s with session := s.session.register a }
  | left (s : State σ) (f : Frame) (hf : s.session.stack.head? = some f)
      (hdone : f.key ∈ s.session.registry.keys) :
    Step t s { s with session := s.session.pop }
  | finished (s : State σ) :
    Step t s { s with session.finished := true }
  | assembled (s : State σ) (root : Analysis) :
    Step t s { s with
      session.steps := Trace.assemble s.session.registry root }

/-- Every step keeps the books sound. -/
theorem Step.sound {t : Tracer σ} {s s' : State σ} (h : Step t s s')
    (hs : s.session.Sound) : s'.session.Sound := by
  cases h with
  | moved h => exact hs.of_books h.books
  | asked h =>
    cases h
    exact hs.congr rfl rfl rfl rfl rfl
  | told e => exact hs.congr rfl rfl rfl rfl rfl
  | entered f hnew hdepth hshallow => exact hs.enter hnew hdepth hshallow
  | registered a f hf hkey => exact hs.register a
  | left f hf hdone =>
    obtain ⟨rest, hrest⟩ := List.head?_eq_some_iff.1 hf
    exact hs.pop hrest hdone
  | finished => exact hs.congr rfl rfl rfl rfl rfl
  | assembled root => exact hs.congr rfl rfl rfl rfl rfl

-- ================================================== tours are steps

section

variable {t : Tracer σ} {n : Nat} {s s' : State σ}

theorem Moves.steps (h : Moves t n s s') :
    ReflTransGen (Step t) s s' := by
  induction h with
  | refl => exact .refl
  | move _ hm ih => exact ih.tail (.moved hm)
  | ask _ ha ih => exact ih.tail (.asked ha)

theorem opened_steps {f : Frame} (hnew : Enterable s.session f.key)
    (hdepth : f.depth = s.session.stack.length)
    (hshallow : f.depth ≤ s.session.limits.maxDepth) :
    ReflTransGen (Step t) s (t.opened f s) :=
  (ReflTransGen.single (.entered s f hnew hdepth hshallow)).tail
    (.told _ (.started f.key f.depth))

/-- Leaving the innermost method is made of steps. -/
theorem closed_steps {f : Frame} {a : Analysis}
    (hf : s.session.stack.head? = some f) (hkey : a.key = f.key)
    (told : Bool) : ReflTransGen (Step t) s (t.closed f a told s) := by
  have hdone : f.key ∈ (s.session.registry.register a).keys :=
    hkey ▸ Trace.Registry.mem_keys_register_self _ a
  have hregistered := ReflTransGen.single (Step.registered (t := t) s a f hf hkey)
  cases told with
  | false => exact hregistered.tail (.left _ f hf hdone)
  | true =>
    exact (hregistered.tail (.told _ (.completed f.key f.depth a.status))).tail
      (.left _ f hf hdone)

end

/-- A tour at a depth leaves the methods under analysis as they were, and
takes steps of a run. -/
theorem Toured.steps {t : Tracer σ} {levels : Nat} {depth : Int}
    {cs : List CallSite} {bs : List Block} {s s' : State σ} {T : Tour}
    (h : Toured t levels depth cs bs s T s')
    (hdepth : (s.session.stack.length : Int) = depth + 1)
    (hlevels : levels + depth = s.session.limits.maxDepth) :
    ReflTransGen (Step t) s s' ∧ s'.session.stack = s.session.stack ∧
      s'.session.limits = s.session.limits := by
  induction h with
  | done => exact ⟨.refl, rfl, rfl⟩
  | block _ ih => exact ih hdepth hlevels
  | passed _ _ ih => exact ih hdepth hlevels
  | leaf _ _ _ _ ih => exact ih hdepth hlevels
  | @failed levels depth c cs bs s s₁ s' T a n told hc hlive hnew hm hn ha _ ih =>
    have hstack₁ : s₁.session.stack =
        frameOf c depth :: s.session.stack := hm.stack
    have hlimits₁ : s₁.session.limits = s.session.limits := hm.limits
    have hopen := opened_steps (t := t) (f := frameOf c depth) hnew
      hdepth.symm (by show depth + 1 ≤ _; omega)
    have hclose := closed_steps (t := t) (a := a) (by rw [hstack₁]; rfl)
      ha.key told
    obtain ⟨hsteps, hstack, hlimits⟩ := ih
      (by rw [closed_stack, hstack₁]; exact hdepth)
      (by rw [closed_limits, hlimits₁]; exact hlevels)
    refine ⟨((hopen.trans hm.steps).trans hclose).trans hsteps, ?_, ?_⟩
    · rw [hstack, closed_stack, hstack₁]
      rfl
    · rw [hlimits, closed_limits, hlimits₁]
  | @entered levels depth c cs bs s s₁ s₂ s' I T b n hc hlive hnew hm hn hb _ _
      ihI ih =>
    have hstack₁ : s₁.session.stack =
        frameOf c depth :: s.session.stack := hm.stack
    have hlimits₁ : s₁.session.limits = s.session.limits := hm.limits
    obtain ⟨hinside, hstack₂, hlimits₂⟩ := ihI
      (by rw [hstack₁, List.length_cons]; omega)
      (by rw [hlimits₁]; omega)
    have hopen := opened_steps (t := t) (f := frameOf c depth) hnew
      hdepth.symm (by show depth + 1 ≤ _; omega)
    have hclose := closed_steps (t := t) (f := frameOf c depth)
      (a := expanded b I) (by rw [hstack₂, hstack₁]; rfl)
      (key_expanded hb I) true
    obtain ⟨hsteps, hstack, hlimits⟩ := ih
      (by rw [closed_stack, hstack₂, hstack₁]; exact hdepth)
      (by rw [closed_limits, hlimits₂, hlimits₁]; exact hlevels)
    refine ⟨(((hopen.trans hm.steps).trans hinside).trans hclose).trans
      hsteps, ?_, ?_⟩
    · rw [hstack, closed_stack, hstack₂, hstack₁]
      rfl
    · rw [hlimits, closed_limits, hlimits₂, hlimits₁]

/-- Each method entered costs at most one question and one for each
suggestion that may be tried. -/
theorem Toured.questions {t : Tracer σ} {levels : Nat} {depth : Int}
    {cs : List CallSite} {bs : List Block} {s s' : State σ} {T : Tour}
    (h : Toured t levels depth cs bs s T s')
    (hmax : 0 ≤ t.maxSuggestions) :
    (s'.session.oracleCalls : Int) -
        (1 + t.maxSuggestions) * s'.session.analyzed ≤
      s.session.oracleCalls -
        (1 + t.maxSuggestions) * s.session.analyzed := by
  -- entering a method takes its share off on the right, and describing it
  -- spends no more than that
  have hshare : ∀ {c : CallSite} {depth : Int} {n : Nat} {s s₁ : State σ},
      Moves t n (t.opened (frameOf c depth) s) s₁ →
      (0 ≤ t.maxSuggestions → (n : Int) ≤ 1 + t.maxSuggestions) →
      (s₁.session.oracleCalls : Int) -
          (1 + t.maxSuggestions) * s₁.session.analyzed ≤
        s.session.oracleCalls -
          (1 + t.maxSuggestions) * s.session.analyzed := by
    intro c depth n s s₁ hm hn
    have hspent := hn hmax
    rw [hm.oracleCalls, hm.analyzed, Tracer.opened_analyzed,
      Tracer.opened_oracleCalls, Int.natCast_add, Int.natCast_add,
      Int.mul_add]
    omega
  induction h with
  | done => exact Int.le_refl _
  | block _ ih => exact ih
  | passed _ _ ih => exact ih
  | leaf _ _ _ _ ih => exact ih
  | failed hc hlive hnew hm hn ha _ ih =>
    rw [Tracer.closed_oracleCalls, Tracer.closed_analyzed] at ih
    exact Int.le_trans ih (hshare hm hn)
  | entered hc hlive hnew hm hn hb _ _ ihI ih =>
    rw [Tracer.closed_oracleCalls, Tracer.closed_analyzed] at ih
    exact Int.le_trans (Int.le_trans ih ihI) (hshare hm hn)

-- ================================================================ runs

/-- The end of a run takes one or two steps more and leaves the methods
under analysis alone. -/
theorem concluded_steps (t : Tracer σ) (r : Outcome) (s : State σ) :
    ReflTransGen (Step t) s (Tracer.concluded r s) ∧
      (Tracer.concluded r s).session.stack = s.session.stack ∧
      (Tracer.concluded r s).session.analyzed = s.session.analyzed ∧
      (Tracer.concluded r s).session.oracleCalls =
        s.session.oracleCalls := by
  have hfinish := ReflTransGen.single (Step.finished (t := t) s)
  cases r with
  | error u => exact ⟨hfinish, rfl, rfl, rfl⟩
  | ok root => exact ⟨hfinish.tail (.assembled _ root), rfl, rfl, rfl⟩

/-- No step changes the limits. -/
theorem Step.limits {t : Tracer σ} {s s' : State σ} (h : Step t s s') :
    s'.session.limits = s.session.limits := by
  cases h with
  | moved h => exact (congrArg Session.limits h.books :)
  | asked h => cases h; rfl
  | _ => rfl

/-- A method that was entered and is under analysis no more is known by
what is registered for it, so it is never taken for one under analysis. -/
theorem Session.Sound.known {s : Session} (h : s.Sound) {key : MethodKey}
    (hkey : key ∈ s.visited) (hstack : s.onStack key = false)
    (placeholder : Status → String → Analysis) :
    ∃ a, a.key = key ∧ s.registry.get? key = some a ∧
      Tracer.known? s key placeholder = some a := by
  obtain ⟨a, ha, hakey⟩ := h.registered key hkey hstack
  refine ⟨a, hakey, ha, ?_⟩
  rw [Tracer.known?, if_pos (List.contains_iff_mem.2 hkey), hstack, ha]
  rfl

/-- A run goes step by step from its start to its end, and its books are
sound at every point in between: what was entered is counted, within the
limit, and all different; what is under analysis has the depths 0, 1, 2 and
so on within the limit; and everything else that was entered is known by
what is registered under its key. In the end nothing is under analysis,
and the oracle was asked no more than once for each method entered and
each suggestion that might be tried for it. -/
theorem run_sound (t : Tracer σ) (s : State σ) (hfresh : s.session.Fresh)
    (hstore : Reachable s.world.store) :
    ∃ points : List (State σ),
      (s :: points).IsChain (Step t) ∧
      (s :: points).getLast (List.cons_ne_nil s points) = (t.run s).2 ∧
      (∀ p ∈ s :: points, p.session.Sound ∧
        p.session.limits = s.session.limits ∧
        ∀ key ∈ p.session.visited, p.session.onStack key = false →
          ∀ placeholder, ∃ a, a.key = key ∧
            p.session.registry.get? key = some a ∧
            Tracer.known? p.session key placeholder = some a) ∧
      (t.run s).2.session.stack = [] ∧
      (0 ≤ t.maxSuggestions → ((t.run s).2.session.oracleCalls : Int) ≤
        (1 + t.maxSuggestions) * (t.run s).2.session.analyzed) := by
  obtain ⟨T, a, s', hT, -, -, -, hend⟩ := t.run_toured hstore.obeys
  obtain ⟨hsteps, hstack, -⟩ := hT.steps
    (by rw [hfresh.stack]; rfl) (by omega)
  obtain ⟨hconclude, hstack', hanalyzed, hcalls⟩ :=
    concluded_steps t (t.run s).1 s'
  rw [← hend] at hconclude hstack' hanalyzed hcalls
  obtain ⟨points, hchain, hlast⟩ :=
    List.exists_isChain_cons_of_relationReflTransGen
      (hsteps.trans hconclude)
  refine ⟨points, hchain, hlast, ?_, ?_, ?_⟩
  · have hall : ∀ p ∈ s :: points, p.session.Sound ∧
        p.session.limits = s.session.limits :=
      hchain.induction (fun p => p.session.Sound ∧
          p.session.limits = s.session.limits) (s :: points)
        (fun _ _ h hx => ⟨h.sound hx.1, h.limits.trans hx.2⟩)
        fun _ => ⟨hfresh.sound, rfl⟩
    intro p hp
    obtain ⟨hsound, hlimits⟩ := hall p hp
    exact ⟨hsound, hlimits, fun key hkey hfree placeholder =>
      hsound.known hkey hfree placeholder⟩
  · rw [hstack', hstack, hfresh.stack]
  · intro hmax
    have hspent := hT.questions hmax
    rw [hfresh.oracleCalls, hfresh.analyzed] at hspent
    rw [hcalls, hanalyzed]
    omega

-- ============================================================= a run

/-- A source with two methods. -/
def pairSource : Source.SourceFile where
  typeName := "A"
  path := "a.py"
  content := "def m(): n()\ndef n(): 0"
  language := "python"

/-- Describes the two methods: one calls the other. -/
def pairTracer : Tracer Unit where
  sourceOf name _ _ :=
    ⟨.ok (if name = "A" then some pairSource else none), false, ()⟩
  answerTo _ prompt _ :=
    let text :=
      if prompt.methodName = "m" then
        "### Block 1: w\n- **Call**: `n()`\n- **Classification**: yes"
      else "### Block 1: v"
    ⟨[.say text], false, ()⟩
  inform _ _ := ⟨.ok (), false, ()⟩

private theorem pairRoom : 0 < 15 := by decide

private theorem pairTime :
    Number.Double.lt .zero (.ofInt 60) = true := by decide

/-- A run of the method that calls the other is about to start. -/
def pairStart : State Unit where
  session :=
    { root := ⟨"A", "m"⟩
      limits :=
        { useCache := false
          maxMethods_pos := pairRoom
          timeout_pos := pairTime }
      identity := "o", startedAt := .zero }
  world := { clock := { start := .zero }, store := {}, outside := () }

/-- The limits of a run that uses the cache. -/
def cachingLimits : Limits :=
  { pairStart.session.limits with useCache := true }

theorem pairStart_fresh : pairStart.session.Fresh :=
  ⟨rfl, rfl, rfl, rfl, rfl⟩

theorem pairStart_reachable : Reachable pairStart.world.store :=
  .fresh ⟨rfl, fun d hd => absurd hd (by simp [pairStart])⟩
    fun e he => absurd he (by simp [pairStart])

/-- The run is a chain of steps that leaves nothing open, and asks within
its bound. -/
theorem run_sound_pair :
    pairStart.session.Fresh ∧ Reachable pairStart.world.store ∧
      ∃ points : List (State Unit),
        (pairStart :: points).IsChain (Step pairTracer) ∧
        (pairStart :: points).getLast (List.cons_ne_nil _ _) =
          (pairTracer.run pairStart).2 ∧
        (∀ p ∈ pairStart :: points, p.session.Sound) ∧
        (pairTracer.run pairStart).2.session.stack = [] ∧
        ((pairTracer.run pairStart).2.session.oracleCalls : Int) ≤
          6 * (pairTracer.run pairStart).2.session.analyzed := by
  refine ⟨pairStart_fresh, pairStart_reachable, ?_⟩
  obtain ⟨points, hchain, hlast, hsound, hstack, hcalls⟩ :=
    run_sound pairTracer pairStart pairStart_fresh pairStart_reachable
  exact ⟨points, hchain, hlast, fun p hp => (hsound p hp).1, hstack,
    hcalls (by decide)⟩

/-- What the run comes to. -/
theorem pair_ran :
    (pairTracer.run pairStart).1.isOk = true ∧
    (pairTracer.run pairStart).2.session.cancelled = false ∧
    (pairTracer.run pairStart).2.session.registry.map
        (fun a => (a.key, a.calls.map fun c =>
          (c.innerStatus, c.innerNote))) =
      [(⟨"A", "n"⟩, []), (⟨"A", "m"⟩, [(some .complete, none)])] := by
  decide +kernel

end CallTrace.Run
