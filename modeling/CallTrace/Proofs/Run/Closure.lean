/-
What a finished run knows about the calls it met.

A call that is stepped into says how the analysis of its target ended. The
target is registered with just that outcome, or the call says why it was
not expanded: a limit, a name that cannot be looked for, or a target that
was under analysis itself. What is said is settled when the call is met,
long before the run ends. It stays right because a registered analysis is
never replaced, and a target under analysis encloses the method that makes
the call: entered no later than it and left no earlier.

The proof goes over the tour twice. First the calls of one method are
answered by what is registered when the method is left, with a cycle being
a target that is under analysis then. As the method is left, this becomes
a statement about the end of the run: the methods that are still under
analysis are those that enclose it.
-/
import CallTrace.Proofs.Run.Growth

namespace CallTrace.Run

open Relation (ReflTransGen)
open Trace (Registry)

variable {σ : Type}

-- ============================================================ vocabulary

/-- The method `p` was under analysis all the while that `k` was: it was
entered no later and registered no earlier. The methods entered are kept
with the last one first, what is registered with the last one last. -/
structure Session.Encloses (s : Session) (p k : MethodKey) : Prop where
  registered : p ∈ s.registry.keys
  entered : s.visited.idxOf k ≤ s.visited.idxOf p
  left : s.registry.keys.idxOf k ≤ s.registry.keys.idxOf p

/-- What is said in a call about its target `a`, when that was expanded:
the type that defines it, if that is another one. -/
def definedIn (a : Analysis) : Option String :=
  (a.inheritedFrom.filter (· != "")).map ("defined in " ++ ·)

/-- A call that is stepped into agrees with what is registered, or says
why it was not expanded. `Cyclic` tells the targets of which a call may
say that they are under analysis. -/
inductive Answered (r : Registry) (Cyclic : MethodKey → Prop)
    (c : CallSite) : Prop where
  /-- The target is registered, complete, and summed up in the call. -/
  | expanded (a : Analysis) (ha : r.get? c.key = some a)
      (hcomplete : a.status = .complete)
      (hstatus : c.innerStatus = some .complete)
      (hbehavior : c.expectedBehavior = Trace.returnSummary a)
      (hnote : c.innerNote = definedIn a)
  /-- The target is registered, and nothing has come of it. -/
  | unexpanded (a : Analysis) (ha : r.get? c.key = some a)
      (hpartial : a.status ≠ .complete)
      (hstatus : c.innerStatus = some a.status)
      (hnote : c.innerNote = a.errorMessage)
  | tooDeep (hstatus : c.innerStatus = some .truncated)
      (hnote : c.innerNote = some depthReason)
  | spent (hstatus : c.innerStatus = some .truncated)
      (hnote : c.innerNote = some budgetReason)
  | invalid (hstatus : c.innerStatus = some .failed)
      (hnote : c.innerNote = some (invalidReason c.key))
  | cycle (hcycle : Cyclic c.key)
      (hstatus : c.innerStatus = some .truncated)
      (hnote : c.innerNote = some cycleReason)

/-- What is registered stays so, and a cycle may be told in other terms. -/
theorem Answered.mono {r r' : Registry} {P Q : MethodKey → Prop}
    {c : CallSite} (h : Answered r P c)
    (hr : ∀ a, r.get? c.key = some a → r'.get? c.key = some a)
    (hP : P c.key → Q c.key) : Answered r' Q c := by
  cases h with
  | expanded a ha hcomplete hstatus hbehavior hnote =>
    exact .expanded a (hr a ha) hcomplete hstatus hbehavior hnote
  | unexpanded a ha hpartial hstatus hnote =>
    exact .unexpanded a (hr a ha) hpartial hstatus hnote
  | tooDeep hstatus hnote => exact .tooDeep hstatus hnote
  | spent hstatus hnote => exact .spent hstatus hnote
  | invalid hstatus hnote => exact .invalid hstatus hnote
  | cycle hcycle hstatus hnote => exact .cycle (hP hcycle) hstatus hnote

-- ======================================================= a single answer

@[simp] theorem decision_enrichCall (c : CallSite) (a : Analysis) :
    (enrichCall c a).decision = c.decision := by
  rw [enrichCall]
  split
  · dsimp only
    split <;> rfl
  · rfl

@[simp] theorem key_enrichCall (c : CallSite) (a : Analysis) :
    (enrichCall c a).key = c.key := by
  rw [enrichCall]
  split
  · dsimp only
    split <;> rfl
  · rfl

/-- A call is answered by what is registered for its target. -/
theorem answered_of_registered {r : Registry} {P : MethodKey → Prop}
    {c : CallSite} (hc : c.Bare) {a : Analysis}
    (ha : r.get? c.key = some a) : Answered r P (enrichCall c a) := by
  by_cases hs : a.status = .complete
  · have hcall : enrichCall c a = { c with
        innerStatus := some .complete
        expectedBehavior := Trace.returnSummary a
        innerNote := definedIn a } := by
      rw [enrichCall, definedIn]
      simp only [hs, if_true]
      rcases a.inheritedFrom.filter (· != "") with _ | t
      · simp only [Option.map_none, hc.2]
      · rfl
    rw [hcall]
    exact .expanded a ha hs rfl rfl rfl
  · have hcall : enrichCall c a = { c with
        innerStatus := some a.status, innerNote := a.errorMessage } := by
      rw [enrichCall]
      simp only [hs, if_false]
    rw [hcall]
    exact .unexpanded a ha hs rfl rfl

/-- The reasons for which a method is left unentered and unregistered. -/
inductive Withheld (s : Session) (key : MethodKey) : Status → String → Prop
    where
  | tooDeep : Withheld s key .truncated depthReason
  | spent : Withheld s key .truncated budgetReason
  | invalid : Withheld s key .failed (invalidReason key)
  | cycle (h : s.onStack key = true) : Withheld s key .truncated cycleReason

/-- Without entering its method a call is answered by what is registered,
or by a leaf with one of the reasons. -/
theorem Unentered.cases {levels : Nat} {s : State σ} {key : MethodKey}
    {a : Analysis} (h : Unentered levels s key a) (hs : s.session.Sound) :
    s.session.registry.get? key = some a ∨
      ∃ status reason, Withheld s.session key status reason ∧
        a = .placeholder key status reason s.timeOfDay := by
  cases levels with
  | zero => exact .inr ⟨_, _, .tooDeep, h⟩
  | succ levels =>
    rw [Unentered, Tracer.known?] at h
    split at h
    · rename_i hv
      split at h
      · rename_i hstack
        exact .inr ⟨_, _, .cycle hstack, (Option.some.inj h).symm⟩
      · rename_i hstack
        obtain ⟨b, hb, -⟩ := hs.registered key
          (List.contains_iff_mem.1 hv) (by simpa using hstack)
        rw [hb] at h ⊢
        exact .inl h
    split at h
    · exact .inr ⟨_, _, .spent, (Option.some.inj h).symm⟩
    split at h
    · exact .inr ⟨_, _, .invalid, (Option.some.inj h).symm⟩
    · exact absurd h (by simp)

/-- A call is answered without entering its target. -/
theorem Unentered.answered {levels : Nat} {s : State σ} {c : CallSite}
    {a : Analysis} (h : Unentered levels s c.key a) (hc : c.Bare)
    (hs : s.session.Sound) :
    Answered s.session.registry (s.session.onStack · = true)
      (enrichCall c a) := by
  rcases h.cases hs with ha | ⟨status, reason, hwhy, rfl⟩
  · exact answered_of_registered hc ha
  · cases hwhy with
    | tooDeep => exact .tooDeep rfl rfl
    | spent => exact .spent rfl rfl
    | invalid => exact .invalid rfl rfl
    | cycle hstack => exact .cycle hstack rfl rfl

/-- A complete answer is registered. -/
theorem Unentered.registered {levels : Nat} {s : State σ} {key : MethodKey}
    {a : Analysis} (h : Unentered levels s key a) (hs : s.session.Sound)
    (ha : a.status = .complete) : s.session.registry.get? key = some a := by
  rcases h.cases hs with h | ⟨status, reason, hwhy, rfl⟩
  · exact h
  · cases hwhy <;> exact absurd ha (by simp [Analysis.placeholder])

-- ==================================================== the calls made

theorem Grown.get? {T : Tour} {s s' : Session} (h : Grown T s s')
    {key : MethodKey} {a : Analysis} (ha : s.registry.get? key = some a) :
    s'.registry.get? key = some a := by
  rw [h.registry]
  exact Registry.get?_append_of_some ha _

theorem Grown.onStack {T : Tour} {s s' : Session} (h : Grown T s s')
    {key : MethodKey} (hkey : s.onStack key = true) :
    s'.onStack key = true := by
  rw [Session.onStack, h.stack]
  exact hkey

/-- A cancelled run stays cancelled. -/
theorem Step.cancelled {t : Tracer σ} {s s' : State σ} (h : Step t s s')
    (hc : s.session.cancelled = true) : s'.session.cancelled = true := by
  cases h with
  | moved h => exact h.cancelled hc
  | asked h => cases h; exact hc
  | told e => simp [State.heard, Session.cancelIf, hc]
  | _ => exact hc

/-- A run that is not cancelled in the end was not cancelled before. -/
theorem Toured.uncancelled {t : Tracer σ} {levels : Nat} {depth : Int}
    {cs : List CallSite} {bs : List Block} {s s' : State σ} {T : Tour}
    (h : Toured t levels depth cs bs s T s')
    (hs : Resting levels depth s.session)
    (hc : s'.session.cancelled = false) : s.session.cancelled = false := by
  obtain ⟨hsteps, -⟩ := h.steps hs.height hs.levels
  by_contra hcancelled
  have hend : s'.session.cancelled = true := by
    clear h hc
    induction hsteps with
    | refl => simpa using hcancelled
    | tail _ hstep ih => exact hstep.cancelled ih
  rw [hend] at hc
  exact absurd hc (by simp)

/-- The analysis that is registered as a method is left is found under its
key. -/
theorem Resting.get?_closed {t : Tracer σ} {levels : Nat} {depth : Int}
    {c : CallSite} {s : State σ} (hs : Resting levels (depth + 1) s.session)
    {rest : List Frame} (hstack : s.session.stack = frameOf c depth :: rest)
    {a : Analysis} (ha : a.key = c.key) (told : Bool) :
    (t.closed (frameOf c depth) a told s).session.registry.get? c.key =
      some a := by
  rw [← ha]
  refine Registry.get?_of_mem (hs.outside hstack ha told).registeredOnce ?_
  rw [hs.registry_closed hstack ha told]
  simp

/-- What is registered as the innermost method is left answers the call
that led there. -/
theorem Resting.answered {t : Tracer σ} {levels : Nat} {depth : Int}
    {c : CallSite} {s : State σ} (hs : Resting levels (depth + 1) s.session)
    {rest : List Frame} (hstack : s.session.stack = frameOf c depth :: rest)
    {a : Analysis} (ha : a.key = c.key) (hc : c.Bare) (told : Bool)
    {T : Tour} {s' : Session}
    (hg : Grown T (t.closed (frameOf c depth) a told s).session s') :
    Answered s'.registry (s'.onStack · = true) (enrichCall c a) :=
  answered_of_registered hc (hg.get? (hs.get?_closed hstack ha told))

/-- The calls of a tour are answered by what is registered at its end. A
cycle is a target that is under analysis there. -/
theorem Toured.answered {t : Tracer σ} {levels : Nat} {depth : Int}
    {cs : List CallSite} {bs : List Block} {s s' : State σ} {T : Tour}
    (h : Toured t levels depth cs bs s T s')
    (hs : Resting levels depth s.session)
    (hcancel : s'.session.cancelled = false)
    (hbare : ∀ c ∈ cs ++ bs.flatMap (·.calls), c.Bare) :
    ∀ c ∈ T.made, c.decision = .stepInto →
      Answered s'.session.registry (s'.session.onStack · = true) c := by
  induction h with
  | done => exact fun c hc => absurd hc List.not_mem_nil
  | block _ ih =>
    rw [Tour.made_block]
    exact ih hs hcancel hbare
  | passed hpass hrest ih =>
    rw [Tour.made_passed]
    intro c hc hinto
    rcases List.mem_cons.1 hc with rfl | hc
    · rcases hpass with hpass | hpass
      · exact absurd hinto hpass
      · rw [hrest.uncancelled hs hcancel] at hpass
        exact absurd hpass (by simp)
    · exact ih hs hcancel (fun c hc => hbare c (List.mem_cons_of_mem _ hc))
        c hc hinto
  | leaf hc hlive ha hrest ih =>
    obtain ⟨-, hg⟩ := hrest.grown hs
    rw [Tour.made_leaf]
    refine List.forall_mem_cons.2 ⟨fun _ => ?_, ih hs hcancel
      fun c hc => hbare c (List.mem_cons_of_mem _ hc)⟩
    refine (ha.answered (hbare _ (List.mem_cons_self ..)) hs.toSound).mono
      (fun a ha => hg.get? ha) ?_
    exact hg.onStack
  | @failed levels depth c cs bs s s₁ s' T a n told hc hlive hnew hm hn ha hrest
      ih =>
    have hs₁ := hs.inside hnew hm
    have hs₂ := hs₁.outside hm.stack ha.key told (t := t)
    obtain ⟨-, hg⟩ := hrest.grown hs₂
    rw [Tour.made_failed]
    refine List.forall_mem_cons.2 ⟨fun _ => ?_, ih hs₂ hcancel
      fun c hc => hbare c (List.mem_cons_of_mem _ hc)⟩
    exact hs₁.answered hm.stack ha.key (hbare c (List.mem_cons_self ..))
      told hg
  | @entered levels depth c cs bs s s₁ s₂ s' I T b n hc hlive hnew hm hn hb
      hinside hrest ihI ih =>
    obtain ⟨hs₂, hI⟩ := hinside.grown (hs.inside hnew hm)
    have hkey := key_expanded hb I
    have hstack₂ := hI.stack.trans hm.stack
    have hs₃ := hs₂.outside hstack₂ hkey true (t := t)
    obtain ⟨-, hg⟩ := hrest.grown hs₃
    rw [Tour.made_entered]
    refine List.forall_mem_cons.2 ⟨fun _ => ?_, ih hs₃ hcancel
      fun c hc => hbare c (List.mem_cons_of_mem _ hc)⟩
    exact hs₂.answered hstack₂ hkey (hbare c (List.mem_cons_self ..)) true
      hg

-- ==================================================== until the end

/-- The session `s` goes on to the end `F` of its run, where no method is
under analysis. What it has entered and registered is there, in the same
order. -/
structure Session.Ends (s F : Session) : Prop where
  tidy : F.Tidy
  stack : F.stack = []
  visited : ∃ later, F.visited = later ++ s.visited
  registry : ∃ later, F.registry = s.registry ++ later

/-- An end of what has grown is an end of what it has grown from. -/
theorem Grown.ends {T : Tour} {s s' F : Session} (h : Grown T s s')
    (hF : s'.Ends F) : s.Ends F where
  tidy := hF.tidy
  stack := hF.stack
  visited := by
    obtain ⟨later, hv⟩ := hF.visited
    exact ⟨later ++ T.entries.reverse, by
      rw [hv, h.visited, List.append_assoc]⟩
  registry := by
    obtain ⟨later, hr⟩ := hF.registry
    exact ⟨T.registered ++ later, by
      rw [hr, h.registry, List.append_assoc]⟩

/-- What goes on after a method is left goes on after its calls. -/
theorem Resting.ends {t : Tracer σ} {levels : Nat} {depth : Int}
    {c : CallSite} {s : State σ} (hs : Resting levels (depth + 1) s.session)
    {rest : List Frame} (hstack : s.session.stack = frameOf c depth :: rest)
    {a : Analysis} (ha : a.key = c.key) {told : Bool} {F : Session}
    (hF : (t.closed (frameOf c depth) a told s).session.Ends F) :
    s.session.Ends F where
  tidy := hF.tidy
  stack := hF.stack
  visited := by
    obtain ⟨later, hv⟩ := hF.visited
    exact ⟨later, by rw [hv, Tracer.closed_visited]⟩
  registry := by
    obtain ⟨later, hr⟩ := hF.registry
    exact ⟨a :: later, by
      rw [hr, hs.registry_closed hstack ha, List.append_assoc]
      rfl⟩

theorem Session.Ends.get? {s F : Session} (hF : s.Ends F)
    {key : MethodKey} {a : Analysis} (ha : s.registry.get? key = some a) :
    F.registry.get? key = some a := by
  obtain ⟨later, hr⟩ := hF.registry
  rw [hr]
  exact Registry.get?_append_of_some ha later

/-- Every method that was entered is registered in the end. -/
theorem Session.Ends.registered {s F : Session} (hF : s.Ends F)
    {key : MethodKey} (hkey : key ∈ s.visited) : key ∈ F.registry.keys := by
  obtain ⟨later, hv⟩ := hF.visited
  obtain ⟨a, ha, hakey⟩ := hF.tidy.registered key
    (by rw [hv]; exact List.mem_append_right later hkey)
    (by rw [Session.onStack, hF.stack]; rfl)
  rw [← hakey]
  exact List.mem_map_of_mem (Registry.mem_of_get? ha)

/-- What stands in the front part of a list comes before what does not. -/
private theorem idxOf_le_idxOf {xs ys : List MethodKey} {k p : MethodKey}
    (hk : k ∈ xs) (hp : p ∉ xs) :
    (xs ++ ys).idxOf k ≤ (xs ++ ys).idxOf p := by
  rw [List.idxOf_append_of_mem hk, List.idxOf_append_of_notMem hp]
  have := List.idxOf_lt_length_of_mem hk
  omega

/-- Whatever is under analysis when a method is left encloses it. -/
theorem Resting.encloses {t : Tracer σ} {levels : Nat} {depth : Int}
    {c : CallSite} {s : State σ} (hs : Resting levels (depth + 1) s.session)
    {rest : List Frame} (hstack : s.session.stack = frameOf c depth :: rest)
    {inside before : List MethodKey}
    (hvisited : s.session.visited = inside ++ c.key :: before)
    (hbefore : ∀ f ∈ rest, f.key ∈ before)
    {a : Analysis} (ha : a.key = c.key) {told : Bool} {F : Session}
    (hF : (t.closed (frameOf c depth) a told s).session.Ends F)
    {key : MethodKey} (hkey : s.session.onStack key = true) :
    F.Encloses key c.key := by
  obtain ⟨f, hf, rfl⟩ := Session.onStack_iff.1 hkey
  have hregistered : f.key ∈ F.registry.keys :=
    (hs.ends hstack ha hF).registered (hs.stackVisited f hf)
  rw [hstack] at hf
  rcases List.mem_cons.1 hf with rfl | hf
  · exact ⟨hregistered, Nat.le_refl _, Nat.le_refl _⟩
  have hne : f.key ≠ c.key := by
    have hnodup := hs.stackDistinct
    rw [hstack, List.map_cons, List.nodup_cons] at hnodup
    exact fun h => hnodup.1 (List.mem_map.2 ⟨f, hf, h⟩)
  refine ⟨hregistered, ?_, ?_⟩
  · obtain ⟨later, hv⟩ := hF.visited
    have hF' : F.visited = (later ++ inside ++ [c.key]) ++ before := by
      rw [hv, Tracer.closed_visited, hvisited]
      simp
    have hdistinct := hF.tidy.distinct
    rw [hF'] at hdistinct ⊢
    refine idxOf_le_idxOf (by simp) fun hmem => ?_
    exact (List.nodup_append.1 hdistinct).2.2 _ hmem _ (hbefore f hf) rfl
  · obtain ⟨later, hr⟩ := hF.registry
    have hF' : F.registry.keys =
        (s.session.registry.keys ++ [c.key]) ++ Registry.keys later := by
      rw [hr, hs.registry_closed hstack ha, ← ha]
      simp [Registry.keys]
    rw [hF']
    refine idxOf_le_idxOf (by simp) fun hmem => ?_
    rcases List.mem_append.1 hmem with hmem | hmem
    · exact hs.stack_unregistered f
        (hstack ▸ List.mem_cons_of_mem _ hf) hmem
    · exact hne (List.mem_singleton.1 hmem)

/-- Every complete analysis that a tour registers agrees, call by call,
with what is registered at the end of the run. -/
theorem Toured.closed {t : Tracer σ} {levels : Nat} {depth : Int}
    {cs : List CallSite} {bs : List Block} {s s' : State σ} {T : Tour}
    (h : Toured t levels depth cs bs s T s')
    (hs : Resting levels depth s.session)
    (hcancel : s'.session.cancelled = false) {F : Session}
    (hF : s'.session.Ends F) :
    ∀ a ∈ T.registered, a.status = .complete → ∀ c ∈ a.calls,
      c.decision = .stepInto →
      Answered F.registry (F.Encloses · a.key) c := by
  induction h with
  | done => exact fun a ha => absurd ha List.not_mem_nil
  | block _ ih => exact ih hs hcancel hF
  | passed _ _ ih => exact ih hs hcancel hF
  | leaf _ _ _ _ ih => exact ih hs hcancel hF
  | @failed levels depth c cs bs s s₁ s' T a n told hc hlive hnew hm hn ha hrest
      ih =>
    have hs₂ := (hs.inside hnew hm).outside hm.stack ha.key told (t := t)
    refine List.forall_mem_cons.2 ⟨?_, ih hs₂ hcancel hF⟩
    exact fun hstatus => absurd hstatus ha.status
  | @entered levels depth c cs bs s s₁ s₂ s' I T b n hc hlive hnew hm hn hb
      hinside hrest ihI ih =>
    have hs₁ := hs.inside hnew hm
    obtain ⟨hs₂, hI⟩ := hinside.grown hs₁
    have hkey := key_expanded hb I
    have hstack₂ := hI.stack.trans hm.stack
    have hs₃ := hs₂.outside hstack₂ hkey true (t := t)
    obtain ⟨-, hg⟩ := hrest.grown hs₃
    have hF₃ := hg.ends hF
    have hcancel₂ := Tracer.uncancelled_of_closed
      (hrest.uncancelled hs₃ hcancel)
    intro a ha
    rcases List.mem_append.1 ha with ha | ha
    · exact ihI hs₁ hcancel₂ (hs₂.ends hstack₂ hkey hF₃) a ha
    rcases List.mem_cons.1 ha with rfl | ha
    · intro _ c' hc' hinto
      rw [hinside.calls_expanded] at hc'
      have hbare : ∀ c ∈ [] ++ b.blocks.flatMap (·.calls), c.Bare :=
        hb.calls
      refine (hinside.answered hs₁ hcancel₂ hbare c' hc' hinto).mono
        (fun a ha => (hs₂.ends hstack₂ hkey hF₃).get? ha) fun hstack => ?_
      rw [hkey]
      have hv : s₂.session.visited =
          I.entries.reverse ++ c.key :: s.session.visited := by
        rw [hI.visited, hm.visited]
        rfl
      exact hs₂.encloses hstack₂ hv hs.stackVisited hkey hF₃ hstack
    · exact ih hs₃ hcancel hF a ha

-- ======================================================= reachability

/-- A complete analysis that is registered makes a call that is stepped
into. -/
def Session.Leads (s : Session) (key target : MethodKey) : Prop :=
  ∃ a ∈ s.registry, a.key = key ∧ a.status = .complete ∧
    ∃ c ∈ a.calls, c.decision = .stepInto ∧ c.key = target

/-- Whatever a tour registers can be reached from one of its calls. -/
theorem Toured.reached {t : Tracer σ} {levels : Nat} {depth : Int}
    {cs : List CallSite} {bs : List Block} {s s' : State σ} {T : Tour}
    (h : Toured t levels depth cs bs s T s') {F : Session}
    (hF : ∀ a ∈ T.registered, a ∈ F.registry) :
    ∀ a ∈ T.registered, ∃ c ∈ T.made, c.decision = .stepInto ∧
      ReflTransGen F.Leads c.key a.key := by
  -- what is reached from a later call is reached from one of all calls
  have hlater : ∀ {c : CallSite} {cs : List CallSite} {a : Analysis},
      (∃ d ∈ cs, d.decision = .stepInto ∧
        ReflTransGen F.Leads d.key a.key) →
      ∃ d ∈ c :: cs, d.decision = .stepInto ∧
        ReflTransGen F.Leads d.key a.key := by
    rintro c cs a ⟨d, hd, hinto, hpath⟩
    exact ⟨d, List.mem_cons_of_mem _ hd, hinto, hpath⟩
  induction h with
  | done => exact fun a ha => absurd ha List.not_mem_nil
  | block _ ih =>
    rw [Tour.made_block]
    exact ih hF
  | passed _ _ ih => exact fun a ha => hlater (ih hF a ha)
  | leaf _ _ _ _ ih => exact fun a ha => hlater (ih hF a ha)
  | failed hc hlive hnew hm hn ha hrest ih =>
    refine List.forall_mem_cons.2 ⟨?_, fun a ha =>
      hlater (ih (fun a ha => hF a (List.mem_cons_of_mem _ ha)) a ha)⟩
    refine ⟨_, List.mem_cons_self .., ?_, ?_⟩
    · rw [decision_enrichCall, hc]
    · rw [key_enrichCall, ha.key]
  | @entered levels depth c cs bs s s₁ s₂ s' I T b n hc hlive hnew hm hn hb
      hinside hrest ihI ih =>
    have hself : expanded b I ∈ F.registry :=
      hF _ (List.mem_append_right _ (List.mem_cons_self ..))
    rw [Tour.made_entered]
    intro a ha
    rcases List.mem_append.1 ha with ha | ha
    · obtain ⟨d, hd, hinto, hpath⟩ :=
        ihI (fun a ha => hF a (List.mem_append_left _ ha)) a ha
      refine ⟨_, List.mem_cons_self .., by rw [decision_enrichCall, hc], ?_⟩
      rw [key_enrichCall]
      refine hpath.head ⟨_, hself, key_expanded hb I,
        status_expanded hb I, d, ?_, hinto, rfl⟩
      rw [hinside.calls_expanded]
      exact hd
    rcases List.mem_cons.1 ha with rfl | ha
    · refine ⟨_, List.mem_cons_self .., by rw [decision_enrichCall, hc], ?_⟩
      rw [key_enrichCall, key_expanded hb I]
    · exact hlater (ih (fun a ha => hF a (List.mem_append_right _
        (List.mem_cons_of_mem _ ha))) a ha)

-- ============================================================== runs

/-- The end of a run changes nothing in what was entered and registered. -/
theorem Session.Tidy.concluded {s : State σ} (h : s.session.Tidy)
    (hstack : s.session.stack = []) (r : Outcome) :
    s.session.Ends (Tracer.concluded r s).session where
  tidy := by cases r <;> exact h.congr rfl rfl rfl rfl rfl
  stack := by cases r <;> exact hstack
  visited := ⟨[], by cases r <;> rfl⟩
  registry := ⟨[], by rw [Tracer.concluded_registry, List.append_nil]⟩

theorem Tracer.Surveyed.ends {t : Tracer σ} {s s' : State σ} {T : Tour}
    {a : Analysis} (h : t.Surveyed s T a s') :
    s'.session.Ends (t.run s).2.session := by
  rw [h.ended]
  exact h.rest.toTidy.concluded h.stack _

/-- A root whose name can be looked for is entered. -/
theorem Toured.root_entered {t : Tracer σ} {levels : Nat} {s s' : State σ}
    {root : MethodKey} {T : Tour} {a : Analysis}
    (h : Toured t (levels + 1) (-1) [Tracer.rootCall root] [] s T s')
    (hstarts : Tracer.Starts (Tracer.rootCall root) a .done T)
    (hfresh : s.session.Fresh)
    (hroot : Source.isPlausible root.typeName root.methodName = true) :
    ∃ b ∈ T.registered, b.key = root := by
  cases hstarts with
  | failed =>
    cases h with
    | failed _ _ _ _ _ ha _ => exact ⟨a, List.mem_cons_self .., ha.key⟩
  | entered ha =>
    cases h with
    | entered _ _ _ _ _ hb _ _ =>
      exact ⟨_, List.mem_append_right _ (List.mem_cons_self ..),
        key_expanded hb _⟩
  | leaf =>
    cases h with
    | leaf _ _ ha _ =>
      have hnew : Enterable s.session (Tracer.rootCall root).key := by
        refine ⟨by simp [hfresh.visited], ?_, hroot⟩
        rw [hfresh.analyzed]
        exact s.session.limits.maxMethods_pos
      rw [Unentered, Tracer.known?_eq_none.2 hnew] at ha
      exact absurd ha (by simp)

/-- A finished run that was not cancelled is closed under the calls that
are stepped into. Each call of a complete analysis agrees with what is
registered for its target, or says why that was not expanded, and it tells
of a cycle only where its target encloses the calling method. Everything
registered can be reached from the root. Where no call was stopped by the
depth, the number of methods or its name, everything that can be reached
is registered. -/
theorem run_closed (t : Tracer σ) (s : State σ) (hfresh : s.session.Fresh)
    (hstore : Reachable s.world.store)
    (hroot : Source.isPlausible s.session.root.typeName
      s.session.root.methodName = true)
    (hcancel : (t.run s).2.session.cancelled = false) :
    let F := (t.run s).2.session
    (∀ a ∈ F.registry, a.status = .complete → ∀ c ∈ a.calls,
      c.decision = .stepInto →
      Answered F.registry (F.Encloses · a.key) c) ∧
    (∀ key ∈ F.registry.keys,
      ReflTransGen F.Leads s.session.root key) ∧
    ((∀ a ∈ F.registry, a.status = .complete → ∀ c ∈ a.calls,
        c.decision = .stepInto →
        c.innerNote ≠ some depthReason ∧ c.innerNote ≠ some budgetReason ∧
        c.innerNote ≠ some (invalidReason c.key)) →
      ∀ key, key ∈ F.registry.keys ↔
        ReflTransGen F.Leads s.session.root key) := by
  intro F
  obtain ⟨T, root, s', hrun⟩ := t.run_surveyed hfresh hstore.obeys
  have hF := hrun.ends
  obtain ⟨-, hT, hs, -, hstarts, -, hend, -, hregistry, -⟩ := hrun
  have hcancelled : s'.session.cancelled = false := by
    rw [hend] at hcancel
    cases h : (t.run s).1 <;> rw [h] at hcancel <;> exact hcancel
  have hclosed : ∀ a ∈ F.registry, a.status = .complete → ∀ c ∈ a.calls,
      c.decision = .stepInto →
      Answered F.registry (F.Encloses · a.key) c := by
    intro a ha
    refine hT.closed hs hcancelled hF a ?_
    rw [← hregistry]
    exact ha
  have hreached : ∀ key ∈ F.registry.keys,
      ReflTransGen F.Leads s.session.root key := by
    intro key hkey
    obtain ⟨a, ha, rfl⟩ := List.mem_map.1 hkey
    have hmem : a ∈ T.registered := hregistry ▸ ha
    obtain ⟨c, hc, -, hpath⟩ :=
      hT.reached (F := F) (fun a ha => hregistry ▸ ha) a hmem
    have hmade : T.made =
        [enrichCall (Tracer.rootCall s.session.root) root] := by
      cases hstarts with
      | leaf | failed => rfl
      | entered h => rw [h]; rfl
    rw [hmade, List.mem_singleton] at hc
    rw [hc, key_enrichCall] at hpath
    exact hpath
  refine ⟨hclosed, hreached, fun hnotes key => ⟨hreached key, ?_⟩⟩
  intro hpath
  induction hpath with
  | refl =>
    obtain ⟨b, hb, hkey⟩ := hT.root_entered hstarts hfresh hroot
    rw [← hregistry] at hb
    rw [← hkey]
    exact List.mem_map_of_mem hb
  | tail _ hleads ih =>
    obtain ⟨a, ha, -, hstatus, c, hc, hinto, rfl⟩ := hleads
    obtain ⟨hdepth, hbudget, hinvalid⟩ := hnotes a ha hstatus c hc hinto
    cases hclosed a ha hstatus c hc hinto with
    | expanded b hb _ _ _ _ | unexpanded b hb _ _ _ =>
      rw [← Registry.get?_eq_some_key hb]
      exact List.mem_map_of_mem (Registry.mem_of_get? hb)
    | tooDeep _ hnote => exact absurd hnote hdepth
    | spent _ hnote => exact absurd hnote hbudget
    | invalid _ hnote => exact absurd hnote hinvalid
    | cycle hcycle _ _ => exact hcycle.registered

/-- The run is closed: it comes to the two methods, and to no others. -/
theorem run_closed_pair :
    let F := (pairTracer.run pairStart).2.session
    F.cancelled = false ∧
      F.registry.keys = [⟨"A", "n"⟩, ⟨"A", "m"⟩] ∧
      (∀ a ∈ F.registry, a.status = .complete → ∀ c ∈ a.calls,
        c.decision = .stepInto →
        Answered F.registry (F.Encloses · a.key) c) ∧
      ∀ key, key ∈ F.registry.keys ↔ ReflTransGen F.Leads ⟨"A", "m"⟩ key := by
  obtain ⟨-, hcancel, hregistry⟩ := pair_ran
  obtain ⟨hclosed, -, hreach⟩ := run_closed pairTracer pairStart
    pairStart_fresh pairStart_reachable (by decide) hcancel
  dsimp only
  generalize (pairTracer.run pairStart).2.session = F
    at hcancel hregistry hclosed hreach ⊢
  have hkeys : F.registry.keys = [⟨"A", "n"⟩, ⟨"A", "m"⟩] := by
    simpa [Registry.keys, Function.comp_def] using
      congrArg (List.map Prod.fst) hregistry
  have hnotes : ∀ a ∈ F.registry, ∀ c ∈ a.calls, c.innerNote = none := by
    intro a ha c hc
    have hmem := List.mem_map_of_mem (f := fun a : Analysis =>
      (a.key, a.calls.map fun c => (c.innerStatus, c.innerNote))) ha
    have hcall := List.mem_map_of_mem (f := fun c : CallSite =>
      (c.innerStatus, c.innerNote)) hc
    rw [hregistry] at hmem
    simp only [List.mem_cons, Prod.mk.injEq, List.not_mem_nil,
      or_false] at hmem
    rcases hmem with ⟨-, hcalls⟩ | ⟨-, hcalls⟩ <;> rw [hcalls] at hcall
    · cases hcall
    · exact (Prod.mk.inj (List.mem_singleton.1 hcall)).2
  refine ⟨hcancel, hkeys, hclosed, hreach fun a ha _ c hc _ => ?_⟩
  rw [hnotes a ha c hc]
  simp

end CallTrace.Run
