/-
A run with the cache comes to what it comes to without.

Two runs are told apart by what is in their worlds: one looks descriptions
up, the other asks for all of them. While nothing outside varies, nothing
cancels a run and the cache does not fail, each method comes to the same
description in both, but for its time. So the two stay in step: they enter
the same methods, in the same order, and register the same for each, and
the walkthrough, which does not tell the times, is the same.

Earlier runs may have been cancelled, or failed by the cache, and may have
had other limits. All that matters is that they met the same sources and
the same oracle.
-/
import CallTrace.Proofs.Run.Deeds
import CallTrace.Proofs.Run.Shared
import CallTrace.Proofs.Run.Sound
import CallTrace.Proofs.Run.Steady
import CallTrace.Proofs.Trace.Timeless

namespace CallTrace.Run

open Cache (Store)
open Number (Double)
open Source (Resolved)

variable {σ : Type}

-- ======================================================== earlier runs

/-- What a run leaves in the cache is right. -/
structure Upholds (x : Fixed) (s s' : State σ) : Prop where
  identity : s'.session.identity = s.session.identity
  limits : s'.session.limits = s.session.limits
  obeys : s.Fits x → s'.world.store.Obeys x.Right

theorem Upholds.fits {x : Fixed} {s s' : State σ} (h : Upholds x s s')
    (hs : s.Fits x) : s'.Fits x :=
  ⟨h.identity.trans hs.identity, h.limits.symm ▸ hs.limit, h.obeys hs⟩

/-- While nothing varies every piece of a run leaves what is right in the
cache. -/
theorem Tracer.Steady.carried {t : Tracer σ} {x : Fixed} (ht : t.Steady x)
    (hx : x.Standalone) : Carried t (Upholds x) where
  trans _ _ _ h h' :=
    ⟨h'.identity.trans h.identity, h'.limits.trans h.limits,
      fun hs => h'.obeys (h.fits hs)⟩
  books _ _ hw hi hl := ⟨hi, hl, fun hs => hw.symm ▸ hs.obeys⟩
  told _ _ := ⟨rfl, rfl, fun hs => hs.obeys⟩
  described key hkey s := by
    have hacts := t.base_acts hkey s
    exact ⟨hacts.identity, hacts.limits, fun hs =>
      (Tracer.base_keeps ht hx hkey hs).related.obeys hs.obeys⟩

/-- How long a reply is waited for makes no difference to what is right. -/
theorem Fixed.right_within (x : Fixed) (limit : Double) :
    (x.within limit).Right = x.Right := by
  funext key a f identity
  refine propext (forall_congr' fun _ => ?_)
  exact (x.agree_base limit key).ok_iff _

/-- The store is shared by runs that met the same sources and asked the
same oracle, whatever their limits were. -/
def Unvaried (x : Fixed) : Store → Prop :=
  Shared fun _ t s => t.Steady (x.within s.session.limits.timeout) ∧
    s.session.identity = x.identity

theorem Unvaried.obeys {x : Fixed} (hx : x.Standalone) {s : Store}
    (h : Unvaried x s) : s.Obeys x.Right := by
  refine Shared.obeys x.right_timeless ?_ h
  rintro σ t s ⟨ht, hidentity⟩ hs
  have hfits : s.Fits (x.within s.session.limits.timeout) :=
    ⟨hidentity, rfl, (x.right_within _).symm ▸ hs⟩
  exact x.right_within _ ▸ ((ht.carried (hx.within _)).run s).obeys hfits

-- =============================================================== twins

/-- What a run has written down, but for times, counts and whether it uses
the cache. -/
def Session.ledger (s : Session) : Session :=
  { s.books with
    registry := s.registry.stamped .zero
    limits := { s.limits with useCache := true } }

/-- The run meets with nothing that would have it end otherwise. -/
structure Smooth (t : Tracer σ) (x : Fixed) (s : State σ) : Prop where
  fits : s.Fits x
  able : t.Able s
  awake : s.session.cancelled = false

/-- Two runs that have come equally far. -/
structure Twins (t : Tracer σ) (x : Fixed) (s s' : State σ) : Prop where
  ledger : s.session.ledger = s'.session.ledger
  left : Smooth t x s
  right : Smooth t x s'

/-- The result of tracing a method, but for the time. -/
def Outcome.timeless (r : Outcome) : Outcome := r.map (·.stamped .zero)

section

variable {t : Tracer σ} {x : Fixed} {s s' : State σ}

theorem Keeps.ledger (h : Keeps t x s s') :
    s'.session.ledger = s.session.ledger :=
  congrArg (fun b : Session =>
    { b with
      registry := b.registry.stamped .zero
      limits := { b.limits with useCache := true } }) h.books

theorem Keeps.smooth (hcalm : t.Calm) (h : Keeps t x s s')
    (hs : Smooth t x s) : Smooth t x s' :=
  ⟨h.fits hs.fits, h.able hs.able, h.calm hcalm hs.awake⟩

theorem Keeps.twins (hcalm : t.Calm) {u u' : State σ}
    (h : Keeps t x s s') (h' : Keeps t x u u') (hs : Twins t x s u) :
    Twins t x s' u' :=
  ⟨h.ledger.trans (hs.ledger.trans h'.ledger.symm),
    h.smooth hcalm hs.left, h'.smooth hcalm hs.right⟩

/-- Whether a run goes smoothly depends on three things of its session. -/
theorem Smooth.of_session (h : Smooth t x s) {session : Session}
    (hi : session.identity = s.session.identity)
    (hl : session.limits = s.session.limits)
    (hc : session.cancelled = s.session.cancelled) :
    Smooth t x { s with session := session } where
  fits := ⟨hi.trans h.fits.identity, hl.symm ▸ h.fits.limit, h.fits.obeys⟩
  able huses := h.able (by
    rw [Tracer.usesCache] at huses ⊢
    exact hl ▸ huses)
  awake := hc.trans h.awake

end

-- ============================================================ in step

namespace Tracer

variable {t : Tracer σ} {x : Fixed}

theorem twins_tell (hcalm : t.Calm) (e : Event) :
    Mirrors (Twins t x) (t.tell e) (t.tell e) :=
  fun _ _ h => ⟨rfl, Keeps.twins hcalm ((t.listens_keeps x).told e _)
    ((t.listens_keeps x).told e _) h⟩

theorem twins_leaf (key : MethodKey) (status : Status) (reason : String) :
    MirrorsUpTo (·.stamped .zero) (Twins t x) (leaf key status reason)
      (leaf key status reason) :=
  fun _ _ h => ⟨rfl, h⟩

/-- Registering analyses that are alike keeps the runs twins. -/
theorem twins_register {a a' : Analysis}
    (ha : a.stamped .zero = a'.stamped .zero) :
    Mirrors (Twins t x) (onSession (·.register a))
      (onSession (·.register a')) := by
  intro s s' h
  refine ⟨rfl, ?_, h.left.of_session rfl rfl rfl,
    h.right.of_session rfl rfl rfl⟩
  have hledger : ∀ (s : Session) (a : Analysis),
      (s.register a).ledger = s.ledger.register (a.stamped .zero) := by
    intro s a
    rw [Session.register, Session.ledger, Session.register,
      Session.ledger, ← Trace.Registry.stamped_register]
    rfl
  show (s.session.register a).ledger = (s'.session.register a').ledger
  rw [hledger, hledger, h.ledger, ha]

theorem twins_complete (hcalm : t.Calm) (f : Frame) {a a' : Analysis}
    (ha : a.stamped .zero = a'.stamped .zero) :
    Mirrors (Twins t x) (t.complete f a) (t.complete f a') := by
  have hstatus : a.status = a'.status := (congrArg Analysis.status ha :)
  refine mirrors_bind (twins_register ha) fun _ => ?_
  rw [hstatus]
  exact twins_tell hcalm _

-- ============================================================== calls

/-- What is known about a called method goes into its caller without the
time. -/
theorem enrichCall_stamped (c : CallSite) (inner : Analysis)
    (time : Double) : enrichCall c (inner.stamped time) = enrichCall c inner :=
  rfl

theorem innerSummary_stamped (inner : Analysis) (time : Double) :
    innerSummary (inner.stamped time) = innerSummary inner := rfl

section

variable {trace : CallSite → StateM (State σ) Analysis}
  (htrace : ∀ c, MirrorsUpTo (·.stamped .zero) (Twins t x) (trace c)
    (trace c))

include htrace

/-- Tracing calls keeps the runs twins, if tracing one call does. -/
theorem twins_traceCalls (cs : List CallSite) :
    Mirrors (Twins t x) (traceCalls trace cs) (traceCalls trace cs) := by
  induction cs with
  | nil => exact mirrors_pure _
  | cons c rest ih =>
    refine mirrors_get fun s s' h => ?_
    show Mirrors (Twins t x)
      (ite (c.decision ≠ .stepInto ∨ s.session.cancelled = true) _ _)
      (ite (c.decision ≠ .stepInto ∨ s'.session.cancelled = true) _ _)
    by_cases hc : c.decision ≠ .stepInto
    · rw [if_pos (.inl hc), if_pos (.inl hc)]
      exact mirrors_bind ih fun _ => mirrors_pure _
    · rw [if_neg (by simp [hc, h.left.awake]),
        if_neg (by simp [hc, h.right.awake])]
      refine Mirrors.bind_upTo (htrace c) fun inner inner' hinner => ?_
      have hcall : enrichCall c inner = enrichCall c inner' := by
        rw [← enrichCall_stamped c inner .zero, hinner, enrichCall_stamped]
      have hnote : innerSummary inner = innerSummary inner' := by
        rw [← innerSummary_stamped inner .zero, hinner, innerSummary_stamped]
      have hstatus : inner.status = inner'.status :=
        (congrArg Analysis.status hinner :)
      refine mirrors_bind ih fun r => ?_
      dsimp only
      rw [hcall, hnote, hstatus]
      exact mirrors_pure _

theorem twins_traceBlocks (bs : List Block) :
    Mirrors (Twins t x) (traceBlocks trace bs) (traceBlocks trace bs) := by
  induction bs with
  | nil => exact mirrors_pure _
  | cons b rest ih =>
    exact mirrors_bind (twins_traceCalls htrace b.calls) fun _ =>
      mirrors_bind ih fun _ => mirrors_pure _

end

-- ============================================================ methods

/-- Describing a method comes to the same in both runs. -/
theorem twins_base (ht : t.Steady x) (hcalm : t.Calm) (hx : x.Standalone)
    {key : MethodKey} (hkey : key.IsPlain) :
    MirrorsUpTo (Except.map (·.stamped .zero)) (Twins t x) (t.base key)
      (t.base key) := by
  intro s s' h
  refine ⟨?_, Keeps.twins hcalm (base_keeps ht hx hkey h.left.fits).related
    (base_keeps ht hx hkey h.right.fits).related h⟩
  exact (base_calm ht hcalm hx hkey h.left.fits h.left.able
    h.left.awake).trans (base_calm ht hcalm hx hkey h.right.fits
      h.right.able h.right.awake).symm

section

variable {expand : Analysis → StateM (State σ) Analysis}
  (hexpand : ∀ a a', a.stamped .zero = a'.stamped .zero →
    MirrorsUpTo (·.stamped .zero) (Twins t x) (expand a) (expand a'))

include hexpand

/-- What becomes of descriptions that are alike keeps the runs twins. -/
theorem twins_settle (hcalm : t.Calm) (f : Frame)
    {r r' : Except Failure Analysis}
    (hr : r.map (·.stamped .zero) = r'.map (·.stamped .zero)) :
    MirrorsUpTo Outcome.timeless (Twins t x) (t.settle f expand r)
      (t.settle f expand r') := by
  rcases r with e | a <;> rcases r' with e' | a' <;>
    simp only [Except.map, reduceCtorEq, Except.error.injEq,
      Except.ok.injEq] at hr
  · subst hr
    cases e with
    | unresolved u =>
      exact mirrorsUpTo_bind (twins_leaf _ _ _) fun _ _ ha =>
        MirrorsUpTo.bind_eq (twins_register ha) fun _ => mirrorsUpTo_pure rfl
    | _ =>
      exact mirrorsUpTo_bind (twins_leaf _ _ _) fun _ _ ha =>
        MirrorsUpTo.bind_eq (twins_complete hcalm f ha) fun _ =>
          mirrorsUpTo_pure (congrArg Except.ok ha)
  · have hstatus : a.status = a'.status := (congrArg Analysis.status hr :)
    have hrest : ∀ b b' : Analysis, b.stamped .zero = b'.stamped .zero →
        MirrorsUpTo Outcome.timeless (Twins t x)
          (t.complete f b >>= fun _ => pure (.ok b))
          (t.complete f b' >>= fun _ => pure (.ok b')) := fun b b' hb =>
      MirrorsUpTo.bind_eq (twins_complete hcalm f hb) fun _ =>
        mirrorsUpTo_pure (congrArg Except.ok hb)
    rw [settle, settle, hstatus]
    split
    · exact mirrorsUpTo_bind (hexpand a a' hr) hrest
    · exact mirrorsUpTo_bind (mirrorsUpTo_pure hr) hrest

/-- Entering a method keeps the runs twins: it is described alike in both,
though one may take it from the cache. -/
theorem twins_enter (ht : t.Steady x) (hcalm : t.Calm) (hx : x.Standalone)
    (f : Frame) (hf : f.key.IsPlain) :
    MirrorsUpTo Outcome.timeless (Twins t x) (t.enter f expand)
      (t.enter f expand) := by
  have hopen : Mirrors (Twins t x) (onSession (·.enter f))
      (onSession (·.enter f)) := fun s s' h =>
    ⟨rfl, congrArg (Session.enter · f) h.ledger,
      h.left.of_session rfl rfl rfl, h.right.of_session rfl rfl rfl⟩
  have hclose : Mirrors (Twins t x) (onSession Session.pop)
      (onSession Session.pop) := fun s s' h =>
    ⟨rfl, congrArg Session.pop h.ledger,
      h.left.of_session rfl rfl rfl, h.right.of_session rfl rfl rfl⟩
  refine MirrorsUpTo.bind_eq hopen fun _ =>
    MirrorsUpTo.bind_eq (twins_tell hcalm _) fun _ =>
      mirrorsUpTo_bind (twins_base ht hcalm hx hf) fun r r' hr =>
        mirrorsUpTo_bind (twins_settle hexpand hcalm f hr)
          fun _ _ houtcome => ?_
  exact MirrorsUpTo.bind_eq hclose fun _ => mirrorsUpTo_pure houtcome

end

/-- What stands in for a method that was not found is alike in both. -/
theorem twins_orLeaf (key : MethodKey) {r r' : Outcome}
    (h : r.timeless = r'.timeless) :
    MirrorsUpTo (·.stamped .zero) (Twins t x) (orLeaf key r)
      (orLeaf key r') := by
  rcases r with u | a <;> rcases r' with u' | a' <;>
    simp only [Outcome.timeless, Except.map, reduceCtorEq,
      Except.error.injEq, Except.ok.injEq] at h
  · subst h
    exact twins_leaf _ _ _
  · exact mirrorsUpTo_pure h

/-- What is known of a method without entering it, but for the time. -/
theorem known?_stamped (s : Session) (key : MethodKey) (now : Double) :
    (known? s key fun st reason => .placeholder key st reason now).map
        (·.stamped .zero) =
      known? s.ledger key fun st reason =>
        .placeholder key st reason .zero := by
  have hget : (s.registry.get? key).map (·.stamped .zero) =
      s.ledger.registry.get? key :=
    (Trace.Registry.get?_stamped s.registry key).symm
  rw [known?, known?, ← hget]
  show _ = ite (s.visited.contains key = true)
    (ite (s.onStack key = true) _ _) (ite (s.limits.maxMethods ≤ s.analyzed) _ _)
  split
  · split
    · rfl
    · rcases s.registry.get? key with _ | a <;> rfl
  · split
    · rfl
    · split <;> rfl

/-- The runs stay twins in tracing a method, at any depth. -/
theorem twins_trace (ht : t.Steady x) (hcalm : t.Calm) (hx : x.Standalone)
    (levels : Nat) (f : Frame) :
    MirrorsUpTo Outcome.timeless (Twins t x) (t.trace levels f)
      (t.trace levels f) := by
  induction levels generalizing f with
  | zero =>
    exact mirrorsUpTo_bind (twins_leaf _ _ _) fun _ _ ha =>
      mirrorsUpTo_pure (congrArg Except.ok ha)
  | succ levels ih =>
    rw [trace]
    refine mirrorsUpTo_get fun s s' h => ?_
    dsimp only
    have hknown := (known?_stamped s.session f.key s.timeOfDay).trans
      ((congrArg (known? · f.key _) h.ledger).trans
        (known?_stamped s'.session f.key s'.timeOfDay).symm)
    rcases hk : known? s.session f.key fun st reason =>
      .placeholder f.key st reason s.timeOfDay with _ | a <;>
      rcases hk' : known? s'.session f.key fun st reason =>
        .placeholder f.key st reason s'.timeOfDay with _ | a' <;>
      rw [hk, hk'] at hknown <;>
      simp only [Option.map_none, Option.map_some, reduceCtorEq,
        Option.some.injEq] at hknown
    · refine twins_enter (fun a a' ha => ?_) ht hcalm hx f
        (known?_eq_none.1 hk).isPlain
      have hblocks : a.blocks = a'.blocks := (congrArg Analysis.blocks ha :)
      rw [hblocks]
      refine MirrorsUpTo.bind_eq (twins_traceBlocks (fun c => ?_) a'.blocks)
        fun bs => mirrorsUpTo_pure ?_
      · exact mirrorsUpTo_bind (ih _) fun _ _ houtcome =>
          twins_orLeaf c.key houtcome
      · exact congrArg (enrich · bs) ha
    · exact mirrorsUpTo_pure (congrArg Except.ok hknown)

/-- A run comes to the same in both. -/
theorem twins_run (ht : t.Steady x) (hcalm : t.Calm) (hx : x.Standalone) :
    MirrorsUpTo Outcome.timeless (Twins t x) t.run t.run := by
  have hfinish : Mirrors (Twins t x)
      (onSession fun s => { s with finished := true })
      (onSession fun s => { s with finished := true }) := fun s s' h =>
    ⟨rfl, congrArg (fun b : Session => { b with finished := true }) h.ledger,
      h.left.of_session rfl rfl rfl, h.right.of_session rfl rfl rfl⟩
  refine mirrorsUpTo_get fun s s' h => ?_
  have hroot : s.session.root = s'.session.root :=
    (congrArg Session.root h.ledger :)
  rw [hroot]
  refine mirrorsUpTo_bind (e := Outcome.timeless)
    (mirrorsUpTo_get fun s s' h => ?_) fun r r' hr =>
      MirrorsUpTo.bind_eq hfinish fun _ => ?_
  · have hdepth : s.session.limits.maxDepth = s'.session.limits.maxDepth :=
      (congrArg (fun b : Session => b.limits.maxDepth) h.ledger :)
    rw [levelsAt, hdepth]
    exact twins_trace ht hcalm hx _ _
  rcases r with u | root <;> rcases r' with u' | root' <;>
    simp only [Outcome.timeless, Except.map, reduceCtorEq,
      Except.error.injEq, Except.ok.injEq] at hr
  · exact mirrorsUpTo_pure (congrArg Except.error hr)
  · refine MirrorsUpTo.bind_eq (fun s s' h => ⟨rfl, ?_,
      h.left.of_session rfl rfl rfl, h.right.of_session rfl rfl rfl⟩)
        fun _ => mirrorsUpTo_pure (congrArg Except.ok hr)
    have hregistry : s.session.registry.stamped .zero =
        s'.session.registry.stamped .zero :=
      (congrArg Session.registry h.ledger :)
    have hsteps : Trace.assemble s.session.registry root =
        Trace.assemble s'.session.registry root' := by
      rw [← Trace.assemble_stamped _ _ .zero, hregistry, hr,
        Trace.assemble_stamped]
    exact (congrArg (fun b : Session => { b with
      steps := Trace.assemble s.session.registry root }) h.ledger).trans
        (by rw [hsteps])

end Tracer

/-- The run as it would be without the cache. -/
def State.uncached (s : State σ) : State σ :=
  { s with session.limits.useCache := false }

/-- Nothing outside varies, nothing cancels the run, and the cache was used
by nothing but runs that met the same sources and the same oracle. Then a
run that uses it gives the same analysis of the root, registers the same
analyses in the same order, but for their times, and has the same steps as
a run that does not; as long as what is looked for on a suggestion stands
alone. -/
theorem run_transparent (t : Tracer σ) {x : Fixed} (ht : t.Steady x)
    (hcalm : t.Calm) (hx : x.Standalone) (s : State σ)
    (hidentity : s.session.identity = x.identity)
    (hlimit : s.session.limits.timeout = x.limit)
    (hstore : Unvaried x s.world.store) (hable : s.world.store.Serviceable)
    (hawake : s.session.cancelled = false) :
    (t.run s).1.timeless = (t.run s.uncached).1.timeless ∧
    (t.run s).2.session.registry.stamped .zero =
      (t.run s.uncached).2.session.registry.stamped .zero ∧
    (t.run s).2.session.steps = (t.run s.uncached).2.session.steps := by
  have hobeys := hstore.obeys hx
  have htwins : Twins t x s s.uncached :=
    ⟨rfl, ⟨⟨hidentity, hlimit, hobeys⟩, fun _ => hable, hawake⟩,
      ⟨⟨hidentity, hlimit, hobeys⟩, fun _ => hable, hawake⟩⟩
  obtain ⟨hroot, hend⟩ := Tracer.twins_run ht hcalm hx s s.uncached htwins
  exact ⟨hroot, congrArg Session.registry hend.ledger,
    (congrArg Session.steps hend.ledger :)⟩

-- ==================================================== a plain surrounding

section

variable (source : String → Option Source.SourceFile)
  (answer : Prompt → String)

/-- Sources and replies that are there at once and stay as they are. -/
def plainFixed : Fixed where
  sourceOf name := .ok (source name)
  responseTo prompt := .replies (answer prompt)
  identity := "o"
  limit := cachingLimits.timeout

def plainTracer : Tracer Unit where
  sourceOf name _ _ := ⟨.ok (source name), false, ()⟩
  answerTo _ prompt _ := ⟨[.say (answer prompt)], false, ()⟩
  inform _ _ := ⟨.ok (), false, ()⟩

/-- Sources and replies that are given once and for all are steady,
whatever the limit of time. -/
theorem plain_steady (limit : Double) :
    (plainTracer source answer).Steady
      ((plainFixed source answer).within limit) where
  sourceOf _ _ _ := rfl
  answers prompt key s _ _ := by
    show Except.ok (String.join [answer prompt]) = .ok (answer prompt)
    simp [String.join]
  maxSuggestions := rfl
  hierarchyDepth := rfl

theorem plain_calm : (plainTracer source answer).Calm :=
  ⟨fun _ _ _ => rfl, fun _ _ _ => rfl, fun _ _ => rfl⟩

/-- A run that uses the cache is about to start. -/
def plainStart (root : MethodKey) (world : World Unit) : State Unit where
  session :=
    { root := root, limits := cachingLimits, identity := "o"
      startedAt := .zero }
  world := world

end

-- ============================================================= a referral

/-- The second type, which has the method. -/
def secondSource : Source.SourceFile where
  typeName := "E"
  path := "e.py"
  content := "void m() {}"
  language := "python"

/-- Two types, of which the first is without the method. -/
def twoSources (name : String) : Option Source.SourceFile :=
  if name = "E" then some secondSource
  else if name = "A" then
    some ⟨"A", "a.py", "class A {}", "python"⟩
  else none

/-- The method is not in the first type. -/
def referralText : String :=
  "### Method Not Found\n\n#### Check Parent Types:\n- **Extends**: `E`\n"

/-- Refers from the first type to the second, where every method is
described. -/
def twoAnswers (prompt : Prompt) : String :=
  if prompt.typeName = "A" then referralText else "#### Block 1: work"

/-- The reply does not find the method, and suggests the one type. -/
theorem parse_referralText (owner : String) :
    Reply.parse owner referralText = .absent ["E"] := by
  have habsent : Reply.tellsAbsence (Text.joinWith ['\n'] (Reply.preamble
      (Text.splitOn '\n' (Text.unifyPairs referralText.toList)))) = true := by
    decide +kernel
  have hsuggestions : Reply.suggestions
      (Text.unifyPairs referralText.toList) = ["E"] := by
    decide
  rw [Reply.parse]
  simp only [habsent, if_true, hsuggestions]

/-- The reply of one block does not deny anything. -/
theorem parse_work (owner : String) (suggestions : List String) :
    Reply.parse owner "#### Block 1: work" ≠ .absent suggestions := by
  have habsent : Reply.tellsAbsence (Text.joinWith ['\n'] (Reply.preamble
      (Text.splitOn '\n' (Text.unifyPairs
        "#### Block 1: work".toList)))) = false := by
    decide
  rw [Reply.parse]
  simp only [habsent, Bool.false_eq_true, if_false]
  split <;> simp

/-- The second type has the method itself. -/
theorem resolve_second (method : String) : ∃ declared,
    (plainFixed twoSources twoAnswers).resolve "E" method =
      .ok ⟨"E", secondSource, ["E"], declared⟩ := by
  let lookup : Source.Lookup Unit := fun name u =>
    ((plainFixed twoSources twoAnswers).sourceOf name, u)
  have hsuper : Source.supertypes secondSource.content
      secondSource.typeName = [] := by decide +kernel
  have hsource : twoSources "E" = some secondSource := if_pos rfl
  have hlookup : lookup "E" () = (.ok (some secondSource), ()) := by
    show (Except.ok (twoSources "E"), ()) = _
    rw [hsource]
  have hsearch : ∃ found, Source.Walk.search lookup method 10 secondSource
      {} () = (.ok (found, ⟨["E"], ["E"]⟩), ()) ∧
        found.getD secondSource = secondSource := by
    rw [Source.Walk.search]
    split
    · exact ⟨some secondSource, rfl, rfl⟩
    · rw [hsuper]
      exact ⟨none, rfl, rfl⟩
  obtain ⟨found, hrun, hfound⟩ := hsearch
  show ∃ declared, (Source.resolve lookup 10 "E" method ()).1 = _
  rw [Source.resolve, Action.bind_ok hlookup]
  dsimp only
  rw [Action.bind_ok hrun]
  rcases found with _ | source
  · exact ⟨false, rfl⟩
  · obtain rfl : source = secondSource := hfound
    exact ⟨true, rfl⟩

/-- The first type refers to the second one only, and that refers to none.
-/
theorem two_standalone : (plainFixed twoSources twoAnswers).Standalone := by
  rintro key name other ⟨r, suggestions, hr, hfind, hname, -⟩ hother
  have hwork : ∀ (key : MethodKey) (r : Resolved) (l : List String),
      r.defining ≠ "A" →
      (plainFixed twoSources twoAnswers).find key r ≠ .ok (.absent l) := by
    intro key r l hr hfind
    have hanswer : twoAnswers (Tracer.promptFor key r) =
        "#### Block 1: work" := if_neg hr
    simp only [Fixed.find, Fixed.ask, plainFixed, hanswer] at hfind
    split at hfind
    · rename_i hparse
      exact parse_work _ _ hparse
    · split at hfind <;> cases hfind
  have hfirst : r.defining = "A" := by
    by_contra hne
    exact hwork key r suggestions hne hfind
  have hanswer : twoAnswers (Tracer.promptFor key r) = referralText :=
    if_pos hfirst
  simp only [Fixed.find, Fixed.ask, plainFixed, hanswer,
    parse_referralText, Except.ok.injEq, Finding.absent.injEq] at hfind
  subst hfind
  have htried : firstItems (plainFixed twoSources twoAnswers).maxSuggestions
      ["E"] = ["E"] := rfl
  rw [htried] at hname
  obtain rfl : name = "E" := List.mem_singleton.1 hname
  obtain ⟨declared, hsecond⟩ := resolve_second key.methodName
  rw [hsecond] at hother
  cases hother
  refine ⟨⟨_, hsecond, rfl, rfl⟩, fun l a hl _ => ?_⟩
  have hne : secondSource.typeName ≠ "A" := by decide
  exact hwork _ ⟨"E", secondSource, ["E"], declared⟩ l hne hl

/-- The world after a first run. -/
def twoWorld : World Unit :=
  ((plainTracer twoSources twoAnswers).run
    (plainStart ⟨"A", "m"⟩ pairStart.world)).2.world

/-- The world after a first run has been reached while nothing varied. -/
theorem unvaried_two :
    Unvaried (plainFixed twoSources twoAnswers) twoWorld.store := by
  have hfresh : Unvaried (plainFixed twoSources twoAnswers)
      pairStart.world.store :=
    .fresh ⟨rfl, fun d hd => absurd hd (by simp [pairStart])⟩
      fun e he => absurd he (by simp [pairStart])
  rw [twoWorld]
  exact .run (plainTracer twoSources twoAnswers)
    (plainStart ⟨"A", "m"⟩ pairStart.world)
    ⟨plain_steady twoSources twoAnswers _, rfl⟩ hfresh

/-- The store after a first run has a session tier with room, and no other.
-/
theorem serviceable_two : twoWorld.store.Serviceable := by
  have hstore : (decide (0 < twoWorld.store.session.maxEntries) &&
      twoWorld.store.durable.isNone) = true := by decide +kernel
  generalize twoWorld.store = store at hstore ⊢
  rw [Bool.and_eq_true, decide_eq_true_eq, Option.isNone_iff_eq_none]
    at hstore
  refine ⟨hstore.1, fun shelf hshelf => ?_⟩
  rw [Store.shelf?, hstore.2] at hshelf
  exact absurd hshelf (by simp)

/-- A second run shows the same with the cache and without it. -/
theorem run_transparent_two :
    (plainTracer twoSources twoAnswers).Calm ∧
    (plainFixed twoSources twoAnswers).Standalone ∧
    Unvaried (plainFixed twoSources twoAnswers) twoWorld.store ∧
    twoWorld.store.Serviceable ∧
    ((plainTracer twoSources twoAnswers).run
        (plainStart ⟨"A", "m"⟩ twoWorld)).1.timeless =
      ((plainTracer twoSources twoAnswers).run
        (plainStart ⟨"A", "m"⟩ twoWorld).uncached).1.timeless ∧
    ((plainTracer twoSources twoAnswers).run
        (plainStart ⟨"A", "m"⟩ twoWorld)).2.session.steps =
      ((plainTracer twoSources twoAnswers).run
        (plainStart ⟨"A", "m"⟩ twoWorld).uncached).2.session.steps := by
  have hunvaried := unvaried_two
  have hserviceable := serviceable_two
  generalize twoWorld = world at hunvaried hserviceable ⊢
  obtain ⟨hroot, -, hsteps⟩ := run_transparent
    (plainTracer twoSources twoAnswers)
    (plain_steady twoSources twoAnswers cachingLimits.timeout)
    (plain_calm _ _) two_standalone (plainStart ⟨"A", "m"⟩ world) rfl rfl
    hunvaried hserviceable rfl
  exact ⟨plain_calm _ _, two_standalone, hunvaried, hserviceable, hroot,
    hsteps⟩

-- ===================================================== a second referral

/-- A method that calls two others. -/
def callsText : String :=
  "#### Block 1: go\n**Method Calls**:\n- **Call**: `D.m()`\n" ++
    "  - **Classification**: stepInto\n- **Call**: `A.m()`\n" ++
    "  - **Classification**: stepInto\n"

/-- Four types, of which only the last has the method. -/
def fourSources (name : String) : Option Source.SourceFile :=
  let source (content : String) : Source.SourceFile :=
    { typeName := name, path := name, content := content
      language := "python" }
  if name = "R" then some (source "void go() {}")
  else if name = "A" then some (source "class A {}")
  else if name = "D" then some (source "class D {}")
  else if name = "E" then some (source "void m() {}")
  else none

/-- Refers from `D` to `E`, and from `A` to `D`. -/
def fourAnswers (prompt : Prompt) : String :=
  if prompt.typeName = "R" then callsText
  else if prompt.typeName = "D" then referralText
  else if prompt.typeName = "A" then
    "### Method Not Found\n\n#### Check Parent Types:\n- **Extends**: `D`\n"
  else "#### Block 1: work"

/-- With the cache the method that is not in `D` is found under `D` all the
same, where it was filed when `D` was asked about, and so `A` has it too;
without it `A` has none. -/
theorem referral_not_transparent :
    (plainTracer fourSources fourAnswers).Steady
      (plainFixed fourSources fourAnswers) ∧
    (plainTracer fourSources fourAnswers).Calm ∧
    Unvaried (plainFixed fourSources fourAnswers) pairStart.world.store ∧
    (((plainTracer fourSources fourAnswers).run
      (plainStart ⟨"R", "go"⟩ pairStart.world)).2.session.registry.get?
        ⟨"A", "m"⟩).map (·.status) = some .complete ∧
    (((plainTracer fourSources fourAnswers).run
      (plainStart ⟨"R", "go"⟩ pairStart.world).uncached).2.session.registry.get?
        ⟨"A", "m"⟩).map (·.status) = some .failed := by
  refine ⟨plain_steady _ _ cachingLimits.timeout, plain_calm _ _, ?_, ?_, ?_⟩
  · exact .fresh ⟨rfl, fun d hd => absurd hd (by simp [pairStart])⟩
      fun e he => absurd he (by simp [pairStart])
  · decide +kernel
  · decide +kernel

end CallTrace.Run
