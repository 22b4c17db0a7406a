/-
A run over the cache that another run has left.

Where every method came to a description in a first run, the session tier
holds all these descriptions in the end, each under its method and for its
source, provided that nothing grew too old and nothing was pushed out. A
second run of the same root is served with them one by one. So it takes the
same decisions about every call, and nobody is asked anything.

The descriptions that the second run is served with need not be those that
were made last for a method, but those that the first run went by; that
these are the same is what has to be shown about the first run, once and
for all its methods, before the second one is followed call by call.
-/
import CallTrace.Proofs.Run.Budget
import CallTrace.Proofs.Run.Growth
import CallTrace.Proofs.Run.Lasting
import CallTrace.Proofs.Run.Transparent

namespace CallTrace.Run

open Cache.SessionTier (Lasts)
open Source (SourceFile resolved)

variable {σ τ : Type}

-- ============================================================== first run

/-- The methods that were entered and described, with the descriptions. -/
def Tour.described : Tour → List (MethodKey × Analysis)
  | done => []
  | block _ rest | passed _ rest | leaf _ _ rest | failed _ _ rest =>
    rest.described
  | entered c b inside rest =>
    (c.key, b) :: (inside.described ++ rest.described)

/-- From one state of a run to another the session tier goes on holding
what it holds. -/
structure Proceeds (F : MethodKey → String) (i : String) (s s' : State σ) :
    Prop where
  lasts : Lasts F i (fun _ => True) s.world.store.session
    s'.world.store.session
  identity : s'.session.identity = s.session.identity
  limits : s'.session.limits = s.session.limits
  awake : s'.session.cancelled = false → s.session.cancelled = false

section

variable {t : Tracer σ} {F : MethodKey → String} {i : String}
  {s s' s'' : State σ}

namespace Proceeds

theorem refl (s : State σ) : Proceeds F i s s := ⟨.refl _, rfl, rfl, id⟩

theorem trans (h : Proceeds F i s s') (h' : Proceeds F i s' s'') :
    Proceeds F i s s'' where
  lasts := h.lasts.trans h'.lasts
  identity := h'.identity.trans h.identity
  limits := h'.limits.trans h.limits
  awake := h.awake ∘ h'.awake

theorem keen (h : Proceeds F i s s') (hs : Keen t i s) : Keen t i s' where
  identity := h.identity.trans hs.identity
  uses := by
    rw [← hs.uses, Tracer.usesCache, Tracer.usesCache, h.limits]
  ttl := h.lasts.ttl.trans hs.ttl

theorem has (h : Proceeds F i s s') (heq : s'.world.store.session.evictions =
      s.world.store.session.evictions) {key : MethodKey} {a : Analysis}
    (ha : Has F i s key a) : Has F i s' key a :=
  h.lasts.holds heq key a trivial ha

theorem opened (t : Tracer σ) (f : Frame) (s : State σ) :
    Proceeds F i s (t.opened f s) where
  lasts := .refl _
  identity := rfl
  limits := rfl
  awake h := (Bool.or_eq_false_iff.1 h).1

theorem closed (t : Tracer σ) (f : Frame) (a : Analysis) (told : Bool)
    (s : State σ) : Proceeds F i s (t.closed f a told s) where
  lasts := by
    rw [Tracer.closed_store]
    exact .refl _
  identity := by cases told <;> rfl
  limits := t.closed_limits f a told s
  awake := Tracer.uncancelled_of_closed

end Proceeds

/-- A run that remains with what the session tier holds proceeds. -/
theorem Remains.proceeds (h : Remains F i (fun _ => True) s s') :
    Proceeds F i s s' where
  lasts := h.lasts
  identity := (congrArg Session.identity h.books :)
  limits := (congrArg Session.limits h.books :)
  awake hawake := by
    cases hs : s.session.cancelled with
    | false => rfl
    | true =>
      rw [h.cancelled hs] at hawake
      exact absurd hawake (by simp)

end

/-- What a session has written down about its methods. -/
def Session.account (s : Session) : Session where
  root := s.root
  limits := s.limits
  identity := s.identity
  startedAt := .zero
  stack := s.stack
  visited := s.visited
  registry := s.registry
  analyzed := s.analyzed

theorem Session.account_of_books {s s' : Session} (h : s'.books = s.books) :
    s'.account = s.account :=
  (congrArg Session.account h :)

/-- The method has a source, and the session tier holds the description as
made from it. -/
def Warm (sourceOf : String → Except Failure (Option SourceFile))
    (depth : Nat) (i : String) (s : State σ) (e : MethodKey × Analysis) :
    Prop :=
  (∃ r, resolved sourceOf depth e.1.typeName e.1.methodName = .ok r) ∧
    Has (fingerprintOf sourceOf depth) i s e.1 e.2

section

variable {t : Tracer σ} {i : String} {levels : Nat} {depth : Int}
  {cs : List CallSite} {bs : List Block} {s s' : State σ} {T : Tour}
  {sourceOf : String → Except Failure (Option SourceFile)}
  (hreads : t.Reads sourceOf)
  (hnamed : ∀ name f, sourceOf name = .ok (some f) → f.typeName = name)

include hreads hnamed

/-- Entering a method and describing it takes nothing away, and what comes
of it is held. -/
theorem Tracer.entered_proceeds {f : Frame} {r : Except Failure Analysis}
    (hbase : t.base f.key (t.opened f s) = (r, s')) (hs : Keen t i s) :
    Proceeds (fingerprintOf sourceOf t.hierarchyDepth) i s s' ∧
      s'.session.account = (t.opened f s).session.account ∧
      ∀ a, r = .ok a → a.status = .complete →
        Warm sourceOf t.hierarchyDepth i s' (f.key, a) := by
  have hopened : Proceeds (fingerprintOf sourceOf t.hierarchyDepth) i s
    (t.opened f s) := .opened t f s
  obtain ⟨hremains, hheld⟩ := base_remains (P := fun _ => True) hreads hnamed
    (hopened.keen hs) f.key
  rw [hbase] at hremains hheld
  exact ⟨hopened.trans hremains.proceeds,
    Session.account_of_books hremains.books,
    fun a ha hcomplete => (hheld a ha hcomplete).symm⟩

/-- A piece of a run takes nothing away, and all that was described in it
is held at its end. -/
theorem Course.warms (h : Course t levels depth cs bs s T s')
    (hs : Keen t i s) :
    Proceeds (fingerprintOf sourceOf t.hierarchyDepth) i s s' ∧
      (s'.world.store.session.evictions =
          s.world.store.session.evictions →
        ∀ e ∈ T.described, Warm sourceOf t.hierarchyDepth i s' e) := by
  induction h with
  | done => exact ⟨.refl _, fun _ e he => absurd he List.not_mem_nil⟩
  | block _ ih | passed _ _ ih | leaf _ _ _ _ ih => exact ih hs
  | @failed levels depth c cs bs s s₁ s' T r a told _ _ _ hbase _ _ ih =>
    obtain ⟨hentered, -, -⟩ := Tracer.entered_proceeds hreads hnamed
      (f := frameOf c depth) hbase hs
    have hclosed := hentered.trans (.closed t (frameOf c depth) a told s₁)
    obtain ⟨hrest, hheld⟩ := ih (hclosed.keen hs)
    refine ⟨hclosed.trans hrest, fun heq => hheld ?_⟩
    have := hclosed.lasts.evictions
    have := hrest.lasts.evictions
    omega
  | @entered levels depth c cs bs s s₁ s₂ s' I T b _ _ _ hbase hcomplete _ _
      ihI ih =>
    obtain ⟨hentered, -, hb⟩ := Tracer.entered_proceeds hreads hnamed
      (f := frameOf c depth) hbase hs
    have hs₁ := hentered.keen hs
    obtain ⟨hinside, hheldI⟩ := ihI hs₁
    have hs₂ := hinside.keen hs₁
    have hclosed : Proceeds (fingerprintOf sourceOf t.hierarchyDepth) i s₂
      (t.closed (frameOf c depth) (expanded b I) true s₂) := .closed ..
    obtain ⟨hrest, hheld⟩ := ih (hclosed.keen hs₂)
    have hlater := hclosed.trans hrest
    refine ⟨(hentered.trans hinside).trans hlater, fun heq => ?_⟩
    -- nothing was pushed out on any leg of the way
    have h₁ := hentered.lasts.evictions
    have h₂ := hinside.lasts.evictions
    have h₃ := hclosed.lasts.evictions
    have h₄ := hrest.lasts.evictions
    refine List.forall_mem_cons.2 ⟨?_, List.forall_mem_append.2 ⟨?_, ?_⟩⟩
    · exact (hb b rfl hcomplete).imp_right
        ((hinside.trans hlater).has (by omega))
    · intro e he
      exact (hheldI (by omega) e he).imp_right (hlater.has (by omega))
    · exact hheld (by omega)

/-- A run that was not cancelled in the end was not cancelled before. -/
theorem Course.awake (h : Course t levels depth cs bs s T s')
    (hs : Keen t i s) (hend : s'.session.cancelled = false) :
    s.session.cancelled = false :=
  (h.warms hreads hnamed hs).1.awake hend

/-- The same of a method that is left before the calls to come. -/
theorem Course.awake_closed {f : Frame} {a : Analysis} {told : Bool}
    (h : Course t levels depth cs bs (t.closed f a told s) T s')
    (hs : Keen t i s) (hend : s'.session.cancelled = false) :
    Keen t i (t.closed f a told s) ∧ s.session.cancelled = false := by
  have hclosed : Proceeds (fingerprintOf sourceOf t.hierarchyDepth) i s
    (t.closed f a told s) := .closed t f a told s
  have hkeen := hclosed.keen hs
  exact ⟨hkeen, hclosed.awake (h.awake hreads hnamed hkeen hend)⟩

end

-- ============================================================= second run

/-- Two tours in which the same has become of every call, but for the times
of the leaves. -/
inductive Tour.Alike : Tour → Tour → Prop where
  | done : Alike .done .done
  | block {b : Block} {T T' : Tour} (h : Alike T T') :
    Alike (.block b T) (.block b T')
  | passed {c : CallSite} {T T' : Tour} (h : Alike T T') :
    Alike (.passed c T) (.passed c T')
  | leaf {c : CallSite} {a a' : Analysis} {T T' : Tour}
      (ha : a'.stamped .zero = a.stamped .zero) (h : Alike T T') :
    Alike (.leaf c a T) (.leaf c a' T')
  | entered {c : CallSite} {b : Analysis} {I I' T T' : Tour}
      (hI : Alike I I') (h : Alike T T') :
    Alike (.entered c b I T) (.entered c b I' T')

theorem Tour.Alike.symm {T T' : Tour} (h : T.Alike T') : T'.Alike T := by
  induction h with
  | done => exact .done
  | block _ ih => exact .block ih
  | passed _ ih => exact .passed ih
  | leaf ha _ ih => exact .leaf ha.symm ih
  | entered _ _ ihI ih => exact .entered ihI ih

/-- They have found out the same. -/
theorem Tour.Alike.results {T T' : Tour} (h : T.Alike T') :
    T'.results = T.results := by
  induction h with
  | done => rfl
  | block _ ih | passed _ ih => rw [Tour.results, Tour.results, ih]
  | @leaf c a a' T T' ha _ ih =>
    have hcall : enrichCall c a' = enrichCall c a := by
      rw [← Tracer.enrichCall_stamped c a' .zero, ha,
        Tracer.enrichCall_stamped]
    have hnotes : notesOf a' = notesOf a := by
      have hstatus : a'.status = a.status := (congrArg Analysis.status ha :)
      rw [notesOf, notesOf, hstatus, ← Tracer.innerSummary_stamped a' .zero, ha,
        Tracer.innerSummary_stamped]
    rw [Tour.results, Tour.results, ih, hcall, hnotes]
  | entered _ _ ihI ih => rw [Tour.results, Tour.results, ihI, ih]

theorem Tour.Alike.expanded {I I' : Tour} (h : I.Alike I') (b : Analysis) :
    Run.expanded b I' = Run.expanded b I := by
  rw [Run.expanded, Run.expanded, Tour.blocks, Tour.blocks, h.results]

/-- The same methods were entered in them. -/
theorem Tour.Alike.entries {T T' : Tour} (h : T.Alike T') :
    T'.entries = T.entries := by
  induction h with
  | done => rfl
  | block _ ih | passed _ ih | leaf _ _ ih => exact ih
  | entered _ _ ihI ih => rw [Tour.entries, Tour.entries, ihI, ih]

/-- The same analyses were registered in them. -/
theorem Tour.Alike.registered {T T' : Tour} (h : T.Alike T') :
    T'.registered = T.registered := by
  induction h with
  | done => rfl
  | block _ ih | passed _ ih | leaf _ _ ih => exact ih
  | entered hI _ ihI ih =>
    rw [Tour.registered, Tour.registered, ihI, ih, hI.expanded]

section

variable {t : Tracer σ} {u : Tracer τ} {s : State σ} {s' : State τ}

/-- What is known of a method without entering it depends on the account
alone, but for the time. -/
theorem Unentered.alike {levels : Nat} {key : MethodKey} {a a' : Analysis}
    (h : Unentered levels s key a) (h' : Unentered levels s' key a')
    (hsame : s'.session.account = s.session.account) :
    a'.stamped .zero = a.stamped .zero := by
  cases levels with
  | zero =>
    rw [Unentered] at h h'
    rw [h, h']
    rfl
  | succ levels =>
    rw [Unentered] at h h'
    have hknown := Tracer.known?_stamped s.session key s.timeOfDay
    have hknown' := Tracer.known?_stamped s'.session key s'.timeOfDay
    rw [h] at hknown
    rw [h'] at hknown'
    have hledger : Tracer.known? s'.session.ledger key
        (fun st reason => .placeholder key st reason .zero) =
        Tracer.known? s.session.ledger key
          fun st reason => .placeholder key st reason .zero :=
      (congrArg (fun x : Session => Tracer.known? x.ledger key
        fun st reason => .placeholder key st reason .zero) hsame :)
    exact Option.some.inj (hknown'.trans (hledger.trans hknown.symm))

/-- What may be entered depends on the account of the session alone. -/
theorem Enterable.alike {key : MethodKey} (h : Enterable s.session key)
    (hsame : s'.session.account = s.session.account) :
    Enterable s'.session key where
  fresh := by
    have hvisited : s'.session.visited = s.session.visited :=
      (congrArg Session.visited hsame :)
    rw [hvisited]
    exact h.fresh
  room := by
    have hanalyzed : s'.session.analyzed = s.session.analyzed :=
      (congrArg Session.analyzed hsame :)
    have hlimits : s'.session.limits = s.session.limits :=
      (congrArg Session.limits hsame :)
    rw [hanalyzed, hlimits]
    exact h.room
  nameable := h.nameable

theorem Enterable.not_unentered {levels : Nat} {key : MethodKey}
    {a : Analysis} (h : Enterable s.session key) :
    ¬Unentered (levels + 1) s key a := by
  intro ha
  rw [Unentered, Tracer.known?_eq_none.2 h] at ha
  exact absurd ha (by simp)

theorem account_opened (t : Tracer σ) (u : Tracer τ) (f : Frame)
    (hsame : s'.session.account = s.session.account) :
    (u.opened f s').session.account = (t.opened f s).session.account :=
  (congrArg (fun x : Session => (x.enter f).account) hsame :)

/-- Leaving a method changes the accounts of two runs alike. -/
theorem account_closed (t : Tracer σ) (u : Tracer τ) (f : Frame)
    (a : Analysis) (told : Bool)
    (hsame : s'.session.account = s.session.account) :
    (u.closed f a told s').session.account =
      (t.closed f a told s).session.account := by
  have hclosed : (s'.session.register a).pop.account =
      (s.session.register a).pop.account :=
    (congrArg (fun x : Session => (x.register a).pop.account) hsame :)
  cases told <;> exact hclosed

end

/-- The tour `T'` from `w` to `w'` is like `T`, which ends in `s'`, and
nobody was asked and nothing pushed out on the way. -/
structure Repeats (T : Tour) (s' : State σ) (w : State τ) (T' : Tour)
    (w' : State τ) : Prop where
  alike : T.Alike T'
  account : w'.session.account = s'.session.account
  oracleCalls : w'.session.oracleCalls = w.session.oracleCalls
  evictions : w'.world.store.session.evictions =
    w.world.store.session.evictions

/-- The calls of a method that was entered, and the calls after it. -/
theorem Repeats.entered {u : Tracer τ} {I T I' T' : Tour} {s₂ s' : State σ}
    {w w₁ w₂ w' : State τ} {c : CallSite} {b a : Analysis} {f : Frame}
    {told : Bool} (hI : Repeats I s₂ w₁ I' w₂)
    (hT : Repeats T s' (u.closed f a told w₂) T' w')
    (hcalls : w₁.session.oracleCalls = w.session.oracleCalls)
    (hevictions : w₁.world.store.session.evictions =
      w.world.store.session.evictions) :
    Repeats (.entered c b I T) s' w (.entered c b I' T') w' where
  alike := .entered hI.alike hT.alike
  account := hT.account
  oracleCalls := by
    rw [hT.oracleCalls, Tracer.closed_oracleCalls, hI.oracleCalls, hcalls]
  evictions := by
    rw [hT.evictions, Tracer.closed_store, hI.evictions, hevictions]

section

variable {t : Tracer σ} {u : Tracer τ} {i : String}
  {sourceOf : String → Except Failure (Option SourceFile)}
  (ht : t.Reads sourceOf) (hu : u.Reads sourceOf)
  (hnamed : ∀ name f, sourceOf name = .ok (some f) → f.typeName = name)

include hu hnamed

/-- A method that is held is entered, and described as it is held, without
asking anybody. -/
theorem Tracer.entered_again {f : Frame} {w w₁ : State τ}
    {r : Except Failure Analysis} {b : Analysis}
    (hbase : u.base f.key (u.opened f w) = (r, w₁)) (hw : Keen u i w)
    (hb : Warm sourceOf u.hierarchyDepth i w (f.key, b))
    (hawake : w₁.session.cancelled = false) :
    r = .ok b ∧ w₁.session.oracleCalls = w.session.oracleCalls ∧
      w₁.world.store.session.evictions =
        w.world.store.session.evictions := by
  have hopened : Proceeds (fingerprintOf sourceOf u.hierarchyDepth) i w
    (u.opened f w) := .opened u f w
  obtain ⟨⟨found, hfound⟩, hheld⟩ := hb
  obtain ⟨w₁', hrun, hcalls, hevictions⟩ := base_of_has hu hnamed
    (hopened.keen hw) hfound (hopened.has rfl hheld) (by rw [hbase]; exact hawake)
  rw [hbase] at hrun
  obtain ⟨rfl, rfl⟩ := Prod.mk.inj hrun
  exact ⟨rfl, hcalls, hevictions⟩

include ht

/-- A run for which every method of the first one is held takes the same
course, and asks nobody. -/
theorem Course.again {levels : Nat} {depth : Int} {cs : List CallSite}
    {bs : List Block} {s s' : State σ} {T : Tour}
    (h : Course t levels depth cs bs s T s') (hs : Keen t i s)
    (hcomplete : ∀ a ∈ T.registered, a.status = .complete)
    (hend : s'.session.cancelled = false) :
    ∀ {w w' : State τ} {T' : Tour},
      Course u levels depth cs bs w T' w' → Keen u i w →
      (∀ e ∈ T.described, Warm sourceOf u.hierarchyDepth i w e) →
      w'.session.cancelled = false →
      w.session.account = s.session.account →
      Repeats T s' w T' w' := by
  induction h with
  | done =>
    intro w w' T' hw _ _ _ hsame
    cases hw
    exact ⟨.done, hsame, rfl, rfl⟩
  | block _ ih =>
    intro w w' T' hw hkeen hwarm hlast hsame
    cases hw with
    | block hrest =>
      have hrest := ih hs hcomplete hend hrest hkeen hwarm hlast hsame
      exact { hrest with alike := .block hrest.alike }
  | passed hpass hrest ih =>
    intro w w' T' hw hkeen hwarm hlast hsame
    have hdecision :=
      hpass.resolve_right (by simp [hrest.awake ht hnamed hs hend])
    cases hw with
    | passed _ hrest' =>
      have hrest := ih hs hcomplete hend hrest' hkeen hwarm hlast hsame
      exact { hrest with alike := .passed hrest.alike }
    | leaf hc | failed hc | entered hc => exact absurd hc hdecision
  | leaf hc _ ha hrest ih =>
    intro w w' T' hw hkeen hwarm hlast hsame
    have hawake := hw.awake hu hnamed hkeen hlast
    cases hw with
    | passed hpass =>
      exact absurd hc (hpass.resolve_right (by simp [hawake]))
    | leaf _ _ ha' hrest' =>
      have hrest := ih hs hcomplete hend hrest' hkeen hwarm hlast hsame
      exact { hrest with alike := .leaf (ha.alike ha' hsame) hrest.alike }
    | failed _ _ hnew | entered _ _ hnew =>
      exact absurd ha (hnew.alike hsame.symm).not_unentered
  | @failed levels depth c cs bs s s₁ s' T r a told _ _ _ _ ha _ _ =>
    -- a method that came to nothing is not complete
    intro w w' T' _ _ _ _ _
    have hstatus := hcomplete a (List.mem_cons_self ..)
    cases ha with
    | missing | failed => exact absurd hstatus (by simp [Analysis.placeholder])
    | leaf hleaf => exact absurd hstatus hleaf
  | @entered levels depth c cs bs s s₁ s₂ s' I T b hc _ hnew hbase hb hinside
      hrest ihI ih =>
    intro w w' T' hw hkeen hwarm hlast hsame
    have hawake := hw.awake hu hnamed hkeen hlast
    obtain ⟨hwarmb, hwarmrest⟩ := List.forall_mem_cons.1 hwarm
    obtain ⟨hwarmI, hwarmT⟩ := List.forall_mem_append.1 hwarmrest
    obtain ⟨hcompleteI, hcompleteT⟩ := List.forall_mem_append.1 hcomplete
    obtain ⟨hentered, haccount, -⟩ := Tracer.entered_proceeds ht hnamed
      (f := frameOf c depth) hbase hs
    have hs₁ := hentered.keen hs
    have hs₂ := (hinside.warms ht hnamed hs₁).1.keen hs₁
    obtain ⟨hs₃, hend₂⟩ := hrest.awake_closed ht hnamed hs₂ hend
    cases hw with
    | passed hpass =>
      exact absurd hc (hpass.resolve_right (by simp [hawake]))
    | leaf _ _ ha' => exact absurd ha' (hnew.alike hsame).not_unentered
    | @failed _ _ _ _ _ _ w₁ _ T' r' a' told _ _ _ hbase' ha' hrest' =>
      have hw₁ := (Tracer.entered_proceeds hu hnamed (f := frameOf c depth)
        hbase' hkeen).1.keen hkeen
      obtain ⟨-, hawake₁⟩ := hrest'.awake_closed hu hnamed hw₁ hlast
      obtain ⟨rfl, -⟩ := Tracer.entered_again hu hnamed
        (f := frameOf c depth) hbase' hkeen hwarmb hawake₁
      cases ha' with
      | leaf hleaf => exact absurd hb hleaf
    | @entered _ _ _ _ _ _ w₁ w₂ _ I' T' b' _ _ _ hbase' _ hinside' hrest' =>
      obtain ⟨hentered', haccount', -⟩ := Tracer.entered_proceeds hu hnamed
        (f := frameOf c depth) hbase' hkeen
      have hw₁ := hentered'.keen hkeen
      have hwithin := (hinside'.warms hu hnamed hw₁).1
      have hw₂ := hwithin.keen hw₁
      obtain ⟨hw₃, hawake₂⟩ := hrest'.awake_closed hu hnamed hw₂ hlast
      obtain ⟨hr, hcalls, hevictions⟩ := Tracer.entered_again hu hnamed
        (f := frameOf c depth) hbase' hkeen hwarmb (hwithin.awake hawake₂)
      obtain rfl : b' = b := Except.ok.inj hr
      have hI := ihI hs₁ hcompleteI hend₂ hinside' hw₁
        (fun e he => (hwarmI e he).imp_right (hentered'.has hevictions))
        hawake₂ (haccount'.trans
          ((account_opened t u _ hsame).trans haccount.symm))
      -- what is held outlives the method and its calls
      have hleft : Proceeds (fingerprintOf sourceOf u.hierarchyDepth) i w
          (u.closed (frameOf c depth) (expanded b' I') true w₂) :=
        (hentered'.trans hwithin).trans (.closed ..)
      have hstill := (congrArg (·.session.evictions)
        (u.closed_store (frameOf c depth) (expanded b' I') true w₂)).trans
          (hI.evictions.trans hevictions)
      have hT := ih hs₃ (List.forall_mem_cons.1 hcompleteT).2 hend hrest' hw₃
        (fun e he => (hwarmT e he).imp_right (hleft.has hstill)) hlast (by
          rw [hI.alike.expanded]
          exact account_closed t u _ _ true hI.account)
      exact hI.entered hT hcalls hevictions

end

-- ================================================================== runs

/-- The state with no limit of age in the session tier. -/
def State.ageless (s : State σ) : State σ :=
  { s with world.store.session := s.world.store.session.ageless }

/-- Nothing in the session tier is too old for the run: it goes as it would
with no limit of age. -/
structure Tracer.Unexpired (t : Tracer σ) (s : State σ) : Prop where
  outcome : (t.run s.ageless).1 = (t.run s).1
  session : (t.run s.ageless).2.session = (t.run s).2.session
  tier : (t.run s.ageless).2.world.store.session =
    (t.run s).2.world.store.session.ageless

/-- The run starts afresh and uses the cache. Nothing is too old for it,
nothing is pushed out by it, and it is not cancelled. -/
structure Tracer.Undisturbed (t : Tracer σ) (s : State σ) : Prop where
  fresh : s.session.Fresh
  uses : t.usesCache s = true
  unexpired : t.Unexpired s
  kept : (t.run s).2.world.store.session.evictions =
    s.world.store.session.evictions
  awake : (t.run s).2.session.cancelled = false

instance (s : Session) : Decidable s.Fresh :=
  decidable_of_iff (s.stack = [] ∧ s.visited = [] ∧ s.registry = [] ∧
    s.analyzed = 0 ∧ s.oracleCalls = 0)
    ⟨fun ⟨h₁, h₂, h₃, h₄, h₅⟩ => ⟨h₁, h₂, h₃, h₄, h₅⟩,
      fun ⟨h₁, h₂, h₃, h₄, h₅⟩ => ⟨h₁, h₂, h₃, h₄, h₅⟩⟩

instance (t : Tracer σ) (s : State σ) : Decidable (t.Unexpired s) :=
  decidable_of_iff ((t.run s.ageless).1 = (t.run s).1 ∧
    (t.run s.ageless).2.session = (t.run s).2.session ∧
    (t.run s.ageless).2.world.store.session =
      (t.run s).2.world.store.session.ageless)
    ⟨fun ⟨h₁, h₂, h₃⟩ => ⟨h₁, h₂, h₃⟩, fun ⟨h₁, h₂, h₃⟩ => ⟨h₁, h₂, h₃⟩⟩

instance (t : Tracer σ) (s : State σ) : Decidable (t.Undisturbed s) :=
  decidable_of_iff (s.session.Fresh ∧ t.usesCache s = true ∧
    t.Unexpired s ∧ (t.run s).2.world.store.session.evictions =
      s.world.store.session.evictions ∧
    (t.run s).2.session.cancelled = false)
    ⟨fun ⟨h₁, h₂, h₃, h₄, h₅⟩ => ⟨h₁, h₂, h₃, h₄, h₅⟩,
      fun ⟨h₁, h₂, h₃, h₄, h₅⟩ => ⟨h₁, h₂, h₃, h₄, h₅⟩⟩

namespace Tracer

variable {t : Tracer σ} {u : Tracer τ} {s s₁ : State σ} {w w₁ : State τ}
  {T T' : Tour} {a a' : Analysis}

@[simp] theorem concluded_cancelled (r : Outcome) (s : State σ) :
    (concluded r s).session.cancelled = s.session.cancelled := by
  cases r <;> rfl

@[simp] theorem concluded_store (r : Outcome) (s : State σ) :
    (concluded r s).world.store = s.world.store := by
  cases r <;> rfl

@[simp] theorem concluded_oracleCalls (r : Outcome) (s : State σ) :
    (concluded r s).session.oracleCalls = s.session.oracleCalls := by
  cases r <;> rfl

/-- A root that is not entered comes to what is known of it, and one that is
entered and described to its description with the calls. -/
theorem Surveyed.outcome (h : t.Surveyed s T a s₁)
    (hlike : T.Alike T') : (t.run s).1 = .ok a := by
  obtain ⟨hcourse, -, -, -, hstarts, hgives, -⟩ := h
  cases hstarts with
  | leaf =>
    cases hcourse with
    | leaf _ _ ha _ =>
      have hknown : known? s.session
          (frameOf (rootCall s.session.root) (-1)).key (fun st reason =>
            .placeholder (frameOf (rootCall s.session.root) (-1)).key st
              reason s.timeOfDay) = some a := ha
      rw [run_eq, trace, stateM_get_bind, hknown]
      rfl
  | failed => cases hlike
  | entered hexpanded =>
    cases hcourse with
    | entered _ _ _ _ hb _ _ =>
      rcases hr : (t.run s).1 with missing | b
      · rw [hr, Gives, hexpanded] at hgives
        have hstatus : Status.complete = .failed :=
          hb.symm.trans (congrArg Analysis.status hgives :)
        exact absurd hstatus (by simp)
      · rw [hr, Gives] at hgives
        rw [hgives]

/-- What comes of the root in two tours that are alike. -/
theorem Starts.alike {c : CallSite} (h : Starts c a .done T)
    (h' : Starts c a' .done T') (hlike : T.Alike T') :
    a'.stamped .zero = a.stamped .zero ∧ (T.entries ≠ [] → a' = a) := by
  cases h with
  | leaf =>
    cases hlike with
    | leaf ha =>
      cases h' with
      | leaf => exact ⟨ha, fun hentered => absurd rfl hentered⟩
  | failed => cases hlike
  | entered hexpanded =>
    cases hlike with
    | entered hI =>
      cases h' with
      | entered hexpanded' =>
        rw [hexpanded, hexpanded', hI.expanded]
        exact ⟨rfl, fun _ => rfl⟩

/-- The steps of a run that came to an analysis. -/
theorem Surveyed.steps (h : t.Surveyed s T a s₁) (hlike : T.Alike T') :
    (t.run s).2.session.steps = Trace.assemble T.registered a := by
  have hregistry : s₁.session.registry = T.registered := by
    rw [← h.registry, h.ended, concluded_registry]
  rw [h.ended, h.outcome hlike, ← hregistry]
  rfl

end Tracer

/-- Two fresh sessions for the same root. -/
theorem Session.Fresh.account {s s' : Session} (h : s.Fresh) (h' : s'.Fresh)
    (hroot : s'.root = s.root) (hlimits : s'.limits = s.limits)
    (hidentity : s'.identity = s.identity) : s'.account = s.account := by
  simp only [Session.account, hroot, hlimits, hidentity, h.stack, h'.stack,
    h.visited, h'.visited, h.registry, h'.registry, h.analyzed, h'.analyzed]

namespace Tracer.Undisturbed

variable {t : Tracer σ} {s : State σ} (h : t.Undisturbed s)

include h

theorem keen : Keen t s.session.identity s.ageless := ⟨rfl, h.uses, rfl⟩

/-- With no limit of age the run makes a tour that ends like it. -/
theorem surveyed (hstore : Reachable s.world.store) :
    ∃ T a s₁, t.Surveyed s.ageless T a s₁ ∧
      s₁.session.cancelled = false ∧
      s₁.session.oracleCalls = (t.run s).2.session.oracleCalls ∧
      s₁.world.store.session =
        (t.run s).2.world.store.session.ageless := by
  have hobeys : s.ageless.world.store.Obeys Cache.bareRule :=
    { hstore.obeys with session := hstore.obeys.session }
  obtain ⟨T, a, s₁, hrun⟩ := t.run_surveyed (s := s.ageless) h.fresh hobeys
  refine ⟨T, a, s₁, hrun, ?_, ?_, ?_⟩
  · rw [← h.awake, ← h.unexpired.session, hrun.ended, concluded_cancelled]
  · rw [← h.unexpired.session, hrun.ended, concluded_oracleCalls]
  · rw [← h.unexpired.tier, hrun.ended, concluded_store]

end Tracer.Undisturbed

/-- A second run of a root over the cache that a first one has left asks the
oracle nothing, whatever the oracle would have answered. It enters the same
methods in the same order, and the same analyses are registered; the steps
are the same, and so is the analysis of the root, as of a root that was
entered, or but for its time. This takes sources that stay as they are and
are found under their own names, the same limits and the same identity of
the oracle, and that everything the first run registered is complete. -/
theorem run_again (t : Tracer σ) (u : Tracer τ)
    {sourceOf : String → Except Failure (Option SourceFile)}
    (ht : t.Reads sourceOf) (hu : u.Reads sourceOf)
    (hnamed : ∀ name f, sourceOf name = .ok (some f) → f.typeName = name)
    (hdepth : u.hierarchyDepth = t.hierarchyDepth)
    (s : State σ) (hreachable : Reachable s.world.store)
    (hs : t.Undisturbed s)
    (hcomplete : ∀ a ∈ (t.run s).2.session.registry, a.status = .complete)
    (s' : State τ) (hstore : s'.world.store = (t.run s).2.world.store)
    (hs' : u.Undisturbed s') (hroot : s'.session.root = s.session.root)
    (hlimits : s'.session.limits = s.session.limits)
    (hidentity : s'.session.identity = s.session.identity) :
    let first := t.run s
    let second := u.run s'
    (u.overheard.run s'.overheard).2.asked = [] ∧
      second.2.session.oracleCalls = 0 ∧
      second.2.session.visited = first.2.session.visited ∧
      second.2.session.registry = first.2.session.registry ∧
      second.2.session.steps = first.2.session.steps ∧
      second.1.timeless = first.1.timeless ∧
      (first.2.session.visited ≠ [] → second.1 = first.1) := by
  intro first second
  obtain ⟨T, a, s₁, hrun, hawake, -, htier⟩ := hs.surveyed hreachable
  obtain ⟨T', a', w₁, hrun', hawake', hcalls', -⟩ := hs'.surveyed
    (hstore ▸ hreachable.run t s)
  have hregistry : first.2.session.registry = T.registered := by
    rw [← hs.unexpired.session, hrun.registry]
  have hvisited : first.2.session.visited = T.entries.reverse := by
    rw [← hs.unexpired.session, hrun.visited]
  have hkeen' : Keen u s.session.identity s'.ageless := hidentity ▸ hs'.keen
  have hwarm : ∀ e ∈ T.described, Warm sourceOf u.hierarchyDepth
      s.session.identity s'.ageless e := by
    have hheld := (hrun.course.warms ht hnamed hs.keen).2
      ((congrArg (·.evictions) htier).trans hs.kept)
    rw [hdepth]
    refine fun e he => (hheld e he).imp_right fun h => ?_
    have hsame : s'.ageless.world.store.session = s₁.world.store.session := by
      rw [htier, ← hstore]
      rfl
    rw [Has, hsame]
    exact h
  have hcourse : Course u (s.session.limits.maxDepth + 1) (-1)
      [Tracer.rootCall s.session.root] [] s'.ageless T' w₁ := by
    rw [← hlimits, ← hroot]
    exact hrun'.course
  have hagain := hrun.course.again ht hu hnamed hs.keen
    (hregistry ▸ hcomplete) hawake hcourse hkeen' hwarm hawake'
    (hs.fresh.account hs'.fresh hroot hlimits hidentity)
  obtain ⟨hroot', hentered⟩ := hrun.starts.alike
    (hroot ▸ hrun'.starts) hagain.alike
  have houtcome : first.1 = .ok a := by
    rw [← hs.unexpired.outcome]
    exact hrun.outcome hagain.alike
  have houtcome' : second.1 = .ok a' := by
    rw [← hs'.unexpired.outcome]
    exact hrun'.outcome hagain.alike.symm
  have hsilent : second.2.session.oracleCalls = 0 := by
    rw [← hcalls', hagain.oracleCalls]
    exact hs'.fresh.oracleCalls
  refine ⟨?_, hsilent, ?_, ?_, ?_, ?_, ?_⟩
  · refine List.eq_nil_of_length_eq_zero ?_
    rw [u.asked_run s' hs'.fresh.oracleCalls]
    exact hsilent
  · rw [hvisited, ← hs'.unexpired.session, hrun'.visited,
      hagain.alike.entries]
  · rw [hregistry, ← hs'.unexpired.session, hrun'.registry,
      hagain.alike.registered]
  · rw [← hs.unexpired.session, ← hs'.unexpired.session,
      hrun.steps hagain.alike, hrun'.steps hagain.alike.symm,
      hagain.alike.registered, ← Trace.assemble_stamped _ a' .zero, hroot',
      Trace.assemble_stamped]
  · rw [houtcome, houtcome']
    exact congrArg Except.ok hroot'
  · intro hne
    rw [houtcome, houtcome', hentered]
    intro hnil
    exact hne (by rw [hvisited, hnil]; rfl)

/-- The sources are found under their own names. -/
theorem two_named (name : String) (f : SourceFile)
    (h : Except.ok (twoSources name) =
      (.ok (some f) : Except Failure (Option SourceFile))) :
    f.typeName = name := by
  have hf : twoSources name = some f := Except.ok.inj h
  rw [twoSources] at hf
  split at hf
  · rename_i hname
    obtain rfl := Option.some.inj hf
    exact hname.symm
  · split at hf
    · rename_i hname
      obtain rfl := Option.some.inj hf
      exact hname.symm
    · exact absurd hf (by simp)

theorem plain_reads (source : String → Option SourceFile)
    (answer : Prompt → String) :
    (plainTracer source answer).Reads fun name => .ok (source name) :=
  fun _ _ _ => rfl

/-- A run that finds a method on a suggestion, and one after it with an
oracle that has nothing to say: nothing disturbs them, and all that the
first one registers is complete. -/
theorem undisturbed_two :
    (plainTracer twoSources twoAnswers).Undisturbed
      (plainStart ⟨"A", "m"⟩ pairStart.world) ∧
    (plainTracer twoSources fun _ => "").Undisturbed
      (plainStart ⟨"A", "m"⟩ twoWorld) ∧
    (∀ a ∈ ((plainTracer twoSources twoAnswers).run
      (plainStart ⟨"A", "m"⟩ pairStart.world)).2.session.registry,
      a.status = .complete) ∧
    ((plainTracer twoSources twoAnswers).run
      (plainStart ⟨"A", "m"⟩ pairStart.world)).2.session.visited ≠ [] := by
  decide +kernel

/-- The second run asks nothing and comes to what the first one came to. -/
theorem run_again_two :
    (plainTracer twoSources fun _ => "").Undisturbed
        (plainStart ⟨"A", "m"⟩ twoWorld) ∧
      ((plainTracer twoSources fun _ => "").overheard.run
        (plainStart ⟨"A", "m"⟩ twoWorld).overheard).2.asked = [] ∧
      ((plainTracer twoSources fun _ => "").run
        (plainStart ⟨"A", "m"⟩ twoWorld)).1 =
      ((plainTracer twoSources twoAnswers).run
        (plainStart ⟨"A", "m"⟩ pairStart.world)).1 := by
  obtain ⟨hfirst, hsecond, hcomplete, hvisited⟩ := undisturbed_two
  have hworld : twoWorld = ((plainTracer twoSources twoAnswers).run
      (plainStart ⟨"A", "m"⟩ pairStart.world)).2.world := by
    unfold twoWorld
    rfl
  generalize twoWorld = world at hsecond hworld ⊢
  have hagain := run_again (plainTracer twoSources twoAnswers)
    (plainTracer twoSources fun _ => "") (plain_reads _ _) (plain_reads _ _)
    two_named rfl (plainStart ⟨"A", "m"⟩ pairStart.world)
    pairStart_reachable hfirst hcomplete
    (plainStart ⟨"A", "m"⟩ world) (congrArg World.store hworld) hsecond
    rfl rfl rfl
  exact ⟨hsecond, hagain.1, hagain.2.2.2.2.2.2 hvisited⟩

end CallTrace.Run
