/-
What a run that uses the cache leaves in it.

Sources that bear the names under which they are looked up give each method
one source: the one it is resolved to. Whoever describes a method, for its
own sake or on a suggestion, looks it up and files it for that source. So
as long as nothing grows too old and nothing is pushed out, the session
tier goes on holding what it holds, and a method that was described is held
as it was described.

Of the one key that is filed twice, for a method that was found on a
suggestion, nothing was held before: else the suggestions would not have
been asked for.
-/
import CallTrace.Proofs.Cache.Lasting
import CallTrace.Proofs.Run.Listen
import CallTrace.Proofs.Run.Moves

namespace CallTrace.Run

open Cache (Store)
open Cache.SessionTier (Lasts)
open Number (Double)
open Source (Resolved SourceFile resolved resolved_defining)

variable {σ : Type}

-- ======================================================== one source each

/-- The fingerprint of the source that a method is resolved to. -/
def fingerprintOf (sourceOf : String → Except Failure (Option SourceFile))
    (depth : Nat) (key : MethodKey) : String :=
  match resolved sourceOf depth key.typeName key.methodName with
  | .ok r => Source.fingerprint r.source.content
  | .error _ => ""

section

variable {sourceOf : String → Except Failure (Option SourceFile)}
  {depth : Nat} {key : MethodKey} {r : Resolved}

theorem fingerprintOf_resolved
    (h : resolved sourceOf depth key.typeName key.methodName = .ok r) :
    fingerprintOf sourceOf depth key =
      Source.fingerprint r.source.content := by
  rw [fingerprintOf, h]

/-- It is the same wherever a method of that name is resolved to it. -/
theorem fingerprintOf_defining
    (hnamed : ∀ name f, sourceOf name = .ok (some f) → f.typeName = name)
    {typeName method : String}
    (h : resolved sourceOf depth typeName method = .ok r) :
    fingerprintOf sourceOf depth ⟨r.defining, method⟩ =
      Source.fingerprint r.source.content := by
  obtain ⟨r', hr', hsame⟩ := resolved_defining hnamed h
  have hkey : fingerprintOf sourceOf depth ⟨r.defining, method⟩ =
      Source.fingerprint r'.source.content := fingerprintOf_resolved hr'
  rw [hkey, hsame]

end

-- ================================================================ states

/-- The run uses the cache, asks the oracle `i`, and nothing in the session
tier grows too old. -/
structure Keen (t : Tracer σ) (i : String) (s : State σ) : Prop where
  identity : s.session.identity = i
  uses : t.usesCache s = true
  ttl : s.world.store.session.ttl = .infinite false

/-- From one state to another the session tier goes on holding what it
holds under the keys that satisfy `P`. Only the counts of the session
change, and a cancelled run stays cancelled. -/
structure Remains (F : MethodKey → String) (i : String)
    (P : MethodKey → Prop) (s s' : State σ) : Prop where
  lasts : Lasts F i P s.world.store.session s'.world.store.session
  books : s'.session.books = s.session.books
  cancelled : s.session.cancelled = true → s'.session.cancelled = true

section

variable {t : Tracer σ} {F : MethodKey → String} {i : String}
  {P : MethodKey → Prop} {s s' s'' : State σ}

namespace Remains

theorem refl (s : State σ) : Remains F i P s s := ⟨.refl _, rfl, id⟩

theorem trans (s s' s'' : State σ) (h : Remains F i P s s')
    (h' : Remains F i P s' s'') : Remains F i P s s'' :=
  ⟨h.lasts.trans h'.lasts, h'.books.trans h.books, h'.cancelled ∘ h.cancelled⟩

theorem heard {β : Type} (s : State σ) (a : Answer σ β) :
    Remains F i P s (s.heard a) where
  lasts := .refl _
  books := rfl
  cancelled h := by
    show (s.session.cancelled || a.cancels) = true
    rw [h, Bool.true_or]

theorem counted {session : Session}
    (hbooks : session.books = s.session.books)
    (hcancelled : session.cancelled = s.session.cancelled) :
    Remains F i P s { s with session := session } :=
  ⟨.refl _, hbooks, fun h => hcancelled.trans h⟩

theorem stored {store : Store} (h : Store.Outlasts F i P s.world.store store) :
    Remains F i P s { s with world.store := store } := ⟨h, rfl, id⟩

theorem widen {key : MethodKey}
    (h : Remains F i (fun k => P k ∧ k ≠ key) s s')
    (hnone : ∀ a, ¬s.world.store.session.Holds key a (F key) i) :
    Remains F i P s s' :=
  ⟨h.lasts.widen fun _ => hnone, h.books, h.cancelled⟩

theorem listens (t : Tracer σ) : Listens t (Remains F i P) where
  refl := refl
  trans := trans
  looked _ _ := heard _ _
  answered _ _ := heard _ _
  told _ _ := heard _ _
  counted _ := counted rfl rfl
  slept _ _ := ⟨.refl _, rfl, id⟩

theorem keen (h : Remains F i P s s') (hs : Keen t i s) : Keen t i s' where
  identity := (congrArg Session.identity h.books :).trans hs.identity
  uses := by
    have hlimits : s'.session.limits = s.session.limits :=
      (congrArg Session.limits h.books :)
    rw [← hs.uses, Tracer.usesCache, Tracer.usesCache, hlimits]
  ttl := h.lasts.ttl.trans hs.ttl

end Remains

/-- The session tier holds the description of the method. -/
def Has (F : MethodKey → String) (i : String) (s : State σ)
    (key : MethodKey) (a : Analysis) : Prop :=
  s.world.store.session.Holds key a (F key) i

-- ================================================================= cache

/-- The state after an entry was served. -/
def State.served (s : State σ) (key : MethodKey) (e : Cache.Held) :
    State σ :=
  { s with
    world.store.session := s.world.store.session.hit key e
    session.hits := s.session.hits + 1 }

namespace Tracer

variable {key : MethodKey} {r : Resolved}

/-- The cache is asked and gives what it holds; nothing that it holds is
lost. -/
theorem cached_remains (hs : Keen t i s) :
    Action.Leads (Remains F i P) (t.cached key (F key)) s fun result s' =>
      (∀ a, result = .ok (some a) → Has F i s' key a) ∧
      (result = .ok none → ∀ a, ¬Has F i s' key a) := by
  have hleads : Action.Leads (Store.Outlasts F i P)
      (Store.lookup s.world.clock key (F key) i) s.world.store
      fun result s' => result = .ok none → s'.session.Lacks key :=
    Store.lookup_leads hs.ttl
  obtain ⟨hlasts, hlacks⟩ := hleads
  rw [cached]
  refine .look ?_
  rw [if_pos hs.uses, hs.identity]
  rcases hr : Store.lookup s.world.clock key (F key) i s.world.store with
    ⟨e | found, store⟩
  · rw [hr] at hlasts
    have hrun : onStore (fun clock => Store.lookup clock key (F key) i) s =
        (.error e, { s with world.store := store }) := by
      rw [onStore, hr]
    exact .failed hrun (.stored hlasts)
      ⟨fun a ha => absurd ha (by simp), fun hnone => absurd hnone (by simp)⟩
  · have hheld : ∀ a, found = some a →
        store.session.Holds key a (F key) i := by
      rintro a rfl
      have hserved : (Store.lookup s.world.clock key (F key) i
          s.world.store).1 = .ok (some a) := by rw [hr]
      have hlookup := Store.holds_lookup hserved
      rwa [hr] at hlookup
    rw [hr] at hlasts hlacks
    refine .step Remains.trans (x := found) (by rw [onStore, hr])
      (.stored hlasts) ?_
    cases found with
    | none =>
      refine .step Remains.trans rfl (.counted rfl rfl) (.pure Remains.refl
        ⟨fun a ha => absurd ha (by simp), fun _ a => ?_⟩)
      exact (hlacks rfl).not_holds
    | some a =>
      refine .step Remains.trans rfl (.counted rfl rfl) (.pure Remains.refl
        ⟨fun b hb => ?_, fun hnone => absurd hnone (by simp)⟩)
      exact hheld b (Except.ok.inj hb)

/-- What is held is found. -/
theorem cached_of_has {a : Analysis} (hs : Keen t i s)
    (h : Has F i s key a) :
    ∃ e, t.cached key (F key) s = (.ok (some a), s.served key e) := by
  have hlookup : ∃ e, Store.lookup s.world.clock key (F key) i
      s.world.store = (.ok (some a), { s.world.store with
        session := s.world.store.session.hit key e }) :=
    Store.lookup_of_holds hs.ttl h
  obtain ⟨e, hrun⟩ := hlookup
  refine ⟨e, ?_⟩
  have hstore : onStore (fun clock => Store.lookup clock key (F key) i) s =
      (.ok (some a), { s with world.store.session :=
        s.world.store.session.hit key e }) := by
    rw [onStore, hrun]
  rw [cached, Action.bind_ok (Action.get_run s), if_pos hs.uses, hs.identity,
    Action.bind_ok hstore]
  rfl

/-- What is filed is held from then on, in a place that was free. -/
theorem file_remains (hs : Keen t i s) {a : Analysis}
    (hF : F key = Source.fingerprint r.source.content)
    (hnone : P key → ∀ a, ¬Has F i s key a) :
    Action.Leads (Remains F i P) (t.file key a r) s fun result s' =>
      result = .ok () → Has F i s' key a := by
  rw [file]
  refine .look ?_
  rw [if_pos hs.uses, hs.identity, ← hF]
  refine ⟨.stored (Store.outlasts_store hnone), fun hok => ?_⟩
  exact Store.holds_store (Prod.ext hok rfl)

theorem recordTime_remains (ms : Double) (s : State σ) :
    Remains F i P s (t.recordTime ms s).2 := by
  rw [recordTime]
  split
  · exact .stored (.of_eq rfl rfl rfl)
  · exact .refl s

-- ======================================================= descriptions

/-- Whoever asks outside leaves the store alone. -/
theorem listens_store (t : Tracer σ) :
    Listens t fun s s' => s'.world.store = s.world.store where
  refl _ := rfl
  trans _ _ _ h h' := h'.trans h
  looked _ _ := rfl
  answered _ _ := rfl
  told _ _ := rfl
  counted _ := rfl
  slept _ _ := rfl

theorem ask_remains (t : Tracer σ) (prompt : Prompt) (s : State σ) :
    Action.Leads (Remains F i P) (t.ask prompt key) s fun _ s' =>
      s'.world.store = s.world.store := by
  exact ⟨(Remains.listens t).ask prompt key s,
    t.listens_store.ask prompt key s⟩

/-- A description that is asked for is filed, and held from then on. -/
theorem inquire_remains (hs : Keen t i s)
    (hF : F key = Source.fingerprint r.source.content)
    (hnone : ∀ a, ¬Has F i s key a) :
    Action.Leads (Remains F i P) (t.inquire key r) s fun result s' =>
      ∀ a, result = .ok (.described a) → Has F i s' key a := by
  rw [inquire]
  refine .look (.bind Remains.trans (t.ask_remains _ s) ?_
    fun e s' _ _ a ha => absurd ha (by simp))
  intro answer s₁ hs₁ hstore
  refine .look ?_
  rcases Reply.parse r.defining answer with suggestions | blocks | _
  · exact .pure Remains.refl fun a ha => absurd ha (by simp)
  · have htimed : ∀ ms, (t.recordTime ms s₁).2.world.store.session.entries =
        s₁.world.store.session.entries := by
      intro ms
      rw [recordTime]
      split <;> rfl
    refine .look (.bind Remains.trans (Q := fun _ s₂ =>
      s₂.world.store.session.entries = s₁.world.store.session.entries ∧
        Remains F i P s₁ s₂)
      ⟨recordTime_remains _ _, htimed _, recordTime_remains _ _⟩ ?_
      fun e s' _ _ a ha => absurd ha (by simp))
    intro _ s₂ hs₂ hentries
    have hnone₂ : ∀ a, ¬Has F i s₂ key a := by
      intro a hheld
      refine hnone a ?_
      rw [Has, Cache.SessionTier.Holds, hentries.1, hstore] at hheld
      exact hheld
    refine .bind Remains.trans (file_remains
      (hs₂.keen (hs₁.keen hs)) hF fun _ => hnone₂) ?_
      fun e s' _ _ a ha => absurd ha (by simp)
    intro _ s₃ _ hheld
    refine .pure Remains.refl fun a ha => ?_
    cases ha
    exact hheld rfl
  · exact .throw Remains.refl fun a ha => absurd ha (by simp)

/-- What is held is what is found. -/
theorem find_of_has {a : Analysis} (hs : Keen t i s)
    (hF : F key = Source.fingerprint r.source.content)
    (h : Has F i s key a) :
    ∃ e, t.find key r s = (.ok (.described a), s.served key e) := by
  obtain ⟨e, hrun⟩ := cached_of_has hs h
  refine ⟨e, ?_⟩
  rw [find, ← hF, Action.bind_ok hrun]
  rfl

/-- A complete description that is found is held. -/
theorem find_remains (hs : Keen t i s)
    (hF : F key = Source.fingerprint r.source.content) :
    Action.Leads (Remains F i P) (t.find key r) s fun result s' =>
      ∀ a, result = .ok (.described a) → a.status = .complete →
        Has F i s' key a := by
  rw [find, ← hF]
  refine .bind Remains.trans (cached_remains hs) ?_
    fun e s' _ _ a ha => absurd ha (by simp)
  intro found s₁ hs₁ hfound
  cases found with
  | none =>
    refine .look ?_
    split
    · refine .step Remains.trans (x := .placeholder key .truncated
        cancelledReason s₁.timeOfDay) rfl (.refl s₁)
        (.pure Remains.refl fun a ha hstatus => ?_)
      cases ha
      exact absurd hstatus (by simp [Analysis.placeholder])
    · exact (inquire_remains (hs₁.keen hs) hF (hfound.2 rfl)).weaken
        fun result s' _ hresult a ha _ => hresult a ha
  | some b =>
    refine .pure Remains.refl fun a ha _ => ?_
    cases ha
    exact hfound.1 b rfl

-- ======================================================== suggestions

/-- What is found on a suggestion is held under the method that was asked
for. Under that one, something else may be held no more. -/
theorem tryOther_remains {other : Resolved} (hs : Keen t i s)
    (hF : F key = Source.fingerprint r.source.content)
    (hother : F ⟨other.defining, key.methodName⟩ =
      Source.fingerprint other.source.content)
    {next : Action (State σ) Analysis}
    (hnext : ∀ s', Remains F i (fun k => P k ∧ k ≠ key) s s' →
      Action.Leads (Remains F i fun k => P k ∧ k ≠ key) next s'
        fun result s'' => ∀ a, result = .ok a → a.status = .complete →
          Has F i s'' key a) :
    Action.Leads (Remains F i fun k => P k ∧ k ≠ key)
      (t.tryOther key r other next) s
      fun result s' => ∀ a, result = .ok a → a.status = .complete →
        Has F i s' key a := by
  obtain ⟨hfind, -⟩ := find_remains (P := fun k => P k ∧ k ≠ key) hs hother
  rcases hf : t.find ⟨other.defining, key.methodName⟩ other s with
    ⟨found, s₁⟩
  rw [hf] at hfind
  have hattempt : attempt (t.find ⟨other.defining, key.methodName⟩ other) s
      = (.ok found, s₁) := by rw [attempt, hf]
  rw [tryOther]
  refine .step Remains.trans hattempt hfind ?_
  rcases found with e | a | suggestions
  · cases e with
    | unresolved u => exact .throw Remains.refl fun a ha => absurd ha (by simp)
    | _ =>
      dsimp only
      split
      · exact hnext s₁ hfind
      · exact .throw Remains.refl fun a ha => absurd ha (by simp)
  · dsimp only
    split
    · refine .bind Remains.trans (file_remains (hfind.keen hs) hF
        fun h => absurd rfl h.2) ?_ fun e s' _ _ a ha => absurd ha (by simp)
      intro _ s₂ _ hheld
      refine .pure Remains.refl fun b hb _ => ?_
      cases hb
      exact hheld rfl
    · exact hnext s₁ hfind
  · exact hnext s₁ hfind

end Tracer

end

-- ============================================================ everything

section

variable {t : Tracer σ} {i : String} {key : MethodKey} {s : State σ}
  {sourceOf : String → Except Failure (Option SourceFile)}
  {P : MethodKey → Prop} (hreads : t.Reads sourceOf)
  (hnamed : ∀ name f, sourceOf name = .ok (some f) → f.typeName = name)

include hreads

/-- A search for a method has the one result, and leaves the store as it
was. -/
theorem Tracer.resolve_remains (typeName method : String) (s : State σ)
    (F : MethodKey → String) :
    Action.Leads (Remains F i P)
      (Source.resolve t.lookup t.hierarchyDepth typeName method) s
      fun result s' =>
        result = resolved sourceOf t.hierarchyDepth typeName method ∧
        s'.world.store = s.world.store := by
  exact ⟨(Remains.listens t).resolve _ _ _ s,
    hreads.resolve _ typeName method s, t.listens_store.resolve _ _ _ s⟩

include hnamed

/-- What is found on suggestions is held in the end, and besides it all
that was held. -/
theorem Tracer.trySuggestions_remains {r : Resolved}
    (hF : fingerprintOf sourceOf t.hierarchyDepth key =
      Source.fingerprint r.source.content)
    (names : List String) :
    ∀ (tried searched : List String) (s : State σ), Keen t i s →
      Action.Leads (Remains (fingerprintOf sourceOf t.hierarchyDepth) i
          fun k => P k ∧ k ≠ key)
        (t.trySuggestions key r tried searched names) s
        fun result s' => ∀ a, result = .ok a → a.status = .complete →
          Has (fingerprintOf sourceOf t.hierarchyDepth) i s' key a := by
  induction names with
  | nil =>
    intro tried searched s hs
    exact .throw Remains.refl fun a ha => absurd ha (by simp)
  | cons name rest ih =>
    intro tried searched s hs
    rw [trySuggestions]
    split
    · exact ih tried searched s hs
    refine .look ?_
    split
    · refine ⟨.refl s, fun a ha hstatus => ?_⟩
      cases ha
      exact absurd hstatus (by simp [Analysis.placeholder])
    obtain ⟨hresolve, hvalue, -⟩ := resolve_remains (i := i)
      (P := fun k => P k ∧ k ≠ key) hreads name key.methodName s
      (fingerprintOf sourceOf t.hierarchyDepth)
    rcases hrun : Source.resolve t.lookup t.hierarchyDepth name
      key.methodName s with ⟨result, s₁⟩
    rw [hrun] at hresolve hvalue
    have hattempt : attempt (Source.resolve t.lookup t.hierarchyDepth name
        key.methodName) s = (.ok result, s₁) := by rw [attempt, hrun]
    refine .step Remains.trans hattempt hresolve ?_
    have hs₁ := hresolve.keen hs
    rcases result with e | other
    · cases e with
      | unresolved u => exact ih _ _ s₁ hs₁
      | _ => exact .throw Remains.refl fun a ha => absurd ha (by simp)
    · exact tryOther_remains hs₁ hF (fingerprintOf_defining hnamed
        hvalue.symm) fun s₂ hs₂ => ih _ _ s₂ (hs₂.keen hs₁)

/-- Describing a method takes nothing away, and a method that was described
is held as it was described. -/
theorem Tracer.base_remains (hs : Keen t i s) (key : MethodKey) :
    Action.Leads (Remains (fingerprintOf sourceOf t.hierarchyDepth) i P)
      (t.base key) s fun result s' => ∀ a, result = .ok a →
        a.status = .complete →
          Has (fingerprintOf sourceOf t.hierarchyDepth) i s' key a ∧
          ∃ r, resolved sourceOf t.hierarchyDepth key.typeName
            key.methodName = .ok r := by
  rw [base]
  refine .look ?_
  split
  · refine ⟨.refl s, fun a ha hstatus => ?_⟩
    cases ha
    exact absurd hstatus (by simp [Analysis.placeholder])
  refine .bind Remains.trans (resolve_remains hreads _ _ s _) ?_
    fun e s' _ _ a ha => absurd ha (by simp)
  intro r s₁ hs₁ hr
  have hresolved := hr.1.symm
  have hF := fingerprintOf_resolved hresolved
  have hkeen := hs₁.keen hs
  by_cases hheld : ∃ a, Has (fingerprintOf sourceOf t.hierarchyDepth) i s₁
    key a
  · obtain ⟨b, hb⟩ := hheld
    have hleads : Action.Leads
        (Remains (fingerprintOf sourceOf t.hierarchyDepth) i P)
        (t.find key r) s₁ fun result s' =>
          ∀ a, result = .ok (.described a) → a.status = .complete →
            Has (fingerprintOf sourceOf t.hierarchyDepth) i s' key a :=
      find_remains hkeen hF
    obtain ⟨hfind, hdescribed⟩ := hleads
    obtain ⟨e, hrun⟩ := find_of_has hkeen hF hb
    rw [hrun] at hfind hdescribed
    refine .step Remains.trans hrun hfind (.pure Remains.refl fun a ha hc => ?_)
    cases ha
    exact ⟨hdescribed b rfl hc, r, hresolved⟩
  · refine Action.Leads.weaken (Q := fun result s' => ∀ a, result = .ok a →
      a.status = .complete →
        Has (fingerprintOf sourceOf t.hierarchyDepth) i s' key a) ?_
      fun result s' _ h a ha hc => ⟨h a ha hc, r, hresolved⟩
    refine (fun hfound : Action.Leads
        (Remains (fingerprintOf sourceOf t.hierarchyDepth) i
          fun k => P k ∧ k ≠ key) _ s₁ fun result s' =>
            ∀ a, result = .ok a → a.status = .complete →
              Has (fingerprintOf sourceOf t.hierarchyDepth) i s' key a =>
      ⟨hfound.related.widen fun a h => hheld ⟨a, h⟩, hfound.result⟩) ?_
    refine .bind Remains.trans (find_remains hkeen hF) ?_
      fun e s' _ _ a ha => absurd ha (by simp)
    intro found s₂ hs₂ hdescribed
    cases found with
    | described a =>
      refine .pure Remains.refl fun b hb hc => ?_
      cases hb
      exact hdescribed a rfl hc
    | absent suggestions =>
      exact trySuggestions_remains hreads hnamed hF _ _ _ s₂
        (hs₂.keen hkeen)

/-- A method that is held is described without asking anybody. -/
theorem Tracer.base_of_has (hs : Keen t i s) {key : MethodKey}
    {r : Resolved} {a : Analysis}
    (hr : resolved sourceOf t.hierarchyDepth key.typeName key.methodName =
      .ok r)
    (h : Has (fingerprintOf sourceOf t.hierarchyDepth) i s key a)
    (hawake : (t.base key s).2.session.cancelled = false) :
    ∃ s', t.base key s = (.ok a, s') ∧
      s'.session.oracleCalls = s.session.oracleCalls ∧
      s'.world.store.session.evictions =
        s.world.store.session.evictions := by
  have hbefore : ¬s.session.cancelled = true := by
    intro hcancelled
    have hrelated := (base_remains (P := fun _ => True) hreads hnamed hs
      key).related
    rw [hrelated.cancelled hcancelled] at hawake
    exact absurd hawake (by simp)
  have hlookup : ∀ name, (t.lookup name).Changes fun s s' =>
      s'.session.oracleCalls = s.session.oracleCalls := fun _ _ => rfl
  have hcalls := Source.changes_resolve
    (R := fun s s' : State σ =>
      s'.session.oracleCalls = s.session.oracleCalls)
    (fun _ => rfl) (fun _ _ _ h h' => h'.trans h) hlookup
    t.hierarchyDepth key.typeName key.methodName s
  obtain ⟨hresolve, hvalue, hstore⟩ := resolve_remains (i := i)
    (P := fun _ => True) hreads key.typeName key.methodName s
    (fingerprintOf sourceOf t.hierarchyDepth)
  rcases hrun : Source.resolve t.lookup t.hierarchyDepth key.typeName
    key.methodName s with ⟨result, s₁⟩
  rw [hrun] at hresolve hvalue hstore hcalls
  obtain rfl : result = .ok r := hvalue.trans hr
  obtain ⟨e, hfind⟩ := find_of_has (hresolve.keen hs)
    (fingerprintOf_resolved hr) (by rw [Has, hstore]; exact h)
  refine ⟨s₁.served key e, ?_, hcalls, congrArg (·.session.evictions) hstore⟩
  rw [base, Action.bind_ok (Action.get_run s), if_neg hbefore,
    Action.bind_ok hrun, Action.bind_ok hfind]
  rfl

end

end CallTrace.Run
