/-
Whom a method is said to be inherited from.

The description of a method names the type that the method was resolved to,
if that is not the one that was asked for. The description is filed with
the fingerprint of that type's source, and served as long as the method
resolves to a source of this fingerprint. Nothing else of the resolution is
compared. So what is served tells the outcome of some resolution that ended
in such a source, an earlier one perhaps: the type that is named need not
be the one that would be found now, if both have the same source.

There is a second way to a description under the same key. A type that an
oracle suggests for another method is searched as well, and what is found
is filed under the type in which the search ended. It names this type, and
so a method that its own type declares can be said to be inherited.

What is told is followed from the resolutions through the store to what a
run registers. Descriptions that were adopted are left out: they are served
only where the oracle once did not find the method.
-/
import CallTrace.Proofs.Run.Enriched
import CallTrace.Proofs.Run.Transparent

namespace CallTrace.Run

open Cache (Rule Store)
open Number (Double)
open Source (Resolved)

variable {σ : Type}

-- ================================================================ vocabulary

/-- What searches for a method of a type have come to. -/
abbrev Resolutions := String → String → Resolved → Prop

/-- Whatever a search of the tracer can come to is among what was found. -/
def Tracer.Finds (t : Tracer σ) (found : Resolutions) : Prop :=
  ∀ typeName method r, t.Resolves typeName method r →
    found typeName method r

/-- The oracle of the identity, when it did not find a method of this name,
suggested the type. -/
def Suggested (said : Said) (identity method name : String) : Prop :=
  ∃ (key : MethodKey) (r : Resolved) (answer : String)
    (suggestions : List String), key.methodName = method ∧
    said identity (Tracer.promptFor key r) answer ∧
    Reply.parse r.defining answer = .absent suggestions ∧ name ∈ suggestions

/-- A search for the method came to this: one of its own type, or one of a
suggested type, which ended in the type of the method. -/
def FoundFor (said : Said) (found : Resolutions) (identity : String)
    (key : MethodKey) (r : Resolved) : Prop :=
  found key.typeName key.methodName r ∨
    r.defining = key.typeName ∧ ∃ name,
      Suggested said identity key.methodName name ∧
        found name key.methodName r

/-- The description names whom a search for the method found, one that ended
in a source with the fingerprint; or the oracle once did not find the method
in such a source. -/
def Attributed (said : Said) (found : Resolutions) : Rule := fun key a f i =>
  Referred said key f i ∨ ∃ r, FoundFor said found i key r ∧
    f = Source.fingerprint r.source.content ∧
    a.inheritedFrom = r.inheritedFrom

theorem attributed_timeless (said : Said) (found : Resolutions) :
    (Attributed said found).Timeless := fun _ _ _ _ _ h => h

-- =================================================================== keeping

/-- A store that obeys the rule goes on obeying it, and the oracle stays the
same. -/
structure Abides (P : Rule) (s s' : State σ) : Prop where
  identity : s'.session.identity = s.session.identity
  obeys : s.world.store.Obeys P → s'.world.store.Obeys P

namespace Abides

variable {P : Rule} {s s' : State σ}

theorem refl (s : State σ) : Abides P s s := ⟨rfl, id⟩

theorem trans (s s' s'' : State σ) (h : Abides P s s') (h' : Abides P s' s'') :
    Abides P s s'' := ⟨h'.identity.trans h.identity, h'.obeys ∘ h.obeys⟩

theorem of_store (hi : s'.session.identity = s.session.identity)
    (h : s'.world.store = s.world.store) : Abides P s s' :=
  ⟨hi, fun hs => h ▸ hs⟩

theorem listens (t : Tracer σ) : Listens t (Abides P) where
  refl := refl
  trans := trans
  looked _ _ := of_store rfl rfl
  answered _ _ := of_store rfl rfl
  told _ _ := of_store rfl rfl
  counted _ := of_store rfl rfl
  slept _ _ := of_store rfl rfl

end Abides

namespace Tracer

variable {said : Said} {found : Resolutions} {t : Tracer σ} {key : MethodKey}
  {r : Resolved} {s : State σ}

/-- What the cache gives obeys the rule that the store does. -/
theorem cached_abides (t : Tracer σ) {P : Rule} (hP : P.Timeless)
    (hkey : key.IsPlain) (fingerprint : String)
    (hs : s.world.store.Obeys P) :
    Action.Leads (Abides P) (t.cached key fingerprint) s fun result _ =>
      ∀ a, result = .ok (some a) →
        P key a fingerprint s.session.identity := by
  refine ⟨?_, fun a ha => t.cached_obeys hP hkey hs ha⟩
  have hlookup := (hs.lookup hP s.world.clock hkey fingerprint
    s.session.identity).1
  rw [cached, Action.bind_ok (Action.get_run s)]
  split
  · rcases hr : Store.lookup s.world.clock key fingerprint
      s.session.identity s.world.store with ⟨e | found, store⟩ <;>
      rw [hr] at hlookup
    · have hrun : onStore (fun clock => Store.lookup clock key fingerprint
          s.session.identity) s =
          (.error e, { s with world.store := store }) := by
        rw [onStore, hr]
      rw [Action.bind_error hrun]
      exact ⟨rfl, fun _ => hlookup⟩
    · have hrun : onStore (fun clock => Store.lookup clock key fingerprint
          s.session.identity) s =
          (.ok found, { s with world.store := store }) := by
        rw [onStore, hr]
      rw [Action.bind_ok hrun]
      cases found <;> exact ⟨rfl, fun _ => hlookup⟩
  · exact .refl s

/-- What obeys the rule may be filed. -/
theorem file_abides (t : Tracer σ) {P : Rule} (hP : P.Timeless)
    (hkey : key.IsPlain) {a : Analysis}
    (ha : P key a (Source.fingerprint r.source.content) s.session.identity) :
    Abides P s (t.file key a r s).2 := by
  rw [file, Action.bind_ok (Action.get_run s)]
  split
  · exact ⟨rfl, fun hs => hs.store hP s.world.clock hkey ha _⟩
  · exact .refl s

theorem recordTime_abides (t : Tracer σ) {P : Rule} (ms : Double)
    (s : State σ) : Abides P s (t.recordTime ms s).2 := by
  rw [recordTime]
  split
  · exact ⟨rfl, fun hs => hs.recordTime ms⟩
  · exact .refl s

-- ============================================================ descriptions

/-- What comes of looking for a method in a source, if the search for it
ended there: a description that tells whom it found, or a referral. -/
structure Credited (said : Said) (found : Resolutions) (identity : String)
    (key : MethodKey) (r : Resolved) (result : Except Failure Finding) :
    Prop where
  found : ∀ a, result = .ok (.described a) → a.status = .complete →
    Attributed said found key a (Source.fingerprint r.source.content) identity
  referred : ∀ names, result = .ok (.absent names) → ∀ name ∈ names,
    Referred said key (Source.fingerprint r.source.content) identity ∧
      Suggested said identity key.methodName name

theorem credited_error {i : String} (e : Failure) :
    Credited said found i key r (.error e) :=
  ⟨fun _ h => absurd h (by simp), fun _ h => absurd h (by simp)⟩

section

variable (hheeds : t.Heeds said)

include hheeds

/-- What is asked in a source where the search ended names whom the search
found. -/
theorem inquire_abides (hkey : key.IsPlain)
    (hr : FoundFor said found s.session.identity key r) :
    Action.Leads (Abides (Attributed said found)) (t.inquire key r) s
      fun result _ => Credited said found s.session.identity key r result := by
  have hasked : Action.Leads (Abides (Attributed said found))
      (t.ask (promptFor key r) key) s fun result _ => ∀ answer,
        result = .ok answer →
          said s.session.identity (promptFor key r) answer :=
    ⟨(Abides.listens t).ask _ key s,
      fun answer h => hheeds _ _ _ ⟨key, s, rfl, h⟩⟩
  rw [inquire]
  refine .look (.bind Abides.trans hasked ?_
    fun e s' _ _ => credited_error e)
  intro answer s₁ hs₁ hanswer
  have hsaid := hanswer answer rfl
  refine .look ?_
  rcases hp : Reply.parse r.defining answer with suggestions | blocks | _
  · refine .pure Abides.refl ⟨fun a ha => absurd ha (by simp), ?_⟩
    intro _ hsuggestions name hname
    cases hsuggestions
    exact ⟨⟨r, answer, suggestions, rfl, hsaid, hp, List.ne_nil_of_mem hname⟩,
      key, r, answer, suggestions, rfl, hsaid, hp, hname⟩
  · have hfound : ∀ now, Attributed said found key
        (describe key r (.described blocks) now)
        (Source.fingerprint r.source.content) s.session.identity :=
      fun now => .inr ⟨r, hr, rfl, rfl⟩
    refine .look (.bind Abides.trans (Q := fun _ s₂ =>
      Abides (Attributed said found) s₁ s₂)
      ⟨recordTime_abides t _ _, recordTime_abides t _ _⟩ ?_
      fun e s' _ _ => credited_error e)
    intro _ s₂ hs₂ _
    refine .bind Abides.trans (Q := fun _ _ => True)
      ⟨t.file_abides (attributed_timeless said found) hkey
        ((Abides.trans _ _ _ hs₁ hs₂).identity.symm ▸ hfound _), trivial⟩ ?_
      fun e s' _ _ => credited_error e
    intro _ s₃ _ _
    refine .pure Abides.refl ⟨fun a ha _ => ?_, fun _ h => absurd h (by simp)⟩
    cases ha
    exact hfound _
  · exact .throw Abides.refl (credited_error _)

/-- What is found there names whom a search found, though it may come from
the cache. -/
theorem find_abides (hkey : key.IsPlain)
    (hr : FoundFor said found s.session.identity key r)
    (hs : s.world.store.Obeys (Attributed said found)) :
    Action.Leads (Abides (Attributed said found)) (t.find key r) s
      fun result _ => Credited said found s.session.identity key r result := by
  rw [find]
  refine .bind Abides.trans
    (t.cached_abides (attributed_timeless said found) hkey _ hs) ?_
    fun e s' _ _ => credited_error e
  intro cached s' hs' hcached
  rcases cached with _ | a
  · refine .look ?_
    split
    · refine .bind Abides.trans (Q := fun result _ => ∀ a, result = .ok a →
        a.status ≠ .complete) ⟨.refl s', (t.cancelledLeaf_acts key s').result⟩
        ?_ fun e s'' _ _ => credited_error e
      intro a s'' _ ha
      refine .pure Abides.refl ⟨fun b hb hstatus => ?_,
        fun _ h => absurd h (by simp)⟩
      cases hb
      exact absurd hstatus (ha a rfl)
    · exact hs'.identity ▸ inquire_abides hheeds hkey (hs'.identity.symm ▸ hr)
  · refine .pure Abides.refl ⟨fun b hb _ => ?_, fun _ h => absurd h (by simp)⟩
    cases hb
    exact hcached a rfl

variable (hfinds : t.Finds found)

include hfinds

/-- Where the oracle referred to another type, whatever is filed obeys the
rule. -/
theorem tryOther_abides (hkey : key.IsPlain) {name : String}
    {other : Resolved}
    (hreferred : Referred said key (Source.fingerprint r.source.content)
      s.session.identity)
    (hsuggested : Suggested said s.session.identity key.methodName name)
    (hother : t.Resolves name key.methodName other)
    (hs : s.world.store.Obeys (Attributed said found))
    {next : Action (State σ) Analysis}
    (hnext : ∀ s', Abides (Attributed said found) s s' →
      Abides (Attributed said found) s' (next s').2) :
    Abides (Attributed said found) s (t.tryOther key r other next s).2 := by
  have hother' : (MethodKey.mk other.defining key.methodName).IsPlain := hkey
  have hfind := (find_abides (t := t) (r := other) hheeds hother'
    (.inr ⟨rfl, name, hsuggested, hfinds _ _ _ hother⟩) hs).related
  rw [tryOther]
  rcases hf : t.find ⟨other.defining, key.methodName⟩ other s with
    ⟨result, s'⟩
  rw [hf] at hfind
  have hattempt : attempt (t.find ⟨other.defining, key.methodName⟩ other) s
      = (.ok result, s') := by rw [attempt, hf]
  rw [Action.bind_ok hattempt]
  refine Abides.trans _ _ _ hfind ?_
  rcases result with e | a | suggestions
  · cases e with
    | unresolved u => exact .refl s'
    | _ =>
      dsimp only
      split
      · exact hnext s' hfind
      · exact .refl s'
  · dsimp only
    split
    · have hfile := t.file_abides (s := s') (r := r)
        (a := readdress key a other.defining) (attributed_timeless said found)
        hkey (.inl (hfind.identity.symm ▸ hreferred))
      exact Action.Leads.related (Q := fun _ _ => True)
        (.bind Abides.trans (Q := fun _ _ => True) ⟨hfile, trivial⟩
          (fun _ _ _ _ => .pure Abides.refl trivial) fun _ _ _ _ => trivial)
    · exact hnext s' hfind
  · exact hnext s' hfind

/-- Suggestions leave the store attributed: what is adopted was suggested
where the method was absent. -/
theorem trySuggestions_abides (hkey : key.IsPlain) (names : List String) :
    ∀ (tried searched : List String) (s : State σ),
      s.world.store.Obeys (Attributed said found) →
      (∀ name ∈ names,
        Referred said key (Source.fingerprint r.source.content)
            s.session.identity ∧
          Suggested said s.session.identity key.methodName name) →
      Abides (Attributed said found) s
        (t.trySuggestions key r tried searched names s).2 := by
  induction names with
  | nil => exact fun _ _ s _ _ => .refl s
  | cons name rest ih =>
    intro tried searched s hs hnames
    obtain ⟨⟨hreferred, hsuggested⟩, hrest⟩ := List.forall_mem_cons.1 hnames
    have hgo : ∀ s' tried searched, Abides (Attributed said found) s s' →
        Abides (Attributed said found) s'
          (t.trySuggestions key r tried searched rest s').2 :=
      fun s' tried searched h => ih _ _ s' (h.obeys hs)
        (h.identity.symm ▸ hrest)
    rw [trySuggestions]
    split
    · exact hgo s _ _ (.refl s)
    rw [Action.bind_ok (Action.get_run s)]
    split
    · exact .refl s
    have hresolve := (Abides.listens (P := Attributed said found) t).resolve
      t.hierarchyDepth name key.methodName s
    have hresolves := (t.resolve_acts name key.methodName s).result
    rcases hrun : Source.resolve t.lookup t.hierarchyDepth name
      key.methodName s with ⟨resolved, s'⟩
    rw [hrun] at hresolve hresolves
    have hattempt : attempt (Source.resolve t.lookup t.hierarchyDepth name
        key.methodName) s = (.ok resolved, s') := by rw [attempt, hrun]
    rw [Action.bind_ok hattempt]
    refine Abides.trans _ _ _ hresolve ?_
    rcases resolved with e | other
    · cases e with
      | unresolved u => exact hgo s' _ _ hresolve
      | _ => exact .refl s'
    · exact tryOther_abides hheeds hfinds hkey
        (hresolve.identity.symm ▸ hreferred)
        (hresolve.identity.symm ▸ hsuggested) (hresolves other rfl)
        (hresolve.obeys hs) fun s'' hs'' =>
          hgo s'' _ _ (Abides.trans _ _ _ hresolve hs'')

/-- A method of which there is a complete description is resolved, and the
description tells whom a search for the method found, one that ended in such
a source; or the oracle once did not find the method there. -/
theorem base_abides (hkey : key.IsPlain)
    (hs : s.world.store.Obeys (Attributed said found)) :
    Action.Leads (Abides (Attributed said found)) (t.base key) s fun result _ =>
      ∀ a, result = .ok a → a.status = .complete → ∃ r,
        (Source.resolve t.lookup t.hierarchyDepth key.typeName
          key.methodName s).1 = .ok r ∧
        Attributed said found key a (Source.fingerprint r.source.content)
          s.session.identity := by
  rw [base]
  refine .look ?_
  split
  · refine ⟨.refl s, fun a ha hcomplete => ?_⟩
    exact absurd hcomplete ((t.cancelledLeaf_acts key s).result a ha)
  refine .bind Abides.trans (Q := fun result _ => result =
      (Source.resolve t.lookup t.hierarchyDepth key.typeName
        key.methodName s).1)
    ⟨(Abides.listens t).resolve _ _ _ s, rfl⟩ ?_
    fun e s' _ _ a ha => absurd ha (by simp)
  intro r s₁ hs₁ hr
  have hfoundFor : FoundFor said found s₁.session.identity key r :=
    .inl (hfinds _ _ _ ⟨s, hr.symm⟩)
  refine .bind Abides.trans
    (find_abides hheeds hkey hfoundFor (hs₁.obeys hs)) ?_
    fun e s' _ _ a ha => absurd ha (by simp)
  intro finding s₂ hs₂ hcredited
  cases finding with
  | described a =>
    refine .pure Abides.refl fun b hb hcomplete => ?_
    cases hb
    exact ⟨r, hr.symm, hs₁.identity ▸ hcredited.found a rfl hcomplete⟩
  | absent suggestions =>
    have hnames : ∀ name ∈ firstItems t.maxSuggestions suggestions,
        Referred said key (Source.fingerprint r.source.content)
            s₂.session.identity ∧
          Suggested said s₂.session.identity key.methodName name := by
      intro name hname
      rw [hs₂.identity]
      exact hcredited.referred suggestions rfl name
        ((firstItems_sublist _ _).subset hname)
    refine ⟨trySuggestions_abides hheeds hfinds hkey _ _ _ s₂
      (hs₂.obeys (hs₁.obeys hs)) hnames, fun a ha _ => ⟨r, hr.symm, ?_⟩⟩
    rcases hlist : firstItems t.maxSuggestions suggestions with
      _ | ⟨name, rest⟩
    · dsimp only at ha
      rw [hlist] at ha
      cases ha
    · obtain ⟨hreferred, -⟩ := hnames name (by simp [hlist])
      exact .inl (hs₁.identity ▸ hs₂.identity ▸ hreferred)

theorem carried_abides : Carried t (Abides (Attributed said found)) where
  trans := Abides.trans
  books _ _ hw hi _ := .of_store hi (by rw [hw])
  told _ _ := .of_store rfl rfl
  described key hkey s :=
    ⟨(congrArg Session.identity (t.base_books key s) :), fun hs =>
      (base_abides hheeds hfinds hkey hs).related.obeys hs⟩

end

-- ================================================================== runs

/-- A method that is visited is entered. -/
theorem Visits.enterable {levels : Nat} {f g : Frame} {s s' : State σ}
    (h : Visits t levels f s g s') : Enterable s'.session g.key := by
  induction h with
  | here hnew => exact hnew
  | inside _ _ _ _ _ ih => exact ih

/-- A complete analysis that a run returns is registered for its root. -/
theorem run_root (t : Tracer σ) (hfresh : s.session.Fresh)
    (hstore : s.world.store.Obeys Cache.bareRule) {a : Analysis}
    (ha : (t.run s).1 = .ok a) (hcomplete : a.status = .complete) :
    a ∈ (t.run s).2.session.registry ∧ a.key = s.session.root := by
  obtain ⟨T, b, s', hrun⟩ := t.run_surveyed hfresh hstore
  obtain ⟨-, hT, hs, -, hstarts, hgives, -, -, hregistry, -⟩ := hrun
  rw [ha] at hgives
  cases (show a = b from hgives)
  rw [hregistry]
  cases hstarts with
  | leaf =>
    cases hT with
    | leaf _ _ hleaf _ =>
      have hget := hleaf.registered hs.toSound hcomplete
      rw [hfresh.registry] at hget
      cases hget
  | failed =>
    cases hT with
    | failed _ _ _ _ _ hleaf _ => exact absurd hcomplete hleaf.status
  | entered hexpanded =>
    cases hT with
    | entered _ _ _ _ _ hb _ _ =>
      rw [hexpanded]
      exact ⟨List.mem_append_right _ (List.mem_cons_self ..),
        key_expanded hb _⟩

end Tracer

-- ============================================================= inheritance

/-- Whatever search for the method ended in such a source as this one did
names whom this one names. -/
def Undisputed (said : Said) (found : Resolutions) (identity : String)
    (key : MethodKey) (r : Resolved) : Prop :=
  ∀ r', FoundFor said found identity key r' →
    Source.fingerprint r'.source.content =
      Source.fingerprint r.source.content →
    r'.inheritedFrom = r.inheritedFrom

theorem inheritedFrom_eq (r : Resolved) : r.inheritedFrom =
    if r.defining = r.requested then none else some r.defining := by
  simp [Resolved.inheritedFrom, Resolved.inherited]

/-- A complete analysis that a run registers, and so one that it returns, is
of a method that was resolved when it was entered. Unless the oracle once
did not find the method in such a source, the analysis tells whom some
search for the method found that ended in such a source. If no two of those
named different types, this is whom the method is inherited from now. The
store is any that runs came to share over whatever sources. -/
theorem run_names_definer {said : Said} {found : Resolutions}
    (t : Tracer σ) (hheeds : t.Heeds said) (hfinds : t.Finds found)
    (s : State σ) (hfresh : s.session.Fresh)
    (hshared : Shared (fun _ t _ => t.Heeds said ∧ t.Finds found)
      s.world.store) :
    let F := (t.run s).2.session
    let i := s.session.identity
    (∀ a, (t.run s).1 = .ok a → a.status = .complete →
      a ∈ F.registry ∧ a.key = s.session.root) ∧
    ∀ a ∈ F.registry, a.status = .complete → ∃ g s' r,
      Tracer.Visits t (s.session.limits.maxDepth + 1)
        ⟨s.session.root, 0, false⟩ s g s' ∧
      a.key = g.key ∧
      (Source.resolve t.lookup t.hierarchyDepth g.key.typeName
        g.key.methodName (t.opened g s')).1 = .ok r ∧
      (¬Referred said g.key (Source.fingerprint r.source.content) i →
        (∃ r', FoundFor said found i g.key r' ∧
          Source.fingerprint r'.source.content =
            Source.fingerprint r.source.content ∧
          a.inheritedFrom = r'.inheritedFrom) ∧
        (Undisputed said found i g.key r → a.inheritedFrom =
          if r.defining = r.requested then none else some r.defining)) := by
  intro F i
  have hstore := hshared.reachable
  refine ⟨fun a => t.run_root hfresh hstore.obeys, ?_⟩
  intro a ha hcomplete
  obtain ⟨g, s', hvisit, hkey, hdescribed⟩ :=
    run_enriches t s hfresh hstore a ha
  -- The rule holds of the store from the start of the run to this method.
  have hobeys : s.world.store.Obeys (Attributed said found) :=
    hshared.obeys (attributed_timeless said found) fun t s ht =>
      ((Tracer.carried_abides ht.1 ht.2).run s).obeys
  have hcarried := Tracer.carried_abides hheeds hfinds
  have habides : Abides (Attributed said found) s (t.opened g s') :=
    .trans _ _ _ (hvisit.along hcarried.along) (hcarried.opened g s')
  have hbase := (Tracer.base_abides hheeds hfinds hvisit.enterable.isPlain
    (habides.obeys hobeys)).result
  rcases hb : (t.base g.key (t.opened g s')).1 with e | b <;>
    rw [hb] at hdescribed
  · obtain ⟨now, rfl⟩ := hdescribed
    cases hcomplete
  have hframe := hdescribed.frame
  have hb' : b.status = .complete := by
    rw [hframe] at hcomplete
    exact hcomplete
  have hfrom : a.inheritedFrom = b.inheritedFrom := by rw [hframe]
  obtain ⟨r, hr, hattributed⟩ := hbase b hb hb'
  rw [habides.identity] at hattributed
  refine ⟨g, s', r, hvisit, hkey, hr, fun hfound => ?_⟩
  obtain ⟨r', hr', hsame, hnamed⟩ := hattributed.resolve_left hfound
  refine ⟨⟨r', hr', hsame.symm, hfrom.trans hnamed⟩, fun hundisputed => ?_⟩
  rw [hfrom, hnamed, hundisputed r' hr' hsame.symm, inheritedFrom_eq]

-- ========================================================= a moved type

/-- A file of two types that both have the method. -/
def sharedFile : String :=
  "class B:\n  def m(self): pass\nclass C:\n  def m(self): pass"

/-- A file of the second of them alone. -/
def ownFile : String := "class C:\n  def m(self): run()"

/-- A type without the method, by what it extends, and two types that have
it: the first in the shared file, the second in a file with this text. -/
def movedSources (parent text : String) (name : String) :
    Option Source.SourceFile :=
  let file (content : String) : Source.SourceFile :=
    { typeName := name, path := name, content := content
      language := "python" }
  if name = "A" then some (file ("class A(" ++ parent ++ "):\n  pass"))
  else if name = "B" then some (file sharedFile)
  else if name = "C" then some (file text)
  else none

/-- Describes every method it is asked about. -/
def movedTracer (parent text : String) : Tracer Unit :=
  plainTracer (movedSources parent text) fun _ => "#### Block 1: work"

def movedFixed (parent text : String) : Fixed :=
  plainFixed (movedSources parent text) fun _ => "#### Block 1: work"

/-- The world after a run, before the type is moved. -/
def movedWorld (text : String) : World Unit :=
  ((movedTracer "B" text).run
    (plainStart ⟨"A", "m"⟩ pairStart.world)).2.world

/-- What is said before and after the type is moved. -/
def movedSaid (text : String) : Said := fun identity prompt answer =>
  (movedTracer "B" text).Tells identity prompt answer ∨
    (movedTracer "C" text).Tells identity prompt answer

/-- What is found before and after the type is moved. -/
def movedFound (text : String) : Resolutions := fun typeName method r =>
  (movedTracer "B" text).Resolves typeName method r ∨
    (movedTracer "C" text).Resolves typeName method r

theorem shared_moved (text : String) :
    Shared (fun _ t _ => t.Heeds (movedSaid text) ∧ t.Finds (movedFound text))
      (movedWorld text).store := by
  rw [movedWorld]
  refine .run (movedTracer "B" text) (plainStart ⟨"A", "m"⟩ pairStart.world)
    ⟨fun _ _ _ h => .inl h, fun _ _ _ h => .inl h⟩ ?_
  exact .fresh ⟨rfl, fun d hd => absurd hd (by simp [pairStart, plainStart])⟩
    fun e he => absurd he (by simp [pairStart, plainStart])

/-- All that is ever said is the one reply. -/
theorem said_moved {text identity answer : String} {prompt : Prompt}
    (h : movedSaid text identity prompt answer) :
    answer = "#### Block 1: work" := by
  have hask : ∀ parent key s,
      ((movedTracer parent text).ask prompt key s).1 =
        .ok "#### Block 1: work" := by
    intro parent key s
    show Except.ok (String.join ["#### Block 1: work"]) = _
    simp [String.join]
  rcases h with ⟨key, s, -, h⟩ | ⟨key, s, -, h⟩ <;>
    exact (Except.ok.inj ((hask _ key s).symm.trans h)).symm

theorem not_referred_moved (text : String) (key : MethodKey)
    (fingerprint identity : String) :
    ¬Referred (movedSaid text) key fingerprint identity := by
  rintro ⟨r, answer, suggestions, -, hsaid, hparse, -⟩
  rw [said_moved hsaid] at hparse
  exact parse_work _ _ hparse

theorem not_suggested_moved (text identity method name : String) :
    ¬Suggested (movedSaid text) identity method name := by
  rintro ⟨key, r, answer, suggestions, -, hsaid, hparse, -⟩
  rw [said_moved hsaid] at hparse
  exact parse_work _ _ hparse

/-- The method is found alike from every state. -/
theorem resolve_moved (parent text : String) {r : Resolved}
    (h : ((movedFixed parent text).resolve "A" "m").toOption = some r)
    (s : State Unit) :
    (Source.resolve (movedTracer parent text).lookup
      (movedTracer parent text).hierarchyDepth "A" "m" s).1 = .ok r := by
  have hfixed : (Source.resolve (movedTracer parent text).lookup
      (movedTracer parent text).hierarchyDepth "A" "m" s).1 =
        (movedFixed parent text).resolve "A" "m" :=
    (plain_steady (movedSources parent text) _ .zero).resolve "A" "m" s
  rw [hfixed]
  cases hr : (movedFixed parent text).resolve "A" "m" with
  | error e =>
    rw [hr] at h
    cases h
  | ok r' =>
    rw [hr] at h
    rw [Option.some.inj h]

/-- The type is moved to one whose source is another. It is said then to
inherit the method from that type. -/
theorem run_names_definer_moved :
    let s := plainStart ⟨"A", "m"⟩ (movedWorld ownFile)
    (movedTracer "C" ownFile).Heeds (movedSaid ownFile) ∧
    (movedTracer "C" ownFile).Finds (movedFound ownFile) ∧
    s.session.Fresh ∧
    Shared (fun _ t _ => t.Heeds (movedSaid ownFile) ∧
      t.Finds (movedFound ownFile)) s.world.store ∧
    ∃ a, ((movedTracer "C" ownFile).run s).1 = .ok a ∧
      a ∈ ((movedTracer "C" ownFile).run s).2.session.registry ∧
      a.inheritedFrom = some "C" := by
  obtain ⟨hdone, hbefore, hafter⟩ :
      ((movedTracer "C" ownFile).run
        (plainStart ⟨"A", "m"⟩ (movedWorld ownFile))).1.toOption.any
          (·.status = .complete) = true ∧
      ((movedFixed "B" ownFile).resolve "A" "m").toOption =
        some ⟨"A", ⟨"B", "B", sharedFile, "python"⟩, ["A", "B"], true⟩ ∧
      ((movedFixed "C" ownFile).resolve "A" "m").toOption =
        some ⟨"A", ⟨"C", "C", ownFile, "python"⟩, ["A", "C"], true⟩ := by
    decide +kernel
  replace hbefore := resolve_moved "B" ownFile hbefore
  replace hafter := resolve_moved "C" ownFile hafter
  have hshared := shared_moved ownFile
  generalize movedWorld ownFile = world at hdone hshared ⊢
  intro s
  have hheeds : (movedTracer "C" ownFile).Heeds (movedSaid ownFile) :=
    fun _ _ _ h => .inr h
  have hfinds : (movedTracer "C" ownFile).Finds (movedFound ownFile) :=
    fun _ _ _ h => .inr h
  have hfresh : s.session.Fresh := ⟨rfl, rfl, rfl, rfl, rfl⟩
  refine ⟨hheeds, hfinds, hfresh, hshared, ?_⟩
  obtain ⟨hroot, hnamed⟩ := run_names_definer (movedTracer "C" ownFile)
    hheeds hfinds s hfresh hshared
  rcases ha : ((movedTracer "C" ownFile).run s).1 with e | a
  · rw [ha] at hdone
    cases hdone
  have hcomplete : a.status = .complete := by
    rw [ha] at hdone
    simpa [Except.toOption] using hdone
  obtain ⟨hmem, hkey⟩ := hroot a ha hcomplete
  refine ⟨a, rfl, hmem, ?_⟩
  obtain ⟨g, s', r, -, hkey', hr, hfrom⟩ := hnamed a hmem hcomplete
  have hg : g.key = ⟨"A", "m"⟩ := hkey'.symm.trans hkey
  rw [hg] at hr hfrom
  rw [hafter] at hr
  obtain rfl := Except.ok.inj hr
  refine (hfrom (not_referred_moved _ _ _ _)).2 fun r' hr' hsame => ?_
  rcases hr' with hfound | ⟨-, name, hsuggested, -⟩
  · rcases hfound with ⟨s'', hr'⟩ | ⟨s'', hr'⟩
    · -- What was found before the move has another fingerprint.
      rw [hbefore] at hr'
      obtain rfl := Except.ok.inj hr'
      exact absurd hsame (by decide +kernel)
    · rw [hafter] at hr'
      rw [Except.ok.inj hr']
  · exact absurd hsuggested (not_suggested_moved _ _ _ _)

/-- The type is moved to one in the same file. It is said to inherit the
method from the type that it no longer extends. -/
theorem served_names_former_definer :
    let s := plainStart ⟨"A", "m"⟩ (movedWorld sharedFile)
    s.session.Fresh ∧
    Shared (fun _ t _ => t.Heeds (movedSaid sharedFile) ∧
      t.Finds (movedFound sharedFile)) s.world.store ∧
    (∀ key f i, ¬Referred (movedSaid sharedFile) key f i) ∧
    (∀ s' : State Unit, ∃ r,
      (Source.resolve (movedTracer "C" sharedFile).lookup
        (movedTracer "C" sharedFile).hierarchyDepth "A" "m" s').1 = .ok r ∧
      r.declared = true ∧ r.inheritedFrom = some "C") ∧
    ∃ a, ((movedTracer "C" sharedFile).run s).1 = .ok a ∧
      a.status = .complete ∧ a.inheritedFrom = some "B" := by
  obtain ⟨hserved, hfound⟩ :
      (((movedTracer "C" sharedFile).run
        (plainStart ⟨"A", "m"⟩ (movedWorld sharedFile))).1.toOption.any
          fun a => a.status = .complete ∧ a.inheritedFrom = some "B") = true ∧
      ((movedFixed "C" sharedFile).resolve "A" "m").toOption =
        some ⟨"A", ⟨"C", "C", sharedFile, "python"⟩, ["A", "C"], true⟩ := by
    decide +kernel
  have hshared := shared_moved sharedFile
  generalize movedWorld sharedFile = world at hserved hshared ⊢
  intro s
  refine ⟨⟨rfl, rfl, rfl, rfl, rfl⟩, hshared, not_referred_moved _,
    fun s' => ⟨_, resolve_moved "C" sharedFile hfound s', rfl, rfl⟩, ?_⟩
  rcases ha : ((movedTracer "C" sharedFile).run s).1 with e | a
  · rw [ha] at hserved
    cases hserved
  · rw [ha] at hserved
    exact ⟨a, rfl, by simpa [Except.toOption] using hserved⟩

end CallTrace.Run
