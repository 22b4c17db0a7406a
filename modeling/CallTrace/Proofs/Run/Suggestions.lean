/-
Trying the suggested types one after the other.

When the oracle does not find a method in the source it was resolved to,
it may suggest other types. Those that were searched for the method before
are left out, and so is a suggestion that was made before. The others are
tried in order up to the first one with which the method is described in
full, and that description is taken over. A suggestion is passed over
whatever is wrong with it: it has no source, or the oracle does not find
the method there either, or what it says cannot be read, comes too late, or
does not come at all. Not so if a lookup fails: the search breaks off, and
the failure is all that comes of it, whatever other suggestions there are.
A failure of the cache would end the search as well, and so would one that
an oracle does not report as one of the analysis. There is none of these in
what follows.

All the while there is a trail of the types that were searched. A type
joins it when it is searched for the first time, and a suggestion without a
source joins it too. As long as what a lookup says does not vary, the
suggestion cannot be there already: every name on the trail is that of a
type with a source, or was suggested before.

Nothing is looked up or asked once a description is taken over. It is only
filed, under the method that was asked for.
-/
import CallTrace.Proofs.Run.Sound
import CallTrace.Proofs.Run.Steady
import CallTrace.Proofs.Source.Soundness

namespace CallTrace.Run

open Source (Resolved)

variable {σ : Type} {t : Tracer σ}

-- ============================================================= failures

/-- A failure of the analysis, but none of the method being nowhere. -/
def Minor (f : Failure) : Prop := f.isOwn = true ∧ ∀ u, f ≠ .unresolved u

/-- The oracle fails in no other way. -/
def Tracer.FailsMinor (t : Tracer σ) : Prop :=
  ∀ identity prompt o f,
    Beat.fail f ∈ (t.answerTo identity prompt o).value → Minor f

namespace Tracer

/-- Listening fails in minor ways only, if the oracle does. -/
theorem follow_minor (key : MethodKey) (limit deadline : Number.Double)
    (said : List String) {beats : List Beat}
    (h : ∀ f, Beat.fail f ∈ beats → Minor f) :
    Action.FailsWith Minor (t.follow key limit deadline said beats) := by
  have hlate : Minor (.timedOut key.display limit) := ⟨rfl, nofun⟩
  have hthrow : ∀ f, Minor f →
      Action.FailsWith Minor (throw f : Action (State σ) String) := by
    rintro f hf s _ ⟨⟩
    exact hf
  induction beats generalizing said with
  | nil => exact Action.failsWith_pure _
  | cons beat rest ih =>
    have hrest : ∀ f, Beat.fail f ∈ rest → Minor f := fun f hf =>
      h f (List.mem_cons_of_mem _ hf)
    cases beat with
    | wait seconds =>
      refine Action.failsWith_get fun s => ?_
      dsimp only
      split
      · exact Action.failsWith_bind (Action.failsWith_modify _)
          fun _ => hthrow _ hlate
      · exact Action.failsWith_bind (Action.failsWith_modify _)
          fun _ => ih said hrest
    | say text =>
      refine Action.failsWith_get fun s => ?_
      refine Action.failsWith_bind (fun s e he => ?_) fun _ => ih _ hrest
      cases he
    | fail failure =>
      have hfailure : Minor failure := h failure List.mem_cons_self
      cases failure with
      | gaveUp _ => exact hthrow _ hlate
      | _ => exact hthrow _ hfailure

theorem FailsMinor.ask (ht : t.FailsMinor) (prompt : Prompt)
    (key : MethodKey) : Action.FailsWith Minor (t.ask prompt key) :=
  fun s => follow_minor key _ _ [] (ht s.session.identity prompt
    s.world.outside) _

-- ========================================================= an able cache

/-- Asking and telling leaves the cache alone. -/
theorem listens_able (t : Tracer σ) :
    Listens t fun s s' => t.Able s → t.Able s' where
  refl _ := id
  trans _ _ _ h h' := h' ∘ h
  looked _ _ := id
  told _ _ := id
  slept _ _ := id
  answered _ _ := id
  counted _ := id

namespace Able

variable {s : State σ}

/-- A cache that does not fail gives an answer, and does not fail
afterwards. -/
theorem cached (h : t.Able s) (key : MethodKey) (fingerprint : String) :
    ∃ found s', t.cached key fingerprint s = (.ok found, s') ∧
      t.Able s' := by
  rw [Tracer.cached, Action.bind_ok (Action.get_run s)]
  split
  · rename_i huses
    obtain ⟨⟨found, hfound⟩, hstore⟩ := (h huses).lookup s.world.clock key
      fingerprint s.session.identity
    rcases hl : Cache.Store.lookup s.world.clock key fingerprint
      s.session.identity s.world.store with ⟨_, store⟩
    rw [hl] at hfound hstore
    subst hfound
    have hrun : onStore (fun clock => Cache.Store.lookup clock key
        fingerprint s.session.identity) s =
        (.ok found, { s with world.store := store }) := by
      rw [onStore, hl]
    rw [Action.bind_ok hrun]
    cases found <;> exact ⟨_, _, rfl, fun _ => hstore⟩
  · exact ⟨none, s, rfl, h⟩

/-- Filing succeeds and touches nothing but the store. -/
theorem file (h : t.Able s) (key : MethodKey) (a : Analysis)
    (r : Resolved) :
    ∃ store, t.file key a r s =
        (.ok (), { s with world.store := store }) ∧
      t.Able { s with world.store := store } := by
  rw [Tracer.file, Action.bind_ok (Action.get_run s)]
  split
  · rename_i huses
    obtain ⟨⟨_, hfiled⟩, hstore⟩ := (h huses).store s.world.clock key a
      (Source.fingerprint r.source.content) s.session.identity r.source.path
    rcases hf : Cache.Store.store s.world.clock key a
      (Source.fingerprint r.source.content) s.session.identity
      r.source.path s.world.store with ⟨_, store⟩
    rw [hf] at hfiled hstore
    subst hfiled
    exact ⟨store, by rw [onStore, hf], fun _ => hstore⟩
  · exact ⟨s.world.store, rfl, h⟩

theorem recordTime (h : t.Able s) (ms : Number.Double) :
    t.Able (t.recordTime ms s).2 := by
  rw [Tracer.recordTime]
  split
  · exact fun huses => ⟨(h huses).room, (h huses).loadable⟩
  · exact h

/-- Only the oracle fails, or what it says cannot be read. -/
theorem inquire (h : t.Able s) (ht : t.FailsMinor) (key : MethodKey)
    (r : Resolved) :
    t.Able (t.inquire key r s).2 ∧
      ∀ e, (t.inquire key r s).1 = .error e → Minor e := by
  have hable := t.listens_able.ask (promptFor key r) key s h
  have hminor := ht.ask (promptFor key r) key s
  rw [Tracer.inquire, Action.bind_ok (Action.get_run s)]
  rcases hask : t.ask (promptFor key r) key s with ⟨e | answer, s₁⟩ <;>
    rw [hask] at hable hminor
  · rw [Action.bind_error hask]
    refine ⟨hable, ?_⟩
    rintro _ ⟨⟩
    exact hminor e rfl
  rw [Action.bind_ok hask, Action.bind_ok (Action.get_run s₁)]
  rcases Reply.parse r.defining answer with suggestions | blocks | _
  · exact ⟨hable, fun _ he => by cases he⟩
  · obtain ⟨store, hfile, hable'⟩ := (Able.recordTime hable
      ((s₁.now - s.now) * .ofInt 1000)).file key
      (describe key r (.described blocks) s₁.timeOfDay) r
    dsimp only [Reply.errorMessage?]
    rw [Action.bind_ok (Action.get_run s₁),
      Action.bind_ok (Action.lift_run ..), Action.bind_ok hfile]
    exact ⟨hable', fun _ he => by cases he⟩
  · refine ⟨hable, ?_⟩
    rintro _ ⟨⟩
    exact ⟨rfl, fun _ hu => Failure.noConfusion hu⟩

/-- While nothing fails but in minor ways, looking for a method does not
either. -/
theorem find (h : t.Able s) (ht : t.FailsMinor) (key : MethodKey)
    (r : Resolved) :
    t.Able (t.find key r s).2 ∧
      ∀ e, (t.find key r s).1 = .error e → Minor e := by
  obtain ⟨found, s₁, hcached, hable⟩ :=
    h.cached key (Source.fingerprint r.source.content)
  rw [Tracer.find, Action.bind_ok hcached]
  cases found with
  | some a => exact ⟨hable, fun _ he => by cases he⟩
  | none =>
    dsimp only
    rw [Action.bind_ok (Action.get_run s₁)]
    split
    · exact ⟨hable, fun _ he => by cases he⟩
    · exact hable.inquire ht key r

end Able

end Tracer

-- ============================================================== a trial

/-- The method is described in full from the source of the type. -/
def Tracer.Yields (t : Tracer σ) (method name : String) (s : State σ)
    (other : Resolved) (a : Analysis) (s' : State σ) : Prop :=
  a.status = .complete ∧
  ∃ s₁, Source.resolve t.lookup t.hierarchyDepth name method s =
      (.ok other, s₁) ∧
    t.find ⟨other.defining, method⟩ other s₁ = (.ok (.described a), s')

/-- A lookup fails while the method is searched for from the type. -/
def Tracer.Breaks (t : Tracer σ) (method name : String) (s : State σ)
    (e : Failure) (s' : State σ) : Prop :=
  (∃ n s, (t.lookup n s).1 = .error e) ∧ (∀ u, e ≠ .unresolved u) ∧
    Source.resolve t.lookup t.hierarchyDepth name method s = (.error e, s')

/-- The type is tried to no avail, and the trail gets longer by the types
that are searched for the first time. -/
inductive PassedOver (t : Tracer σ) (method name : String)
    (searched : List String) (s : State σ) :
    List String → State σ → Prop where
  | sourceless {u : Unresolved} {s' : State σ}
      (hresolve : Source.resolve t.lookup t.hierarchyDepth name method s =
        (.error (.unresolved u), s')) :
    PassedOver t method name searched s (searched ++ [name]) s'
  | useless {other : Resolved} {found : Except Failure Finding}
      {s₁ s' : State σ}
      (hresolve : Source.resolve t.lookup t.hierarchyDepth name method s =
        (.ok other, s₁))
      (hfind : t.find ⟨other.defining, method⟩ other s₁ = (found, s'))
      (huseless : ∀ a, found = .ok (.described a) → a.status ≠ .complete) :
    PassedOver t method name searched s
      (searched ++ other.chain.filter fun n => !searched.contains n) s'

/-- The types are all tried to no avail, in order. -/
inductive AllPassedOver (t : Tracer σ) (method : String) :
    List String → List String → State σ → List String → State σ → Prop where
  | none (searched : List String) (s : State σ) :
    AllPassedOver t method [] searched s searched s
  | more {name : String} {names searched searched₁ searched' : List String}
      {s s₁ s' : State σ}
      (hname : PassedOver t method name searched s searched₁ s₁)
      (hnames : AllPassedOver t method names searched₁ s₁ searched' s') :
    AllPassedOver t method (name :: names) searched s searched' s'

/-- Of these types, the description from the first that yields one is taken
over, or else the method is not found in any of them. This is unless a
lookup fails before. -/
def FirstSuccess (t : Tracer σ) (key : MethodKey) (r : Resolved)
    (names searched : List String) (s : State σ)
    (outcome : Except Failure Analysis × State σ) : Prop :=
  (∃ before name after searched' s' other a s'' store,
    names = before ++ name :: after ∧
    AllPassedOver t key.methodName before searched s searched' s' ∧
    t.Yields key.methodName name s' other a s'' ∧
    t.file key (Tracer.readdress key a other.defining) r s'' =
      (.ok (), { s'' with world.store := store }) ∧
    outcome = (.ok (Tracer.readdress key a other.defining),
      { s'' with world.store := store })) ∨
  (∃ searched' s',
    AllPassedOver t key.methodName names searched s searched' s' ∧
    outcome = (.error (.unresolved
      ⟨key.typeName, key.methodName, searched', .method⟩), s')) ∨
  ∃ before name after searched' s' e s'',
    names = before ++ name :: after ∧
    AllPassedOver t key.methodName before searched s searched' s' ∧
    t.Breaks key.methodName name s' e s'' ∧ outcome = (.error e, s'')

/-- A type that is passed over does not keep a later one from being the
first to succeed. -/
theorem FirstSuccess.more {key : MethodKey} {r : Resolved} {name : String}
    {names searched searched₁ : List String} {s s₁ : State σ}
    {outcome : Except Failure Analysis × State σ}
    (hname : PassedOver t key.methodName name searched s searched₁ s₁)
    (h : FirstSuccess t key r names searched₁ s₁ outcome) :
    FirstSuccess t key r (name :: names) searched s outcome := by
  rcases h with ⟨before, first, after, searched', s', other, a, s'', store,
    rfl, hbefore, hrest⟩ | ⟨searched', s', hnames, houtcome⟩ |
      ⟨before, broken, after, searched', s', e, s'', rfl, hbefore, hrest⟩
  · exact .inl ⟨name :: before, first, after, searched', s', other, a, s'',
      store, rfl, .more hname hbefore, hrest⟩
  · exact .inr (.inl ⟨searched', s', .more hname hnames, houtcome⟩)
  · exact .inr (.inr ⟨name :: before, broken, after, searched', s', e, s'',
      rfl, .more hname hbefore, hrest⟩)

-- ============================================================= the loop

/-- The names that were not tried before, each at its first place only. -/
def untried (tried names : List String) : List String :=
  (names.filter fun name => !tried.contains name).eraseDups

theorem untried_of_tried {tried : List String} {name : String}
    (rest : List String) (h : tried.contains name = true) :
    untried tried (name :: rest) = untried tried rest := by
  rw [untried, List.filter_cons_of_neg (by simpa using h), untried]

theorem untried_of_new {tried : List String} {name : String}
    (rest : List String) (h : tried.contains name = false) :
    untried tried (name :: rest) =
      name :: untried (name :: tried) rest := by
  rw [untried, List.filter_cons_of_pos (by simpa using h),
    List.eraseDups_cons, List.filter_filter, untried]
  refine congrArg (name :: List.eraseDups ·) (List.filter_congr fun n _ => ?_)
  simp [beq_eq_decide]

namespace Tracer

/-- Where the source of a type does not yield a description the next type
is tried. -/
theorem tryOther_outcome (ht : t.FailsMinor) (key : MethodKey)
    (r other : Resolved) {s : State σ} (hs : t.Able s)
    (next : Action (State σ) Analysis) :
    (∃ a s' store, a.status = .complete ∧
      t.find ⟨other.defining, key.methodName⟩ other s =
        (.ok (.described a), s') ∧
      t.file key (readdress key a other.defining) r s' =
        (.ok (), { s' with world.store := store }) ∧
      t.tryOther key r other next s =
        (.ok (readdress key a other.defining),
          { s' with world.store := store })) ∨
    ∃ found s', t.Able s' ∧
      t.find ⟨other.defining, key.methodName⟩ other s = (found, s') ∧
      (∀ a, found = .ok (.described a) → a.status ≠ .complete) ∧
      t.tryOther key r other next s = next s' := by
  obtain ⟨hable, hminor⟩ := hs.find ht ⟨other.defining, key.methodName⟩ other
  rcases hfind : t.find ⟨other.defining, key.methodName⟩ other s with
    ⟨found, s'⟩
  rw [hfind] at hable hminor
  have hattempt : attempt (t.find ⟨other.defining, key.methodName⟩ other) s =
      (.ok found, s') := by rw [attempt, hfind]
  rw [tryOther, Action.bind_ok hattempt]
  rcases found with e | a | suggestions
  · obtain ⟨hown, hresolved⟩ := hminor e rfl
    refine .inr ⟨_, s', hable, rfl, (fun _ ha => by cases ha), ?_⟩
    cases e with
    | unresolved u => exact absurd rfl (hresolved u)
    | _ => exact congrFun (if_pos hown) s'
  · dsimp only
    split
    case isTrue hcomplete =>
      obtain ⟨store, hfile, -⟩ :=
        Able.file hable key (readdress key a other.defining) r
      exact .inl ⟨a, s', store, hcomplete, rfl, hfile,
        Action.bind_ok hfile⟩
    case isFalse hpartial =>
      refine .inr ⟨_, s', hable, rfl, ?_, rfl⟩
      rintro _ ⟨⟩
      exact hpartial
  · exact .inr ⟨_, s', hable, rfl, (fun _ ha => by cases ha), rfl⟩

/-- A search that fails otherwise than for want of a source fails as some
lookup does. -/
theorem lookup_error_of_resolve (t : Tracer σ) {method name : String}
    {s s' : State σ} {e : Failure} (hresolved : ∀ u, e ≠ .unresolved u)
    (h : Source.resolve t.lookup t.hierarchyDepth name method s =
      (.error e, s')) : ∃ n s, (t.lookup n s).1 = .error e := by
  by_contra! hnone
  obtain ⟨he, -⟩ := (Source.resolve_error_iff t.hierarchyDepth name s
    hnone).1 (congrArg Prod.fst h)
  exact hresolved _ he

/-- The loop is a search for the first success, as long as nothing cancels
the run. -/
theorem trySuggestions_first (ht : t.FailsMinor) (key : MethodKey)
    (r : Resolved) (names : List String) :
    ∀ (tried searched : List String) (s : State σ), t.Able s →
      (t.trySuggestions key r tried searched names s).2.session.cancelled =
        false →
      FirstSuccess t key r (untried tried names) searched s
        (t.trySuggestions key r tried searched names s) := by
  induction names with
  | nil =>
    exact fun _ searched s _ _ => .inr (.inl ⟨searched, s, .none _ _, rfl⟩)
  | cons name rest ih =>
    intro tried searched s hs hlive
    rw [trySuggestions] at hlive ⊢
    split at hlive
    case isTrue htried =>
      rw [if_pos htried, untried_of_tried rest htried]
      exact ih tried searched s hs hlive
    case isFalse hnew =>
    rw [if_neg hnew, untried_of_new rest (Bool.not_eq_true _ ▸ hnew)]
    rw [Action.bind_ok (Action.get_run s)] at hlive ⊢
    -- a cancelled run would end here, and end cancelled
    split at hlive
    case isTrue hc => exact absurd (hc.symm.trans hlive) (by decide)
    case isFalse hc =>
    rw [if_neg hc]
    have hable :=
      t.listens_able.resolve t.hierarchyDepth name key.methodName s hs
    rcases hresolve : Source.resolve t.lookup t.hierarchyDepth name
      key.methodName s with ⟨resolved, s₁⟩
    rw [hresolve] at hable
    have hattempt : attempt (Source.resolve t.lookup t.hierarchyDepth name
        key.methodName) s = (.ok resolved, s₁) := by rw [attempt, hresolve]
    rw [Action.bind_ok hattempt] at hlive ⊢
    rcases resolved with e | other
    · have hbreaks : (∀ u, e ≠ .unresolved u) →
          t.Breaks key.methodName name s e s₁ := fun hresolved =>
        ⟨t.lookup_error_of_resolve hresolved hresolve, hresolved, hresolve⟩
      cases e with
      | unresolved u =>
        exact .more (.sourceless hresolve) (ih _ _ s₁ hable hlive)
      | _ =>
        exact .inr (.inr ⟨[], name, _, searched, s, _, s₁, rfl, .none _ _,
          hbreaks fun _ hu => Failure.noConfusion hu, rfl⟩)
    · dsimp only at hlive ⊢
      rcases tryOther_outcome ht key r other hable
          (t.trySuggestions key r (name :: tried)
            (searched ++ other.chain.filter fun n => !searched.contains n)
            rest) with
        ⟨a, s₂, store, hcomplete, hfind, hfile, houtcome⟩ |
          ⟨found, s₂, hable₂, hfind, huseless, houtcome⟩
      · exact .inl ⟨[], name, _, searched, s, other, a, s₂, store, rfl,
          .none _ _, ⟨hcomplete, s₁, hresolve, hfind⟩, hfile, houtcome⟩
      · rw [houtcome] at hlive ⊢
        exact .more (.useless hresolve hfind huseless)
          (ih _ _ s₂ hable₂ hlive)

end Tracer

-- ============================================================ the trail

/-- What a lookup says, for every name. It never says that a method is
nowhere. -/
structure Tracer.LooksUp (t : Tracer σ)
    (answers : String → Except Failure (Option Source.SourceFile)) :
    Prop where
  fixed : ∀ name s, (t.lookup name s).1 = answers name
  resolved : ∀ name u, answers name ≠ .error (.unresolved u)

/-- No type is on the trail twice, and each that is there was tried or has
a source. -/
structure Trail
    (answers : String → Except Failure (Option Source.SourceFile))
    (tried searched : List String) : Prop where
  once : searched.Nodup
  known : ∀ name ∈ searched, name ∈ tried ∨ ∃ f, answers name = .ok (some f)

/-- The types that are searched for a method have sources. -/
theorem sourced_of_resolve
    {answers : String → Except Failure (Option Source.SourceFile)}
    {depth : Nat} {name method : String} {s : State σ} {other : Resolved}
    (hnamed : t.lookup.Named) (hanswers : t.LooksUp answers)
    (hresolve : (Source.resolve t.lookup depth name method s).1 =
      .ok other) :
    other.chain.Nodup ∧
      ∀ n ∈ other.chain, ∃ f, answers n = .ok (some f) := by
  obtain ⟨root, more, hroot, hmore, hsearched⟩ :=
    Source.resolve_searched hresolve
  have hall : Source.Walk.LookedUp t.lookup (root :: more) :=
    List.forall_mem_cons.2 ⟨⟨name, s, hroot⟩, hmore⟩
  refine ⟨hsearched.once, fun n hn => ?_⟩
  rw [hsearched.chain] at hn
  obtain ⟨f, hf, rfl⟩ := List.mem_map.1 hn
  obtain ⟨asked, s', hl⟩ := hall f hf
  rw [hnamed asked s' f hl]
  exact ⟨f, (hanswers.fixed asked s').symm.trans hl⟩

namespace PassedOver

variable {method name : String} {searched searched' : List String}
  {s s' : State σ}

theorem isPrefix (h : PassedOver t method name searched s searched' s') :
    searched <+: searched' := by
  cases h <;> exact List.prefix_append _ _

/-- A type that was tried is on the trail. -/
theorem mem (hnamed : t.lookup.Named)
    (h : PassedOver t method name searched s searched' s') :
    name ∈ searched' := by
  cases h with
  | sourceless _ => simp
  | @useless other _ _ _ hresolve _ _ =>
    obtain ⟨root, more, hroot, -, hsearched⟩ :=
      Source.resolve_searched (congrArg Prod.fst hresolve)
    have hname : root.typeName = name := hnamed name s root hroot
    have hmem : name ∈ other.chain := by
      rw [hsearched.chain, ← hname]
      exact List.mem_cons_self
    by_cases hold : name ∈ searched
    · exact List.mem_append_left _ hold
    · exact List.mem_append_right _
        (List.mem_filter.2 ⟨hmem, by simpa using hold⟩)

/-- Trying a type to no avail keeps the trail: the type itself was tried,
and whatever else gets on it has a source. -/
theorem trail
    {answers : String → Except Failure (Option Source.SourceFile)}
    {tried : List String} (hnamed : t.lookup.Named)
    (hanswers : t.LooksUp answers) (hnew : name ∉ tried)
    (htrail : Trail answers tried searched)
    (h : PassedOver t method name searched s searched' s') :
    Trail answers (name :: tried) searched' := by
  have hknown : ∀ n ∈ searched,
      n ∈ name :: tried ∨ ∃ f, answers n = .ok (some f) := fun n hn =>
    (htrail.known n hn).imp_left (List.mem_cons_of_mem _)
  cases h with
  | sourceless hresolve =>
    have hnone : answers name = .ok none := by
      obtain ⟨-, hl⟩ := (Source.resolve_error_iff t.hierarchyDepth name s
        fun name s hl => hanswers.resolved name _
          ((hanswers.fixed name s).symm.trans hl)).1
        (congrArg Prod.fst hresolve)
      exact (hanswers.fixed name s).symm.trans hl
    have hfresh : name ∉ searched := fun hold => by
      rcases htrail.known name hold with htried | ⟨f, hsome⟩
      · exact hnew htried
      · simp [hnone] at hsome
    refine ⟨?_, List.forall_mem_append.2 ⟨hknown, by simp⟩⟩
    rw [← List.concat_eq_append]
    exact htrail.once.concat hfresh
  | useless hresolve _ _ =>
    obtain ⟨honce, hsourced⟩ :=
      sourced_of_resolve hnamed hanswers (congrArg Prod.fst hresolve)
    refine ⟨List.Nodup.append htrail.once (honce.filter _) ?_,
      List.forall_mem_append.2 ⟨hknown, fun n hn => ?_⟩⟩
    · intro n hold hn
      simpa [hold] using (List.mem_filter.1 hn).2
    · exact .inr (hsourced n (List.mem_filter.1 hn).1)

end PassedOver

namespace AllPassedOver

variable {method : String} {names searched searched' : List String}
  {s s' : State σ}

theorem isPrefix
    (h : AllPassedOver t method names searched s searched' s') :
    searched <+: searched' := by
  induction h with
  | none _ _ => exact List.prefix_refl _
  | more hname _ ih => exact hname.isPrefix.trans ih

theorem mem (hnamed : t.lookup.Named)
    (h : AllPassedOver t method names searched s searched' s') :
    ∀ name ∈ names, name ∈ searched' := by
  induction h with
  | none _ _ => simp
  | more hname hnames ih =>
    exact List.forall_mem_cons.2
      ⟨hnames.isPrefix.subset (hname.mem hnamed), ih⟩

/-- What is still to be tried is new every time. -/
theorem nodup
    {answers : String → Except Failure (Option Source.SourceFile)}
    (hnamed : t.lookup.Named) (hanswers : t.LooksUp answers)
    (suggested : List String) :
    ∀ {tried searched : List String} {s : State σ},
      Trail answers tried searched →
      AllPassedOver t method (untried tried suggested) searched s searched'
        s' → searched'.Nodup := by
  induction suggested with
  | nil =>
    intro tried searched s htrail h
    cases h
    exact htrail.once
  | cons name rest ih =>
    intro tried searched s htrail h
    rcases hname : tried.contains name with _ | _
    · rw [untried_of_new rest hname] at h
      have hnew : name ∉ tried := by simpa using hname
      cases h with
      | more hpassed hrest =>
        exact ih (hpassed.trail hnamed hanswers hnew htrail) hrest
    · rw [untried_of_tried rest hname] at h
      exact ih htrail h

end AllPassedOver

-- ======================================================== first success

/-- What is adopted is the description under the other key, by the type
that has the method. -/
theorem readdress_eq (key : MethodKey) (a : Analysis) (definer : String) :
    Tracer.readdress key a definer =
      { a with
        typeName := key.typeName
        methodName := key.methodName
        inheritedFrom :=
          some ((a.inheritedFrom.filter (· ≠ "")).getD definer) } := by
  rw [Tracer.readdress]
  rcases a.inheritedFrom with _ | own
  · rfl
  · by_cases hown : own = "" <;> simp [Option.filter, hown]

/-- When the oracle does not find a method where it was resolved to, the
suggestions it makes instead are searched for the first that yields a full
description. That is given for the method asked for, as one that is
inherited, and from then on nothing changes but the store, in which it is
filed. If there is none, the method is not found, and the types that are
said to have been searched are those the resolver searched and then others,
all that were tried among them. None is said twice if what lookups say does
not vary. Where a lookup fails before either, that ends the search, and it
is what is reported.

The sources bear the names they are looked up under. -/
theorem base_first_success (t : Tracer σ) (ht : t.FailsMinor)
    (hnamed : t.lookup.Named) (hlimit : 0 ≤ t.maxSuggestions)
    (key : MethodKey) (r : Resolved) (suggestions : List String)
    {s s₁ s₂ : State σ} (hs : t.Able s)
    (hresolve : Source.resolve t.lookup t.hierarchyDepth key.typeName
      key.methodName s = (.ok r, s₁))
    (hfind : t.find key r s₁ = (.ok (.absent suggestions), s₂))
    (hlive : (t.base key s).2.session.cancelled = false) :
    let names := ((suggestions.take t.maxSuggestions.toNat).filter
      fun name => !r.chain.contains name).eraseDups
    (∃ before name after searched s' other a s'' adopted store,
      names = before ++ name :: after ∧
      AllPassedOver t key.methodName before r.chain s₂ searched s' ∧
      t.Yields key.methodName name s' other a s'' ∧
      adopted = { a with
        typeName := key.typeName
        methodName := key.methodName
        inheritedFrom :=
          some ((a.inheritedFrom.filter (· ≠ "")).getD other.defining) } ∧
      t.file key adopted r s'' = (.ok (), { s'' with world.store := store }) ∧
      t.base key s = (.ok adopted, { s'' with world.store := store })) ∨
    (∃ searched s',
      AllPassedOver t key.methodName names r.chain s₂ searched s' ∧
      t.base key s = (.error (.unresolved
        ⟨key.typeName, key.methodName, searched, .method⟩), s') ∧
      r.chain <+: searched ∧
      (∀ name ∈ names, name ∈ searched) ∧
      ∀ answers, t.LooksUp answers → searched.Nodup) ∨
    ∃ before name after searched s' e s'',
      names = before ++ name :: after ∧
      AllPassedOver t key.methodName before r.chain s₂ searched s' ∧
      t.Breaks key.methodName name s' e s'' ∧
      t.base key s = (.error e, s'') := by
  intro names
  have hfirst : firstItems t.maxSuggestions suggestions =
      suggestions.take t.maxSuggestions.toNat := by
    rw [firstItems, if_neg (by omega)]
  have hbase : t.base key s = t.trySuggestions key r r.chain r.chain
      (suggestions.take t.maxSuggestions.toNat) s₂ := by
    rw [Tracer.base, Action.bind_ok (Action.get_run s)] at hlive ⊢
    split at hlive
    case isTrue hc => exact absurd (hc.symm.trans hlive) (by decide)
    case isFalse hc =>
      rw [if_neg hc, Action.bind_ok hresolve, Action.bind_ok hfind]
      dsimp only
      rw [hfirst]
  have hs₁ := t.listens_able.resolve t.hierarchyDepth key.typeName
    key.methodName s hs
  rw [hresolve] at hs₁
  have hs₂ := (Tracer.Able.find hs₁ ht key r).1
  rw [hfind] at hs₂
  rw [hbase] at hlive ⊢
  rcases Tracer.trySuggestions_first ht key r _ r.chain r.chain s₂ hs₂ hlive
    with ⟨before, name, after, searched, s', other, a, s'', store,
      hnames, hbefore, hyields, hfile, houtcome⟩ | ⟨searched, s', hpassed,
      houtcome⟩ | hbroken
  · exact .inl ⟨before, name, after, searched, s', other, a, s'', _, store,
      hnames, hbefore, hyields, readdress_eq .., hfile, houtcome⟩
  · refine .inr (.inl ⟨searched, s', hpassed, houtcome, hpassed.isPrefix,
      hpassed.mem hnamed, fun answers hanswers => ?_⟩)
    obtain ⟨honce, -⟩ :=
      sourced_of_resolve hnamed hanswers (congrArg Prod.fst hresolve)
    exact AllPassedOver.nodup hnamed hanswers _
      ⟨honce, fun n hn => .inl hn⟩ hpassed
  · exact .inr (.inr hbroken)

/-- What comes of looking for a method from a type. -/
def Tracer.seek (t : Tracer σ) (key : MethodKey) (name : String) :
    Action (State σ) (Resolved × Finding) := do
  let r ← Source.resolve t.lookup t.hierarchyDepth name key.methodName
  pure (r, ← t.find key r)

/-- What is sought and found was resolved before, and found there. -/
theorem Tracer.seek_ok {key : MethodKey} {name : String} {s : State σ}
    {p : Resolved × Finding → Bool}
    (h : (t.seek key name s).1.toOption.any p = true) :
    ∃ r s₁ found s₂,
      Source.resolve t.lookup t.hierarchyDepth name key.methodName s =
        (.ok r, s₁) ∧
      t.find key r s₁ = (.ok found, s₂) ∧ p (r, found) = true := by
  rw [Tracer.seek] at h
  rcases hresolve : Source.resolve t.lookup t.hierarchyDepth name
    key.methodName s with ⟨e | r, s₁⟩
  · rw [Action.bind_error hresolve] at h
    cases h
  rw [Action.bind_ok hresolve] at h
  rcases hfind : t.find key r s₁ with ⟨e | found, s₂⟩
  · rw [Action.bind_error hfind] at h
    cases h
  rw [Action.bind_ok hfind] at h
  exact ⟨r, s₁, found, s₂, rfl, hfind, h⟩

/-- Three types, none of which declares anything. -/
def huntSource (name : String) : Option Source.SourceFile :=
  if ["A", "E", "G"].contains name then
    some
      { typeName := name, path := name ++ ".py"
        content := "class " ++ name ++ " {}", language := "python" }
  else none

/-- Refers from the first type to four others: one has no source, about one
the oracle fails, and about the third it says something. -/
def huntTracer : Tracer Unit where
  sourceOf name _ _ := ⟨.ok (huntSource name), false, ()⟩
  answerTo _ prompt _ :=
    let beat : Beat :=
      if prompt.typeName = "A" then
        .say "### Method Not Found

- `A`
- `X`
- `E`
- `G`
- `H`
"
      else if prompt.typeName = "E" then .fail (.reported .oracle "busy" [])
      else .say "#### Block 1: work"
    ⟨[beat], false, ()⟩
  inform _ _ := ⟨.ok (), false, ()⟩

/-- A run that uses the cache is about to start. -/
def huntStart : State Unit :=
  { pairStart with session.limits := cachingLimits }

/-- The oracle fails in a minor way only. -/
theorem failsMinor_hunt : huntTracer.FailsMinor := by
  intro identity prompt o f hf
  have hfail : f = .reported .oracle "busy" [] := by
    simp only [huntTracer, List.mem_singleton] at hf
    split at hf
    · cases hf
    · split at hf <;> cases hf
      rfl
  subst hfail
  exact ⟨rfl, nofun⟩

theorem named_hunt : huntTracer.lookup.Named := by
  intro name s f hf
  have hf : huntSource name = some f := Except.ok.inj hf
  rw [huntSource] at hf
  split at hf <;> cases hf
  rfl

theorem able_hunt : huntTracer.Able huntStart := fun _ =>
  ⟨by decide, nofun⟩

/-- The type without a source and the one that the oracle fails about are
passed over. The last type is not asked about. -/
theorem base_first_success_third :
    huntTracer.FailsMinor ∧ huntTracer.lookup.Named ∧
    huntTracer.Able huntStart ∧
    (huntTracer.base ⟨"A", "m"⟩ huntStart).2.session.oracleCalls = 3 ∧
    ∃ r s₁ s₂ before name after searched s' other a s'' adopted store,
      Source.resolve huntTracer.lookup huntTracer.hierarchyDepth "A" "m"
        huntStart = (.ok r, s₁) ∧
      huntTracer.find ⟨"A", "m"⟩ r s₁ =
        (.ok (.absent ["A", "X", "E", "G", "H"]), s₂) ∧
      ["X", "E", "G", "H"] = before ++ name :: after ∧
      AllPassedOver huntTracer "m" before ["A"] s₂ searched s' ∧
      huntTracer.Yields "m" name s' other a s'' ∧
      huntTracer.base ⟨"A", "m"⟩ huntStart =
        (.ok adopted, { s'' with world.store := store }) ∧
      adopted.inheritedFrom = some "G" := by
  obtain ⟨hasked, hadopted, hcalls, hlive⟩ :
      (huntTracer.seek ⟨"A", "m"⟩ "A" huntStart).1.toOption.any
        (fun x => x.1.chain = ["A"] ∧
          x.2 = .absent ["A", "X", "E", "G", "H"]) = true ∧
      (huntTracer.base ⟨"A", "m"⟩ huntStart).1.toOption.map
        Analysis.inheritedFrom = some (some "G") ∧
      (huntTracer.base ⟨"A", "m"⟩ huntStart).2.session.oracleCalls = 3 ∧
      (huntTracer.base ⟨"A", "m"⟩ huntStart).2.session.cancelled = false := by
    decide +kernel
  obtain ⟨r, s₁, found, s₂, hresolve, hfind, hsaid⟩ :=
    Tracer.seek_ok hasked
  obtain ⟨hchain, rfl⟩ := of_decide_eq_true hsaid
  refine ⟨failsMinor_hunt, named_hunt, able_hunt, hcalls, ?_⟩
  rcases base_first_success huntTracer failsMinor_hunt named_hunt
    (by decide) ⟨"A", "m"⟩ r _ able_hunt hresolve hfind
    hlive with ⟨before, name, after, searched, s', other, a,
      s'', adopted, store, hnames, hbefore, hyields, -, -, hbase⟩ |
      ⟨searched, s', -, hbase, -⟩ | ⟨_, _, _, _, _, _, _, -, -, -, hbase⟩
  · rw [hbase] at hadopted
    rw [hchain] at hnames hbefore
    exact ⟨r, s₁, s₂, before, name, after, searched, s', other, a, s'',
      adopted, store, hresolve, hfind, hnames, hbefore, hyields, hbase,
      Option.some.inj hadopted⟩
  · rw [hbase] at hadopted
    cases hadopted
  · rw [hbase] at hadopted
    cases hadopted

/-- The same, but the lookup of the third type fails. -/
def outageTracer : Tracer Unit :=
  { huntTracer with
    sourceOf := fun name _ _ =>
      if name = "E" then ⟨.error (.reported .oracle "down" []), false, ()⟩
      else ⟨.ok (huntSource name), false, ()⟩ }

theorem named_outage : outageTracer.lookup.Named := by
  intro name s f hf
  dsimp only [Tracer.lookup, outageTracer] at hf
  split at hf
  · cases hf
  · exact named_hunt name s f hf

theorem lookup_outage (name : String) (s : State Unit) (e : Failure)
    (he : (outageTracer.lookup name s).1 = .error e) : Minor e := by
  dsimp only [Tracer.lookup, outageTracer] at he
  split at he <;> cases he
  exact ⟨rfl, nofun⟩

/-- The fourth type would still yield a description. It is not tried: the
failed lookup is what is reported, though an oracle that failed like that
would be passed over. -/
theorem failed_lookup_ends_search :
    outageTracer.FailsMinor ∧ outageTracer.lookup.Named ∧
    (∀ name s e, (outageTracer.lookup name s).1 = .error e → Minor e) ∧
    outageTracer.Able huntStart ∧
    (∃ r s₁ s₂,
      Source.resolve outageTracer.lookup outageTracer.hierarchyDepth "A" "m"
        huntStart = (.ok r, s₁) ∧
      outageTracer.find ⟨"A", "m"⟩ r s₁ =
        (.ok (.absent ["A", "X", "E", "G", "H"]), s₂)) ∧
    ∃ e s₃, outageTracer.base ⟨"A", "m"⟩ huntStart = (.error e, s₃) ∧
      Minor e ∧ s₃.session.cancelled = false ∧
      ∃ other a s₄, outageTracer.Yields "m" "G" s₃ other a s₄ := by
  obtain ⟨hasked, hfailed, hlive, hleft⟩ :
      (outageTracer.seek ⟨"A", "m"⟩ "A" huntStart).1.toOption.any
        (fun x => x.2 = .absent ["A", "X", "E", "G", "H"]) = true ∧
      (outageTracer.base ⟨"A", "m"⟩ huntStart).1.mapError
        Failure.code? = .error (some "LLM_ERROR") ∧
      (outageTracer.base ⟨"A", "m"⟩ huntStart).2.session.cancelled = false ∧
      (outageTracer.seek ⟨"G", "m"⟩ "G"
        (outageTracer.base ⟨"A", "m"⟩ huntStart).2).1.toOption.any
          (fun
            | (r, .described a) => r.defining = "G" ∧ a.status = .complete
            | (_, .absent _) => false) = true := by
    decide +kernel
  obtain ⟨r, s₁, found, s₂, hresolve, hfind, hsaid⟩ :=
    Tracer.seek_ok hasked
  obtain rfl := of_decide_eq_true hsaid
  obtain ⟨other, s₁', found, s₄, hother, hdescribed, hyields⟩ :=
    Tracer.seek_ok hleft
  refine ⟨failsMinor_hunt, named_outage, lookup_outage, able_hunt,
    ⟨r, s₁, s₂, hresolve, hfind⟩, ?_⟩
  rcases hbase : outageTracer.base ⟨"A", "m"⟩ huntStart with ⟨e | a, s₃⟩
  · rw [hbase] at hfailed hlive hother
    have hcode : e.code? = some "LLM_ERROR" := Except.error.inj hfailed
    refine ⟨e, s₃, rfl, ⟨by rw [Failure.isOwn, hcode]; rfl, ?_⟩, hlive, ?_⟩
    · rintro u rfl
      simp [Failure.code?] at hcode
    · cases found with
      | absent _ => cases hyields
      | described a =>
        obtain ⟨hdefining, hcomplete⟩ := of_decide_eq_true hyields
        rw [← hdefining] at hdescribed
        exact ⟨other, a, s₄, hcomplete, s₁', hother, hdescribed⟩
  · rw [hbase] at hfailed
    cases hfailed

end CallTrace.Run
