/-
What a run leaves unasked for being cancelled while it describes a method.

A description is compared with the one that the same run would have given
had nothing cancelled it. Up to the first place where the run takes note
that it was cancelled the two go in step, except for the note. From there
on the other one may put further questions to the oracle; the cancelled
one puts none, and gives its leaf.

There is one exception. A run may be cancelled while the source of a
suggested type is looked up. The leaf that comes of that suggestion is
taken for one more type that does not have the method, and the next one is
tried, which notices and gives the leaf of the method. But where no other
suggestion is left, the method counts as found nowhere.
-/
import CallTrace.Proofs.Run.Contained
import CallTrace.Proofs.Run.InStep

namespace CallTrace.Run

open Number (Double)
open Source (Resolved)

variable {σ α : Type}

-- ================================================================ calm

/-- The answer, but the run is not cancelled on the occasion. -/
def Answer.calm (a : Answer σ α) : Answer σ α := { a with cancels := false }

/-- The tracer in surroundings that cancel nothing. -/
def Tracer.calm (t : Tracer σ) : Tracer σ :=
  { t with
    sourceOf := fun name files o => (t.sourceOf name files o).calm
    answerTo := fun identity prompt o => (t.answerTo identity prompt o).calm
    inform := fun e o => (t.inform e o).calm }

/-- The state of a run that is not cancelled. -/
def State.calm (s : State σ) : State σ :=
  { s with session.cancelled := false }

/-- The second state is the first one with no note of a cancellation. -/
def Calmed (s s' : State σ) : Prop := s' = s.calm

namespace Tracer

section

variable (t : Tracer σ)

/-- Calm surroundings tell a run nothing else. -/
theorem hearsAlike_calm : HearsAlike t t.calm Calmed where
  now := by
    rintro s _ rfl
    rfl
  depth := by
    rintro s _ rfl
    rfl
  timeout := by
    rintro s _ rfl
    rfl
  counted := by
    rintro s _ rfl
    rfl
  answered := by
    rintro s _ rfl prompt
    exact ⟨rfl, rfl⟩
  told e := by
    rintro s _ rfl
    exact ⟨rfl, rfl⟩
  slept := by
    rintro s _ rfl now
    rfl

theorem resolve_calm (typeName method : String) :
    Mirrors Calmed
      (Source.resolve t.lookup t.hierarchyDepth typeName method)
      (Source.resolve t.calm.lookup t.hierarchyDepth typeName method) := by
  refine Source.mirrors_resolve (fun name => ?_) _ _ _
  rintro s _ rfl
  exact ⟨rfl, rfl⟩

/-- Calm surroundings leave the use of the cache as it is. -/
theorem cachesAlike_calm : CachesAlike t t.calm Calmed where
  caching := rfl
  useCache := by
    rintro s _ rfl
    rfl
  identity := by
    rintro s _ rfl
    rfl
  stored act := by
    rintro s _ rfl
    exact ⟨rfl, rfl⟩
  hit := by
    rintro s _ rfl
    rfl
  missed := by
    rintro s _ rfl
    rfl
  timed := by
    rintro s _ rfl ms
    rfl

/-- Once a question is put, nothing looks at whether the run is
cancelled. -/
theorem inquire_calm (key : MethodKey) (r : Resolved) :
    Mirrors Calmed (t.inquire key r) (t.calm.inquire key r) := by
  refine Action.mirrors_get ?_
  rintro s₀ _ rfl
  refine Action.mirrors_bind (t.hearsAlike_calm.ask _ key) fun answer => ?_
  refine Action.mirrors_get ?_
  rintro s _ rfl
  dsimp only
  split
  · exact Action.mirrors_pure _
  split
  · exact Action.mirrors_throw _
  · refine Action.mirrors_get ?_
    rintro s₁ _ rfl
    refine Action.mirrors_bind (Action.mirrors_lift (t.cachesAlike_calm.recordTime _))
      fun _ => ?_
    exact Action.mirrors_bind (t.cachesAlike_calm.file key _ r) fun _ =>
      Action.mirrors_pure _

end

-- ============================================================ questions

section

/-- No question was put from one state to the other. -/
def Unasked (s s' : State σ) : Prop :=
  s'.session.oracleCalls = s.session.oracleCalls

theorem heeds_unasked (t : Tracer σ) : Heeds t Unasked where
  refl _ := rfl
  trans _ _ _ h h' := h'.trans h
  looked _ _ := rfl
  told _ _ := rfl
  slept _ _ := rfl

theorem storing_unasked : Storing (Unasked (σ := σ)) :=
  ⟨fun _ => rfl, fun _ _ _ h h' => h'.trans h, fun _ _ => rfl, fun _ => rfl,
    fun _ => rfl⟩

/-- Having the oracle describe a method is one question. -/
theorem inquire_calls (t : Tracer σ) (key : MethodKey) (r : Resolved)
    (s : State σ) : (t.inquire key r s).2.session.oracleCalls =
      s.session.oracleCalls + 1 := by
  have hask : (t.ask (promptFor key r) key s).2.session.oracleCalls =
      s.session.oracleCalls + 1 :=
    (heeds_unasked t).follow key s.session.limits.timeout
      (s.now + s.session.limits.timeout) []
      (t.answerTo s.session.identity (promptFor key r) s.world.outside).value
      _
  exact (storing_unasked.inquire t key r s).trans hask

-- ============================================================== in tune

/-- The two ends of a computation differ in the note of a cancellation
alone. -/
def InTune (x y : Except Failure α × State σ) : Prop :=
  x.1 = y.1 ∧ Calmed x.2 y.2

/-- The end is the leaf of a cancelled run. -/
def IsCancelled (key : MethodKey)
    (x : Except Failure Analysis × State σ) : Prop :=
  ∃ now, x.1 = .ok (.placeholder key .truncated cancelledReason now)

/-- The one end is that the method is found nowhere, and the other came one
question later. -/
def GivenUp (x y : Except Failure Analysis × State σ) : Prop :=
  (∃ u, x.1 = .error (.unresolved u)) ∧
    y.2.session.oracleCalls = x.2.session.oracleCalls + 1

/-- Looking for a method in one source goes in tune, unless the run was
cancelled and is not asking for that. -/
theorem find_calm (t : Tracer σ) (key : MethodKey) (r : Resolved)
    (s : State σ) :
    InTune (t.find key r s) (t.calm.find key r s.calm) ∨
    ∃ now s', s'.session.cancelled = true ∧
      s'.session.oracleCalls = s.session.oracleCalls ∧
      t.find key r s = (.ok (.described
        (.placeholder key .truncated cancelledReason now)), s') ∧
      t.calm.find key r s.calm = t.calm.inquire key r s'.calm := by
  obtain ⟨hvalue, hstate⟩ := t.cachesAlike_calm.cached key
    (Source.fingerprint r.source.content) s _ rfl
  rw [find, find]
  rcases hr : t.cached key (Source.fingerprint r.source.content) s with
    ⟨e | found, s₁⟩
  all_goals
    rcases hr' : t.calm.cached key (Source.fingerprint r.source.content)
      s.calm with ⟨_, s₁'⟩
    rw [hr, hr'] at hvalue hstate
    obtain rfl : s₁' = s₁.calm := hstate
    subst hvalue
  · rw [Action.bind_error hr, Action.bind_error hr']
    exact .inl ⟨rfl, rfl⟩
  rw [Action.bind_ok hr, Action.bind_ok hr']
  cases found with
  | some a => exact .inl ⟨rfl, rfl⟩
  | none =>
    dsimp only
    rw [Action.bind_ok (Action.get_run s₁),
      Action.bind_ok (Action.get_run s₁.calm)]
    by_cases hc : s₁.session.cancelled = true
    · rw [if_pos hc]
      refine .inr ⟨_, s₁, hc, ?_, rfl, rfl⟩
      have hasked := storing_unasked.cached t key
        (Source.fingerprint r.source.content) s
      rwa [hr] at hasked
    · rw [if_neg hc]
      exact .inl (t.inquire_calm key r s₁ _ rfl)

/-- Where all suggestions were tried before, the method is found nowhere,
whether or not the run is cancelled. -/
theorem trySuggestions_exhausted (t : Tracer σ) (key : MethodKey)
    (r : Resolved) (names : List String) (tried searched : List String)
    (h : ∀ name ∈ names, tried.contains name = true) (s : State σ) :
    t.trySuggestions key r tried searched names s =
      (.error (.unresolved ⟨key.typeName, key.methodName, searched,
        .method⟩), s) := by
  induction names with
  | nil => rfl
  | cons name rest ih =>
    obtain ⟨hname, hrest⟩ := List.forall_mem_cons.1 h
    rw [trySuggestions, if_pos hname]
    exact ih hrest

/-- A cancelled run gives the leaf where a suggestion is left to try. -/
theorem trySuggestions_interrupted (t : Tracer σ) (key : MethodKey)
    (r : Resolved) (names : List String) (tried searched : List String)
    (h : ∃ name ∈ names, tried.contains name = false) {s : State σ}
    (hc : s.session.cancelled = true) :
    IsCancelled key (t.trySuggestions key r tried searched names s) := by
  induction names with
  | nil => simp at h
  | cons name rest ih =>
    rw [trySuggestions]
    by_cases hname : tried.contains name = true
    · rw [if_pos hname]
      obtain ⟨other, hother, hleft⟩ := h
      rcases List.mem_cons.1 hother with rfl | hother
      · exact absurd (hname.symm.trans hleft) (by decide)
      · exact ih ⟨other, hother, hleft⟩
    · rw [if_neg hname, Action.bind_ok (Action.get_run s), if_pos hc]
      exact ⟨_, rfl⟩

/-- The question that is put after all, in the source of the last
suggestion, is the only one. -/
theorem tryOther_last (t : Tracer σ) (key : MethodKey) (r other : Resolved)
    {next : Action (State σ) Analysis} (hnext : next.Changes Unasked)
    {s s' : State σ}
    (hfind : t.find ⟨other.defining, key.methodName⟩ other s =
      t.inquire ⟨other.defining, key.methodName⟩ other s') :
    (t.tryOther key r other next s).2.session.oracleCalls =
      s'.session.oracleCalls + 1 := by
  have h := heeds_unasked t
  rw [← t.inquire_calls ⟨other.defining, key.methodName⟩ other s', ← hfind]
  rcases hr : t.find ⟨other.defining, key.methodName⟩ other s with ⟨found, s₁⟩
  have hrun : attempt (t.find ⟨other.defining, key.methodName⟩ other) s =
      (.ok found, s₁) := by rw [attempt, hr]
  rw [tryOther, Action.bind_ok hrun]
  rcases found with e | a | suggestions
  · cases e with
    | unresolved u => rfl
    | _ =>
      dsimp only
      split
      · exact hnext s₁
      · rfl
  · dsimp only
    split
    · exact Action.changes_bind h.trans (storing_unasked.file t key _ r)
        (fun _ => Action.changes_pure h.refl _) s₁
    · exact hnext s₁
  · exact hnext s₁

/-- What comes of a suggested type, when what comes after it is compared
already. -/
theorem tryOther_calm (t : Tracer σ) (key : MethodKey) (r other : Resolved)
    {next next' : Action (State σ) Analysis} {s : State σ}
    {P : Except Failure Analysis × State σ →
      Except Failure Analysis × State σ → Prop}
    (htune : ∀ x y, InTune x y → P x y)
    (hnext : ∀ s, P (next s) (next' s.calm))
    (hlost : ∀ s', s'.session.cancelled = true →
      t.calm.find ⟨other.defining, key.methodName⟩ other s.calm =
        t.calm.inquire ⟨other.defining, key.methodName⟩ other s'.calm →
      P (next s') (t.calm.tryOther key r other next' s.calm)) :
    P (t.tryOther key r other next s)
      (t.calm.tryOther key r other next' s.calm) := by
  rcases t.find_calm ⟨other.defining, key.methodName⟩ other s with
    ⟨hvalue, hstate⟩ | ⟨now, s', hc, -, hrun, hcalm⟩
  · rcases hr : t.find ⟨other.defining, key.methodName⟩ other s with
      ⟨found, s₁⟩
    rcases hr' : t.calm.find ⟨other.defining, key.methodName⟩ other s.calm
      with ⟨found', s₁'⟩
    rw [hr, hr'] at hvalue hstate
    obtain rfl : s₁' = s₁.calm := hstate
    obtain rfl : found = found' := hvalue
    have hrun : attempt (t.find ⟨other.defining, key.methodName⟩ other) s =
        (.ok found, s₁) := by rw [attempt, hr]
    have hrun' : attempt (t.calm.find ⟨other.defining, key.methodName⟩ other)
        s.calm = (.ok found, s₁.calm) := by rw [attempt, hr']
    rw [tryOther, tryOther, Action.bind_ok hrun, Action.bind_ok hrun']
    rcases found with e | a | suggestions
    · cases e with
      | unresolved u => exact htune _ _ ⟨rfl, rfl⟩
      | _ =>
        dsimp only
        split
        · exact hnext s₁
        · exact htune _ _ ⟨rfl, rfl⟩
    · dsimp only
      split
      · refine htune _ _ (Action.mirrors_bind (t.cachesAlike_calm.file key _ r)
          (fun _ => Action.mirrors_pure _) s₁ _ rfl)
      · exact hnext s₁
    · exact hnext s₁
  · have hleaf : t.tryOther key r other next s = next s' := by
      have hattempt : attempt
          (t.find ⟨other.defining, key.methodName⟩ other) s =
            (.ok (.ok (.described (.placeholder
              ⟨other.defining, key.methodName⟩ .truncated cancelledReason
              now))), s') := by rw [attempt, hrun]
      rw [tryOther, Action.bind_ok hattempt]
      dsimp only
      rw [if_neg (by simp [Analysis.placeholder])]
    rw [hleaf]
    exact hlost s' hc hcalm

/-- How trying suggestions ends, compared with trying them in calm
surroundings. -/
def Compares (key : MethodKey) (x y : Except Failure Analysis × State σ) :
    Prop :=
  InTune x y ∨ IsCancelled key x ∨ GivenUp x y

/-- Suggestions are tried in calm surroundings as they are otherwise, until
the run is cancelled. The induction is on the names that are left: a run
that is cancelled at one of them stays so. -/
theorem trySuggestions_calm (t : Tracer σ) (key : MethodKey) (r : Resolved)
    (names : List String) : ∀ (tried searched : List String) (s : State σ),
      Compares key (t.trySuggestions key r tried searched names s)
        (t.calm.trySuggestions key r tried searched names s.calm) := by
  induction names with
  | nil => exact fun tried searched s => .inl ⟨rfl, rfl⟩
  | cons name rest ih =>
    intro tried searched s
    rw [trySuggestions, trySuggestions]
    split
    · exact ih tried searched s
    rw [Action.bind_ok (Action.get_run s),
      Action.bind_ok (Action.get_run s.calm)]
    by_cases hc : s.session.cancelled = true
    · rw [if_pos hc]
      exact .inr (.inl ⟨_, rfl⟩)
    rw [if_neg hc, if_neg (by simp [State.calm])]
    obtain ⟨hvalue, hstate⟩ := t.resolve_calm name key.methodName s _ rfl
    rcases hr : Source.resolve t.lookup t.hierarchyDepth name
      key.methodName s with ⟨found, s₁⟩
    rcases hr' : Source.resolve t.calm.lookup t.hierarchyDepth name
      key.methodName s.calm with ⟨found', s₁'⟩
    rw [hr, hr'] at hvalue hstate
    obtain rfl : s₁' = s₁.calm := hstate
    obtain rfl : found = found' := hvalue
    have hrun : attempt (Source.resolve t.lookup t.hierarchyDepth name
        key.methodName) s = (.ok found, s₁) := by rw [attempt, hr]
    have hrun' : attempt (Source.resolve t.calm.lookup t.calm.hierarchyDepth
        name key.methodName) s.calm = (.ok found, s₁.calm) := by
      rw [attempt, show t.calm.hierarchyDepth = t.hierarchyDepth from rfl,
        hr']
    rw [Action.bind_ok hrun, Action.bind_ok hrun']
    rcases found with (u | _ | _ | _ | _ | _ | _ | _ | _ | _) | other
    case error.unresolved => exact ih _ _ s₁
    case ok =>
      refine t.tryOther_calm key r other (fun x y h => .inl h) (ih _ _) ?_
      intro s' hc' hfind
      by_cases hleft : ∃ n ∈ rest, (name :: tried).contains n = false
      · exact .inr (.inl (t.trySuggestions_interrupted key r rest _ _ hleft
          hc'))
      · have hdone : ∀ n ∈ rest, (name :: tried).contains n = true := by
          intro n hn
          by_contra hnot
          exact hleft ⟨n, hn, by simpa using hnot⟩
        rw [t.trySuggestions_exhausted key r rest _ _ hdone]
        have hlater : (t.calm.trySuggestions key r (name :: tried)
            (searched ++ other.chain.filter fun n => !searched.contains n)
            rest).Changes Unasked := by
          intro s
          rw [t.calm.trySuggestions_exhausted key r rest _ _ hdone]
          rfl
        have hone := t.calm.tryOther_last key r other hlater hfind
        exact .inr (.inr ⟨⟨_, rfl⟩, hone⟩)
    all_goals exact .inl ⟨rfl, rfl⟩

-- ========================================================= held back

/-- A method that is not in the source it was resolved to was asked
about. -/
theorem find_absent (t : Tracer σ) {key : MethodKey} {r : Resolved}
    {s s' : State σ} {suggestions : List String}
    (h : t.find key r s = (.ok (.absent suggestions), s')) :
    s'.session.oracleCalls = s.session.oracleCalls + 1 := by
  have hcached := storing_unasked.cached t key (Source.fingerprint r.source.content) s
  rw [find] at h
  rcases hr : t.cached key (Source.fingerprint r.source.content) s with
    ⟨e | found, s₁⟩ <;> rw [hr] at hcached
  · rw [Action.bind_error hr] at h
    cases h
  rw [Action.bind_ok hr] at h
  cases found with
  | some a => cases h
  | none =>
    dsimp only at h
    rw [Action.bind_ok (Action.get_run s₁)] at h
    split at h
    · cases h
    · rw [← congrArg (·.2.session.oracleCalls) h]
      exact (t.inquire_calls key r s₁).trans (congrArg (· + 1) hcached)

/-- Questions are counted up. -/
theorem describing_counts (t : Tracer σ) : Describing t fun s s' =>
    s.session.oracleCalls ≤ s'.session.oracleCalls := by
  have hlistens : Listens t fun s s' : State σ =>
      s.session.oracleCalls ≤ s'.session.oracleCalls :=
    { refl _ := Nat.le_refl _
      trans _ _ _ h h' := Nat.le_trans h h'
      looked _ _ := Nat.le_refl _
      answered _ _ := Nat.le_refl _
      told _ _ := Nat.le_refl _
      counted _ := Nat.le_succ _
      slept _ _ := Nat.le_refl _ }
  exact
    { hlistens with
      asked := hlistens.ask
      stored _ _ := Nat.le_refl _
      hit _ := Nat.le_refl _
      missed _ := Nat.le_refl _ }

/-- A description goes as in calm surroundings, or is the leaf of a
cancelled run, or was given up one question early, after one that was
put. -/
theorem base_inTune (t : Tracer σ) (key : MethodKey) (s : State σ) :
    InTune (t.base key s) (t.calm.base key s.calm) ∨
    IsCancelled key (t.base key s) ∨
    GivenUp (t.base key s) (t.calm.base key s.calm) ∧
      s.session.oracleCalls < (t.base key s).2.session.oracleCalls := by
  rw [base, base, Action.bind_ok (Action.get_run s),
    Action.bind_ok (Action.get_run s.calm)]
  by_cases hc : s.session.cancelled = true
  · rw [if_pos hc]
    exact .inr (.inl ⟨_, rfl⟩)
  rw [if_neg hc, if_neg (by simp [State.calm])]
  have hmethod := t.resolve_calm key.typeName key.methodName s _ rfl
  have hkept := (heeds_unasked t).resolve t.hierarchyDepth key.typeName
    key.methodName s
  rcases hr : Source.resolve t.lookup t.hierarchyDepth key.typeName
    key.methodName s with ⟨e | r, s₁⟩
  all_goals
    rcases hr' : Source.resolve t.calm.lookup t.calm.hierarchyDepth
      key.typeName key.methodName s.calm with ⟨_, s₁'⟩
    obtain ⟨hvalue, hstate⟩ := hmethod
    rw [show t.calm.hierarchyDepth = t.hierarchyDepth from rfl] at hr'
    rw [hr, hr'] at hvalue hstate
    rw [hr] at hkept
    obtain rfl : s₁' = s₁.calm := hstate
    subst hvalue
    rw [← show t.calm.hierarchyDepth = t.hierarchyDepth from rfl] at hr'
  · rw [Action.bind_error hr, Action.bind_error hr']
    exact .inl ⟨rfl, rfl⟩
  rw [Action.bind_ok hr, Action.bind_ok hr']
  rcases t.find_calm key r s₁ with
    ⟨hvalue, hstate⟩ | ⟨now, s', hc', -, hrun, -⟩
  · rcases hf : t.find key r s₁ with ⟨e | a | suggestions, s₂⟩
    all_goals
      rcases hf' : t.calm.find key r s₁.calm with ⟨_, s₂'⟩
      rw [hf, hf'] at hvalue hstate
      obtain rfl : s₂' = s₂.calm := hstate
      subst hvalue
    · rw [Action.bind_error hf, Action.bind_error hf']
      exact .inl ⟨rfl, rfl⟩
    · rw [Action.bind_ok hf, Action.bind_ok hf']
      exact .inl ⟨rfl, rfl⟩
    · rw [Action.bind_ok hf, Action.bind_ok hf']
      have hcount := t.find_absent hf
      have hlater := (describing_counts t).wary.trySuggestions key r
        (firstItems t.maxSuggestions suggestions) r.chain r.chain s₂
      rcases t.trySuggestions_calm key r
        (firstItems t.maxSuggestions suggestions) r.chain r.chain s₂ with
        htune | hleaf | hgiven
      · exact .inl htune
      · exact .inr (.inl hleaf)
      · refine .inr (.inr ⟨hgiven, ?_⟩)
        dsimp only
        have hkept : s₁.session.oracleCalls = s.session.oracleCalls := hkept
        omega
  · rw [Action.bind_ok hrun]
    exact .inr (.inl ⟨now, rfl⟩)

/-- Describing a method puts fewer questions to the oracle than it would in
calm surroundings. -/
def HeldBack (t : Tracer σ) (key : MethodKey) (s : State σ) : Prop :=
  (t.base key s).2.session.oracleCalls <
    (t.calm.base key s.calm).2.session.oracleCalls

/-- It is one question that is not put, and not the first. -/
structure LastHeldBack (t : Tracer σ) (key : MethodKey) (s : State σ) :
    Prop where
  absent : ∃ u, (t.base key s).1 = .error (.unresolved u)
  one : (t.calm.base key s.calm).2.session.oracleCalls =
    (t.base key s).2.session.oracleCalls + 1
  later : s.session.oracleCalls < (t.base key s).2.session.oracleCalls

/-- A question that is held back leads to the leaf of a cancelled run, or
it is the last one. -/
theorem HeldBack.cases {t : Tracer σ} {key : MethodKey} {s : State σ}
    (h : t.HeldBack key s) :
    IsCancelled key (t.base key s) ∨ t.LastHeldBack key s := by
  rcases t.base_inTune key s with ⟨-, hcalm⟩ | hleaf | ⟨⟨habsent, hone⟩, hlater⟩
  · have hequal : (t.calm.base key s.calm).2.session.oracleCalls =
        (t.base key s).2.session.oracleCalls := by rw [hcalm]; rfl
    rw [HeldBack] at h
    omega
  · exact .inl hleaf
  · exact .inr ⟨habsent, hone, hlater⟩

end

end Tracer

end CallTrace.Run
