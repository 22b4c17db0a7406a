/-
Describing a method while nothing outside varies.

As long as the sources and the replies stay the same, whatever run uses the
cache files under each method nothing but the description that the method
comes to: this is a rule for the entries of the cache. It is kept by a run
that is cancelled at any point, and by one that the cache fails. And what a
run finds, in the cache or by asking, is that description, unless it is
cancelled or failed by the cache; a run that is neither comes to the same
whether it uses the cache or not.

One condition is needed. A description that was asked for on a suggestion
is filed under the type whose source it comes of, as if it had been asked
for there, and is found there as well. So that source has to stand alone.
-/
import CallTrace.Proofs.Cache.Faults
import CallTrace.Proofs.Cache.Loading
import CallTrace.Proofs.Run.Fixed
import CallTrace.Proofs.Run.Listen
import CallTrace.Proofs.Run.Moves

namespace CallTrace.Run

open Cache (Rule)
open Number (Double)
open Source (Resolved)

variable {σ : Type} {α β : Type}

-- ============================================================ steadiness

namespace Tracer

/-- What is outside does not vary. Nothing is said about when it answers,
what it tells of its state, and when it cancels a run. -/
structure Steady (t : Tracer σ) (x : Fixed) : Prop where
  sourceOf : ∀ name files o, (t.sourceOf name files o).value = x.sourceOf name
  answers : ∀ prompt key (s : State σ),
    s.session.identity = x.identity → s.session.limits.timeout = x.limit →
    (t.ask prompt key s).1 = x.ask key prompt
  maxSuggestions : t.maxSuggestions = x.maxSuggestions
  hierarchyDepth : t.hierarchyDepth = x.hierarchyDepth

/-- Nothing outside ever cancels a run. -/
structure Calm (t : Tracer σ) : Prop where
  sourceOf : ∀ name files o, (t.sourceOf name files o).cancels = false
  answerTo : ∀ identity prompt o, (t.answerTo identity prompt o).cancels = false
  inform : ∀ e o, (t.inform e o).cancels = false

/-- The cache, if it is used, does not fail. -/
def Able (t : Tracer σ) (s : State σ) : Prop :=
  t.usesCache s = true → s.world.store.Serviceable

end Tracer

/-- Under each method lies the description it comes to. -/
def Fixed.Right (x : Fixed) : Rule := fun key a _ identity =>
  identity = x.identity → x.base key = .ok (a.stamped .zero)

theorem Fixed.right_timeless (x : Fixed) : x.Right.Timeless :=
  fun _ _ _ _ _ h => h

/-- The run asks the oracle that is meant, waits as long for a reply, and
its cache holds what is right. -/
structure State.Fits (s : State σ) (x : Fixed) : Prop where
  identity : s.session.identity = x.identity
  limit : s.session.limits.timeout = x.limit
  obeys : s.world.store.Obeys x.Right

/-- What describing a method does to a run while nothing varies. -/
structure Keeps (t : Tracer σ) (x : Fixed) (s s' : State σ) : Prop where
  books : s'.session.books = s.session.books
  cancelled : s.session.cancelled = true → s'.session.cancelled = true
  calm : t.Calm → s.session.cancelled = false → s'.session.cancelled = false
  obeys : s.world.store.Obeys x.Right → s'.world.store.Obeys x.Right
  able : t.Able s → t.Able s'

namespace Keeps

variable {t : Tracer σ} {x : Fixed} {s s' : State σ}

theorem refl (s : State σ) : Keeps t x s s := ⟨rfl, id, fun _ => id, id, id⟩

theorem trans (s s' s'' : State σ) (h : Keeps t x s s')
    (h' : Keeps t x s' s'') : Keeps t x s s'' where
  books := h'.books.trans h.books
  cancelled := h'.cancelled ∘ h.cancelled
  calm ht := h'.calm ht ∘ h.calm ht
  obeys := h'.obeys ∘ h.obeys
  able := h'.able ∘ h.able

theorem identity (h : Keeps t x s s') :
    s'.session.identity = s.session.identity :=
  (congrArg Session.identity h.books :)

theorem limits (h : Keeps t x s s') :
    s'.session.limits = s.session.limits :=
  (congrArg Session.limits h.books :)

theorem usesCache (h : Keeps t x s s') : t.usesCache s' = t.usesCache s := by
  rw [Tracer.usesCache, Tracer.usesCache, h.limits]

theorem fits (h : Keeps t x s s') (hs : s.Fits x) : s'.Fits x where
  identity := h.identity.trans hs.identity
  limit := h.limits.symm ▸ hs.limit
  obeys := h.obeys hs.obeys

/-- Something outside is asked or told. -/
theorem heard {a : Answer σ β} (ha : t.Calm → a.cancels = false) :
    Keeps t x s (s.heard a) where
  books := rfl
  cancelled hc := by
    show (s.session.cancelled || a.cancels) = true
    rw [hc, Bool.true_or]
  calm ht hc := by
    show (s.session.cancelled || a.cancels) = false
    rw [hc, ha ht, Bool.or_self]
  obeys := id
  able := id

/-- The store is changed. -/
theorem stored {store : Cache.Store}
    (hobeys : s.world.store.Obeys x.Right → store.Obeys x.Right)
    (hable : t.Able s → t.usesCache s = true → store.Serviceable) :
    Keeps t x s { s with world.store := store } :=
  ⟨rfl, id, fun _ => id, hobeys, hable⟩

end Keeps

namespace Tracer

variable {t : Tracer σ} {x : Fixed} {key : MethodKey} {r other : Resolved}
  {s s' : State σ}

/-- Asking changes nothing that does not vary. -/
theorem listens_keeps (t : Tracer σ) (x : Fixed) :
    Listens t (Keeps t x) where
  refl := Keeps.refl
  trans := Keeps.trans
  looked _ _ := .heard fun h => h.sourceOf _ _ _
  answered _ _ := .heard fun h => h.answerTo _ _ _
  told _ _ := .heard fun h => h.inform _ _
  counted _ := ⟨rfl, id, fun _ => id, id, id⟩
  slept _ _ := ⟨rfl, id, fun _ => id, id, id⟩

-- ============================================================= asking

/-- A method is resolved to the same source everywhere. -/
theorem Steady.resolve (ht : t.Steady x) (typeName method : String)
    (s : State σ) :
    (Source.resolve t.lookup t.hierarchyDepth typeName method s).1 =
      x.resolve typeName method := by
  have hreads : t.Reads x.sourceOf := ht.sourceOf
  rw [hreads.resolve, ht.hierarchyDepth]
  rfl

/-- A failure of the cache, which a cache that is able does not have. -/
def Unable (t : Tracer σ) (s : State σ) (e : Failure) : Prop :=
  Cache.Alien e ∧ ¬t.Able s

theorem Unable.before {e : Failure} (h : t.Unable s' e)
    (hs : Keeps t x s s') : t.Unable s e :=
  ⟨h.1, fun hable => h.2 (hs.able hable)⟩

-- ============================================================== cache

/-- What is found in the cache is the description of the method. -/
theorem cached_keeps (hkey : key.IsPlain) (hs : s.Fits x)
    (fingerprint : String) :
    Action.Leads (Keeps t x) (t.cached key fingerprint) s fun result _ =>
      (∀ a, result = .ok (some a) → x.base key = .ok (a.stamped .zero)) ∧
      ∀ e, result = .error e → t.Unable s e := by
  rw [cached]
  refine .look ?_
  split
  · rename_i huses
    obtain ⟨hobeys, hright⟩ := hs.obeys.lookup x.right_timeless
      s.world.clock hkey fingerprint s.session.identity
    have halien := Cache.Store.alien_lookup s.world.clock key fingerprint
      s.session.identity s.world.store
    have hable := fun h : s.world.store.Serviceable =>
      h.lookup s.world.clock key fingerprint s.session.identity
    rcases hr : Cache.Store.lookup s.world.clock key fingerprint
      s.session.identity s.world.store with ⟨e | found, store⟩ <;>
      rw [hr] at hobeys hright halien hable
    · have hrun : onStore (fun clock => Cache.Store.lookup clock key
          fingerprint s.session.identity) s =
          (.error e, { s with world.store := store }) := by
        rw [onStore, hr]
      refine .failed hrun (.stored (fun _ => hobeys) fun h hu =>
        (hable (h hu)).2) ⟨fun a ha => absurd ha (by simp), ?_⟩
      rintro _ ⟨⟩
      refine ⟨halien e rfl, fun h => ?_⟩
      obtain ⟨⟨found, hfound⟩, -⟩ := hable (h huses)
      exact absurd hfound (by simp)
    · have hstored : Keeps t x s { s with world.store := store } :=
        .stored (fun _ => hobeys) fun h hu => (hable (h hu)).2
      refine .step Keeps.trans (x := found) (by rw [onStore, hr]) hstored ?_
      rcases found with _ | a
      · exact .step Keeps.trans rfl ⟨rfl, id, fun _ => id, id, id⟩
          (.pure Keeps.refl ⟨fun a ha => absurd ha (by simp),
            fun e he => absurd he (by simp)⟩)
      · refine .step Keeps.trans rfl ⟨rfl, id, fun _ => id, id, id⟩
          (.pure Keeps.refl ⟨fun b hb => ?_, fun e he => absurd he (by simp)⟩)
        cases hb
        exact hright a rfl hs.identity
  · exact .pure Keeps.refl ⟨fun a ha => absurd ha (by simp),
      fun e he => absurd he (by simp)⟩

/-- The description of a method may be filed under it. -/
theorem file_keeps (hkey : key.IsPlain) (hs : s.Fits x) {a : Analysis}
    (ha : x.base key = .ok (a.stamped .zero)) (r : Resolved) :
    Action.Leads (Keeps t x) (t.file key a r) s fun result _ =>
      ∀ e, result = .error e → t.Unable s e := by
  rw [file]
  refine .look ?_
  split
  · rename_i huses
    have hobeys := hs.obeys.store x.right_timeless s.world.clock hkey
      (f := Source.fingerprint r.source.content)
      (i := s.session.identity) (fun _ => ha) r.source.path
    have halien := Cache.Store.alien_store s.world.clock key a
      (Source.fingerprint r.source.content) s.session.identity
      r.source.path s.world.store
    have hable := fun h : s.world.store.Serviceable =>
      h.store s.world.clock key a (Source.fingerprint r.source.content)
        s.session.identity r.source.path
    refine ⟨.stored (fun _ => hobeys) fun h hu => (hable (h hu)).2,
      fun e he => ⟨halien e he, fun h => ?_⟩⟩
    obtain ⟨⟨u, hu⟩, -⟩ := hable (h huses)
    exact absurd (hu.symm.trans he) (by simp)
  · exact .pure Keeps.refl fun e he => absurd he (by simp)

theorem recordTime_keeps (x : Fixed) (ms : Double) (s : State σ) :
    Keeps t x s (t.recordTime ms s).2 := by
  rw [recordTime]
  split
  · exact .stored (·.recordTime ms) fun h hu =>
      ⟨(h hu).room, (h hu).loadable⟩
  · exact .refl s

-- ======================================================= descriptions

/-- The analysis is the description that the method comes to, but for its
time, or what is left of one by a run that is cancelled. -/
def Stands (x : Fixed) (key : MethodKey) (a : Analysis) (s : State σ) :
    Prop :=
  x.base key = .ok (a.stamped .zero) ∨
    a.status ≠ .complete ∧ s.session.cancelled = true

/-- What comes of looking for a method in a source, from the state `s`: it
is described, or is absent as it always is, or the failure is the one there
always is, or one of the cache. -/
structure Sought (t : Tracer σ) (x : Fixed) (key : MethodKey) (r : Resolved)
    (s : State σ) (result : Except Failure Finding) (s' : State σ) :
    Prop where
  described : ∀ a, result = .ok (.described a) → Stands x key a s'
  absent : ∀ suggestions, result = .ok (.absent suggestions) →
    x.find key r = .ok (.absent suggestions)
  failed : ∀ e, result = .error e →
    x.find key r = .error e ∨ t.Unable s e

namespace Sought

theorem of_described {a : Analysis} (h : Stands x key a s') :
    Sought t x key r s (.ok (.described a)) s' where
  described b hb := by
    cases hb
    exact h
  absent _ h := absurd h (by simp)
  failed _ h := absurd h (by simp)

theorem of_error {e : Failure}
    (h : x.find key r = .error e ∨ t.Unable s e) :
    Sought t x key r s (.error e) s' where
  described _ h := absurd h (by simp)
  absent _ h := absurd h (by simp)
  failed e he := by
    cases he
    exact h

end Sought

/-- A cancelled run leaves a leaf. -/
theorem cancelledLeaf_keeps (x : Fixed) (key : MethodKey)
    (hc : s.session.cancelled = true) :
    Action.Leads (Keeps t x) (cancelledLeaf key) s fun result s' =>
      ∃ a, result = .ok a ∧ a.status ≠ .complete ∧
        s'.session.cancelled = true :=
  ⟨.refl s, _, rfl, by simp [Analysis.placeholder], hc⟩

/-- Asking about a method in a source. What is described there has to be
what the method comes to, since it is filed under the method. -/
theorem inquire_keeps (ht : t.Steady x) (hkey : key.IsPlain)
    (hs : s.Fits x)
    (hbase : ∀ a, x.find key r = .ok (.described a) → x.base key = .ok a) :
    Action.Leads (Keeps t x) (t.inquire key r) s (Sought t x key r s) := by
  rw [inquire]
  refine .look ?_
  have hask : (t.ask (promptFor key r) key s).1 =
      x.ask key (promptFor key r) :=
    ht.answers _ key s hs.identity hs.limit
  refine .bind Keeps.trans (Q := fun result _ =>
      result = x.ask key (promptFor key r))
    ⟨(t.listens_keeps x).ask _ key s, hask⟩ ?_ ?_
  · intro answer s₁ hs₁ hanswer
    refine .look ?_
    dsimp only
    rcases hp : Reply.parse r.defining answer with suggestions | blocks | _
    · refine .pure Keeps.refl ⟨fun _ h => absurd h (by simp), ?_,
        fun _ h => absurd h (by simp)⟩
      rintro _ ⟨⟩
      simp only [Fixed.find, ← hanswer, hp]
    · have hfind : x.find key r =
          .ok (.described (describe key r (.described blocks) .zero)) := by
        simp only [Fixed.find, ← hanswer, hp, Reply.errorMessage?]
      have hright : x.base key = .ok ((describe key r (.described blocks)
          s₁.timeOfDay).stamped .zero) := hbase _ hfind
      have htimed := recordTime_keeps (t := t) x
        ((s₁.now - s.now) * .ofInt 1000) s₁
      refine .look (.step Keeps.trans (Action.lift_run _ _) htimed ?_)
      refine .bind Keeps.trans (file_keeps hkey (htimed.fits (hs₁.fits hs))
        hright r) ?_ ?_
      · exact fun _ _ _ _ => .pure Keeps.refl (.of_described (.inl hright))
      · exact fun e _ _ he => .of_error
          (.inr (((he e rfl).before htimed).before hs₁))
    · refine .throw Keeps.refl (.of_error (.inl ?_))
      simp only [Fixed.find, ← hanswer, hp, Reply.errorMessage?]
  · intro e s₁ _ he
    refine .of_error (.inl ?_)
    simp only [Fixed.find, ← he]

/-- Looking for a method gives what it always gives, though it may come
from the cache. -/
theorem find_keeps (ht : t.Steady x) (hkey : key.IsPlain)
    (hs : s.Fits x)
    (hbase : ∀ a, x.find key r = .ok (.described a) → x.base key = .ok a) :
    Action.Leads (Keeps t x) (t.find key r) s (Sought t x key r s) := by
  rw [find]
  refine .bind Keeps.trans (cached_keeps hkey hs _) ?_
    fun e s₁ _ he => .of_error (.inr (he.2 e rfl))
  intro found s₁ hs₁ hfound
  rcases found with _ | a
  · refine .look ?_
    split
    · rename_i hc
      refine .bind Keeps.trans (cancelledLeaf_keeps x key hc) ?_ ?_
      · rintro _ s₂ - ⟨a, ⟨⟩, ha⟩
        exact .pure Keeps.refl (.of_described (.inr ha))
      · rintro e s₂ - ⟨a, ⟨⟩, -⟩
    · refine (inquire_keeps ht hkey (hs₁.fits hs) hbase).weaken ?_
      intro result s₂ _ h
      exact ⟨h.described, h.absent, fun e he =>
        (h.failed e he).imp_right (·.before hs₁)⟩
  · exact .pure Keeps.refl (.of_described (.inl (hfound.1 a rfl)))

-- ======================================================== suggestions

/-- What comes of describing a method, from the state `s`. -/
structure Comes (t : Tracer σ) (x : Fixed) (key : MethodKey) (s : State σ)
    (result : Except Failure Analysis) (s' : State σ) : Prop where
  described : ∀ a, result = .ok a → Stands x key a s'
  failed : ∀ e, result = .error e →
    x.base key = .error e ∨ t.Unable s e ∨ s'.session.cancelled = true

namespace Comes

theorem of_ok {a : Analysis} (h : Stands x key a s') :
    Comes t x key s (.ok a) s' where
  described b hb := by
    cases hb
    exact h
  failed _ h := absurd h (by simp)

theorem of_error {e : Failure}
    (h : x.base key = .error e ∨ t.Unable s e ∨
      s'.session.cancelled = true) : Comes t x key s (.error e) s' where
  described _ h := absurd h (by simp)
  failed e he := by
    cases he
    exact h

theorem before {s₀ : State σ} {result : Except Failure Analysis}
    (h : Comes t x key s result s') (hs : Keeps t x s₀ s) :
    Comes t x key s₀ result s' :=
  ⟨h.described, fun e he =>
    (h.failed e he).imp_right (Or.imp_left (·.before hs))⟩

/-- After a cancelled run anything may be left, but no description. -/
theorem of_cancelled {result : Except Failure Analysis}
    (hc : s'.session.cancelled = true)
    (h : ∀ a, result = .ok a → a.status ≠ .complete) :
    Comes t x key s result s' :=
  ⟨fun a ha => .inr ⟨h a ha, hc⟩, fun _ _ => .inr (.inr hc)⟩

end Comes

/-- Once the run is cancelled no more suggestions are tried. -/
theorem trySuggestions_cancelled (x : Fixed) (key : MethodKey)
    (r : Resolved) (names : List String)
    (hc : s.session.cancelled = true) :
    ∀ tried searched : List String,
      Action.Leads (Keeps t x) (t.trySuggestions key r tried searched names) s
        fun result _ => ∀ a, result = .ok a → a.status ≠ .complete := by
  induction names with
  | nil =>
    exact fun _ _ => .throw Keeps.refl fun a ha => absurd ha (by simp)
  | cons name rest ih =>
    intro tried searched
    rw [trySuggestions]
    split
    · exact ih _ _
    refine .look ?_
    rw [if_pos hc]
    refine (cancelledLeaf_keeps x key hc).weaken ?_
    rintro _ _ - ⟨a, rfl, ha, -⟩ b hb
    cases hb
    exact ha

/-- Trying the source of another type. When that comes to nothing it is
`next` that decides, and so it is for what the method comes to. -/
theorem tryOther_keeps (ht : t.Steady x) (hkey : key.IsPlain)
    (hs : s.Fits x) (r : Resolved) (halone : x.Alone key.methodName other)
    {rest : Except Failure Analysis}
    (hbase : x.base key = x.tryOther key other rest)
    {next : Action (State σ) Analysis}
    (hnext : ∀ s', Keeps t x s s' → x.base key = rest →
      Action.Leads (Keeps t x) next s' (Comes t x key s'))
    (hcancelled : ∀ s', Keeps t x s s' → s'.session.cancelled = true →
      Action.Leads (Keeps t x) next s' fun result _ =>
        ∀ a, result = .ok a → a.status ≠ .complete) :
    Action.Leads (Keeps t x) (t.tryOther key r other next) s
      (Comes t x key s) := by
  have hother : (MethodKey.mk other.defining key.methodName).IsPlain := hkey
  obtain ⟨hkeeps, hfound⟩ := find_keeps ht hother hs
    fun a ha => halone.base_of_find ha
  rw [tryOther]
  rcases hf : t.find ⟨other.defining, key.methodName⟩ other s with
    ⟨found, s'⟩
  rw [hf] at hkeeps hfound
  have hattempt : attempt (t.find ⟨other.defining, key.methodName⟩ other) s
      = (.ok found, s') := by rw [attempt, hf]
  refine .step Keeps.trans hattempt hkeeps ?_
  rw [Fixed.tryOther] at hbase
  have hgo : x.base key = rest →
      Action.Leads (Keeps t x) next s' (Comes t x key s) := fun h =>
    (hnext s' hkeeps h).weaken fun _ _ _ hcomes => hcomes.before hkeeps
  rcases found with e | a | suggestions
  · rcases hfound.failed e rfl with he | he
    · rw [he] at hbase
      cases e with
      | unresolved u => exact .throw Keeps.refl (.of_error (.inl hbase))
      | _ =>
        dsimp only at hbase ⊢
        split at hbase
        · rename_i hown
          rw [if_pos hown]
          exact hgo hbase
        · rename_i hown
          rw [if_neg hown]
          exact .throw Keeps.refl (.of_error (.inl hbase))
    · have hown : e.isOwn = false := he.1
      cases e with
      | unresolved u => exact absurd hown (by simp [Failure.isOwn, Failure.code?])
      | _ =>
        dsimp only
        rw [if_neg (by rw [hown]; exact Bool.false_ne_true)]
        exact .throw Keeps.refl (.of_error (.inr (.inl he)))
  · dsimp only
    rcases hfound.described a rfl with hright | ⟨hstatus, hc⟩
    · have hstatus : a.status = .complete :=
        (Fixed.base_described hright :)
      rw [halone.find_of_base hright] at hbase
      have hreaddressed : x.base key = .ok
          ((readdress key a other.defining).stamped .zero) := hbase
      rw [if_pos hstatus]
      refine .bind Keeps.trans
        (file_keeps hkey (hkeeps.fits hs) hreaddressed r) ?_ ?_
      · exact fun _ _ _ _ =>
          .pure Keeps.refl (.of_ok (.inl hreaddressed))
      · exact fun e _ _ he =>
          .of_error (.inr (.inl ((he e rfl).before hkeeps)))
    · rw [if_neg hstatus]
      refine (hcancelled s' hkeeps hc).weaken fun result s'' h hresult => ?_
      exact .of_cancelled (h.cancelled hc) hresult
  · rw [hfound.absent suggestions rfl] at hbase
    exact hgo hbase

/-- Trying suggestions gives what it always gives. The induction is on the
names that are left; of those before, each was tried and gave nothing, so
what is left decides what the method has. -/
theorem trySuggestions_keeps (ht : t.Steady x) (hkey : key.IsPlain)
    (r : Resolved) (names : List String) :
    ∀ (tried searched : List String) (s : State σ), s.Fits x →
      x.base key = x.trySuggestions key tried searched names →
      (∀ name ∈ names, tried.contains name = false →
        ∀ other, x.resolve name key.methodName = .ok other →
          x.Alone key.methodName other) →
      Action.Leads (Keeps t x) (t.trySuggestions key r tried searched names)
        s (Comes t x key s) := by
  induction names with
  | nil =>
    intro tried searched s hs hbase _
    exact .throw Keeps.refl (.of_error (.inl hbase))
  | cons name rest ih =>
    intro tried searched s hs hbase halone
    rw [Fixed.trySuggestions] at hbase
    rw [trySuggestions]
    have hrest : ∀ n ∈ rest, tried.contains n = false →
        ∀ other, x.resolve n key.methodName = .ok other →
          x.Alone key.methodName other := fun n hn =>
      halone n (List.mem_cons_of_mem _ hn)
    split
    · rename_i htried
      rw [if_pos htried] at hbase
      exact ih _ _ s hs hbase hrest
    rename_i htried
    rw [if_neg htried] at hbase
    have hmore : ∀ n ∈ rest, (name :: tried).contains n = false →
        ∀ other, x.resolve n key.methodName = .ok other →
          x.Alone key.methodName other := fun n hn hnew =>
      hrest n hn (by simp at hnew ⊢; exact hnew.2)
    refine .look ?_
    split
    · rename_i hc
      refine (cancelledLeaf_keeps x key hc).weaken ?_
      rintro _ s' - ⟨a, rfl, ha⟩
      exact .of_ok (.inr ha)
    have hkeeps := (t.listens_keeps x).resolve t.hierarchyDepth name
      key.methodName s
    have hresolve := ht.resolve name key.methodName s
    rcases hr : Source.resolve t.lookup t.hierarchyDepth name
      key.methodName s with ⟨resolved, s'⟩
    rw [hr] at hkeeps hresolve
    have hattempt : attempt (Source.resolve t.lookup t.hierarchyDepth name
        key.methodName) s = (.ok resolved, s') := by rw [attempt, hr]
    refine .step Keeps.trans hattempt hkeeps ?_
    have hresolved : x.resolve name key.methodName = resolved := hresolve.symm
    rw [hresolved] at hbase
    rcases resolved with e | other
    · cases e with
      | unresolved u =>
        exact (ih _ _ s' (hkeeps.fits hs) hbase hmore).weaken
          fun _ _ _ h => h.before hkeeps
      | _ => exact .throw Keeps.refl (.of_error (.inl hbase))
    · refine (tryOther_keeps ht hkey (hkeeps.fits hs) r
        (halone name (List.mem_cons_self ..) (by simpa using htried) other
          hresolved) hbase ?_ ?_).weaken fun _ _ _ h => h.before hkeeps
      · exact fun s'' hs'' h => ih _ _ s'' (hs''.fits (hkeeps.fits hs)) h hmore
      · exact fun s'' _ hc => trySuggestions_cancelled x key r rest hc _ _

/-- Describing a method while nothing outside varies. -/
theorem base_keeps (ht : t.Steady x) (hx : x.Standalone)
    (hkey : key.IsPlain) (hs : s.Fits x) :
    Action.Leads (Keeps t x) (t.base key) s (Comes t x key s) := by
  rw [base]
  refine .look ?_
  split
  · rename_i hc
    refine (cancelledLeaf_keeps x key hc).weaken ?_
    rintro _ s' - ⟨a, rfl, ha⟩
    exact .of_ok (.inr ha)
  have hresolve : Action.Leads (Keeps t x) (Source.resolve t.lookup
      t.hierarchyDepth key.typeName key.methodName) s fun result _ =>
        x.resolve key.typeName key.methodName = result :=
    ⟨(t.listens_keeps x).resolve _ _ _ s, (ht.resolve _ _ s).symm⟩
  refine .bind Keeps.trans hresolve ?_ ?_
  · intro r s₁ hs₁ hr
    have hbase : ∀ a, x.find key r = .ok (.described a) →
        x.base key = .ok a := fun a ha => by
      simp only [Fixed.base, hr, ha]
    refine .bind Keeps.trans
      (find_keeps ht hkey (hs₁.fits hs) hbase) ?_ ?_
    · intro found s₂ hs₂ hfound
      cases found with
      | described a =>
        exact .pure Keeps.refl (.of_ok (hfound.described a rfl))
      | absent suggestions =>
        have hfind := hfound.absent suggestions rfl
        have hrest : x.base key = x.trySuggestions key r.chain r.chain
            (firstItems t.maxSuggestions suggestions) := by
          simp only [Fixed.base, hr, hfind, ht.maxSuggestions]
        refine (trySuggestions_keeps ht hkey r _ _ _ s₂
          (hs₂.fits (hs₁.fits hs)) hrest ?_).weaken fun _ _ _ h =>
            (h.before hs₂).before hs₁
        intro name hname hnew other hother
        exact hx key name other ⟨r, suggestions, hr, hfind,
          ht.maxSuggestions ▸ hname, hnew⟩ hother
    · intro e s₂ _ hfound
      rcases hfound.failed e rfl with he | he
      · refine .of_error (.inl ?_)
        simp only [Fixed.base, hr, he]
      · exact .of_error (.inr (.inl (he.before hs₁)))
  · intro e s₁ _ hr
    refine .of_error (.inl ?_)
    simp only [Fixed.base, hr]

/-- Where nothing cancels the run and the cache does not fail, a method
comes to the same whether it is looked up or asked for. -/
theorem base_calm (ht : t.Steady x) (hcalm : t.Calm) (hx : x.Standalone)
    (hkey : key.IsPlain) (hs : s.Fits x) (hable : t.Able s)
    (hc : s.session.cancelled = false) :
    (t.base key s).1.map (·.stamped .zero) = x.base key := by
  obtain ⟨hkeeps, hcomes⟩ := base_keeps ht hx hkey hs
  have hc' := hkeeps.calm hcalm hc
  rcases hr : (t.base key s).1 with e | a <;> rw [hr] at hcomes
  · rcases hcomes.failed e rfl with h | h | h
    · exact h.symm
    · exact absurd hable h.2
    · exact absurd (h.symm.trans hc') (by simp)
  · rcases hcomes.described a rfl with h | ⟨-, h⟩
    · exact h.symm
    · exact absurd (h.symm.trans hc') (by simp)

end Tracer

end CallTrace.Run
