/-
What a run finds that may go one level deeper.

A method is entered once, where it is first met. A run that may go deeper
may meet a method first on a longer way, at the end of its reach, and does
not look into the calls of it again when it comes by on a shorter way. So
it can miss what a shallower run has found. But that is all it can miss:
what is found only by the shallower run is entered by it, perhaps by way of
others, from a method that the deeper run has met first at its last level.
Calls that lead to a method entered before, or that are cut off, do not
count for that.

Each method that both enter comes to the same description, as long as
nothing varies and the cache is not used. Above its last level the deeper
run has an answer to each call of a description: the called method is
entered, or was before, or its name cannot be looked for. So it follows the
shallower run call by call, until it comes to its last level.
-/
import CallTrace.Proofs.Run.Carried
import CallTrace.Proofs.Run.Course
import CallTrace.Proofs.Run.Faithful
import CallTrace.Proofs.Run.Transparent

namespace CallTrace.Run

open Relation (TransGen)
open Trace (Enters)

variable {σ τ : Type}

-- ============================================================== layers

/-- A layer does not vary where nothing below it does. -/
theorem Tracer.Steady.over {f : τ → σ} {u : Tracer τ} {t : Tracer σ}
    {x : Fixed} (ht : t.Steady x) (h : u.Over f t) : u.Steady x where
  sourceOf name files o := by
    rw [← ht.sourceOf name files (f o), h.sourceOf]
    rfl
  answers prompt key s hi hl :=
    (h.hearsAlike.ask prompt key s _ rfl).1.trans
      (ht.answers prompt key (s.below f) hi hl)
  maxSuggestions := h.maxSuggestions.trans ht.maxSuggestions
  hierarchyDepth := h.hierarchyDepth.trans ht.hierarchyDepth

/-- A tracer over another is calm if that one is. -/
theorem Tracer.Calm.over {f : τ → σ} {u : Tracer τ} {t : Tracer σ}
    (ht : t.Calm) (h : u.Over f t) : u.Calm where
  sourceOf name files o := by
    rw [← ht.sourceOf name files (f o), h.sourceOf]
    rfl
  answerTo identity prompt o := by
    rw [← ht.answerTo identity prompt (f o), h.answerTo]
    rfl
  inform e o := by
    rw [← ht.inform e (f o), h.inform]
    rfl

-- =============================================================== quiet

/-- The run asks the oracle that is meant, waits as long for a reply, does
not use the cache, and is not cancelled. -/
structure Quiet (t : Tracer σ) (x : Fixed) (s : State σ) : Prop where
  identity : s.session.identity = x.identity
  limit : s.session.limits.timeout = x.limit
  uncached : t.usesCache s = false
  awake : s.session.cancelled = false

section

variable {t : Tracer σ} {x : Fixed} {s s' : State σ}

theorem Quiet.keeps (hcalm : t.Calm) (hs : Quiet t x s)
    (h : Keeps t x s s') : Quiet t x s' where
  identity := h.identity.trans hs.identity
  limit := h.limits.symm ▸ hs.limit
  uncached := h.usesCache.trans hs.uncached
  awake := h.calm hcalm hs.awake

/-- Whether a run is quiet depends on three things of its session. -/
theorem Quiet.of_session (hs : Quiet t x s) (session : Session)
    (hi : session.identity = s.session.identity)
    (hl : session.limits = s.session.limits)
    (hc : session.cancelled = s.session.cancelled) :
    Quiet t x { s with session := session } where
  identity := hi.trans hs.identity
  limit := hl.symm ▸ hs.limit
  uncached := by
    rw [← hs.uncached, Tracer.usesCache, Tracer.usesCache, hl]
  awake := hc.trans hs.awake

theorem Quiet.told (hcalm : t.Calm) (hs : Quiet t x s) (e : Event) :
    Quiet t x (s.heard (t.inform e s.world.outside)) :=
  hs.keeps hcalm ((t.listens_keeps x).told e s)

theorem Quiet.opened (hcalm : t.Calm) (hs : Quiet t x s) (f : Frame) :
    Quiet t x (t.opened f s) :=
  (hs.of_session (s.session.enter f) rfl rfl rfl).told hcalm
    (.started f.key f.depth)

theorem Quiet.closed (hcalm : t.Calm) (hs : Quiet t x s) (f : Frame)
    (a : Analysis) (told : Bool) : Quiet t x (t.closed f a told s) := by
  have hregistered := hs.of_session (s.session.register a) rfl rfl rfl
  cases told with
  | false => exact hregistered.of_session _ rfl rfl rfl
  | true =>
    exact (hregistered.told hcalm (.completed f.key f.depth a.status)
      ).of_session _ rfl rfl rfl

/-- Wherever a run has come that does not use the cache, a method is
described alike, but for the time. -/
theorem inStep_quiet (ht : t.Steady x) (hcalm : t.Calm) :
    InStep t t (·.stamped .zero) fun s s' => Quiet t x s ∧ Quiet t x s' where
  maxSuggestions := rfl
  hierarchyDepth := rfl
  looked name := by
    rintro s s' ⟨hs, hs'⟩
    exact ⟨(ht.sourceOf name _ _).trans (ht.sourceOf name _ _).symm,
      hs.keeps hcalm ((t.listens_keeps x).looked name s),
      hs'.keeps hcalm ((t.listens_keeps x).looked name s')⟩
  asked prompt key := by
    rintro s s' ⟨hs, hs'⟩
    exact ⟨(ht.answers prompt key s hs.identity hs.limit).trans
        (ht.answers prompt key s' hs'.identity hs'.limit).symm,
      hs.keeps hcalm ((t.listens_keeps x).ask prompt key s),
      hs'.keeps hcalm ((t.listens_keeps x).ask prompt key s')⟩
  consulted key fingerprint := by
    have hnone : ∀ {s : State σ}, Quiet t x s →
        t.cached key fingerprint s = (.ok none, s) := by
      intro s hs
      rw [Tracer.cached, Action.bind_ok (Action.get_run s),
        if_neg (by simp [hs.uncached])]
      rfl
    rintro s s' ⟨hs, hs'⟩
    rw [hnone hs, hnone hs']
    exact ⟨rfl, hs, hs'⟩
  filed key a a' r _ := by
    have hnone : ∀ {s : State σ} (a : Analysis), Quiet t x s →
        t.file key a r s = (.ok (), s) := by
      intro s a hs
      rw [Tracer.file, Action.bind_ok (Action.get_run s),
        if_neg (by simp [hs.uncached])]
      rfl
    rintro s s' ⟨hs, hs'⟩
    rw [hnone a hs, hnone a' hs']
    exact ⟨rfl, hs, hs'⟩
  timed := by
    rintro _ _ _ _ - - s s' ⟨hs, hs'⟩
    exact ⟨rfl, hs.keeps hcalm (Tracer.recordTime_keeps x _ s),
      hs'.keeps hcalm (Tracer.recordTime_keeps x _ s')⟩
  cancelled := by
    rintro s s' ⟨hs, hs'⟩
    exact hs.awake.trans hs'.awake.symm
  left _ _ _ _ := rfl
  described _ _ _ _ := rfl
  status ha := (congrArg Analysis.status ha :)
  readdressed ha key definer :=
    congrArg (Tracer.readdress key · definer) ha

/-- In quiet states a method is described alike, but for the time. -/
theorem Quiet.described (ht : t.Steady x) (hcalm : t.Calm) {key : MethodKey}
    (hs : Quiet t x s) (hs' : Quiet t x s') {a : Analysis}
    (ha : (t.base key s).1 = .ok a) :
    ∃ a', (t.base key s').1 = .ok a' ∧ a'.stamped .zero = a.stamped .zero := by
  have hsame := ((inStep_quiet ht hcalm).base key s s' ⟨hs, hs'⟩).1
  rw [ha] at hsame
  rcases hr : (t.base key s').1 with e | a'
  · rw [hr] at hsame
    exact absurd hsame (by simp [Except.map])
  · rw [hr] at hsame
    exact ⟨a', rfl, (Except.ok.inj hsame).symm⟩

theorem Quiet.entered (ht : t.Steady x) (hcalm : t.Calm) (hs : Quiet t x s)
    {f : Frame} {r : Except Failure Analysis}
    (hbase : t.base f.key (t.opened f s) = (r, s')) : Quiet t x s' := by
  have hopened := hs.opened hcalm f
  have hs' := ((inStep_quiet ht hcalm).base f.key _ _ ⟨hopened, hopened⟩).2.1
  rw [hbase] at hs'
  exact hs'

end

-- ============================================================== growth

/-- What a session adds to the methods entered. -/
structure Visits (keys : List MethodKey) (s s' : Session) : Prop where
  limits : s'.limits = s.limits
  visited : s'.visited = keys.reverse ++ s.visited
  analyzed : s'.analyzed = s.analyzed + keys.length

theorem Visits.trans {keys keys' : List MethodKey} {s s' s'' : Session}
    (h : Visits keys s s') (h' : Visits keys' s' s'') :
    Visits (keys ++ keys') s s'' where
  limits := h'.limits.trans h.limits
  visited := by
    rw [h'.visited, h.visited, List.reverse_append, List.append_assoc]
  analyzed := by
    rw [h'.analyzed, h.analyzed, List.length_append, Nat.add_assoc]

theorem Visits.subset {keys : List MethodKey} {s s' : Session}
    (h : Visits keys s s') : s.visited ⊆ s'.visited := by
  rw [h.visited]
  exact List.subset_append_right _ _

theorem Visits.room {keys : List MethodKey} {s s' : Session}
    (h : Visits keys s s') (hroom : s'.analyzed < s'.limits.maxMethods) :
    s.analyzed < s.limits.maxMethods := by
  have := h.analyzed
  rw [h.limits] at hroom
  omega

section

variable {t : Tracer σ} {x : Fixed} {s s' : State σ} {f : Frame}

theorem Visits.entered {r : Except Failure Analysis}
    (hbase : t.base f.key (t.opened f s) = (r, s')) :
    Visits [f.key] s.session s'.session := by
  have hbooks := t.base_books f.key (t.opened f s)
  rw [hbase] at hbooks
  exact ⟨(congrArg Session.limits hbooks :),
    (congrArg Session.visited hbooks :), (congrArg Session.analyzed hbooks :)⟩

theorem Visits.closed (t : Tracer σ) (f : Frame) (a : Analysis)
    (told : Bool) (s : State σ) :
    Visits [] s.session (t.closed f a told s).session :=
  ⟨t.closed_limits f a told s, t.closed_visited f a told s,
    t.closed_analyzed f a told s⟩

variable {levels : Nat} {depth : Int} {cs : List CallSite}
  {bs : List Block} {T : Tour}

/-- A course adds what it enters to what was visited. -/
theorem Course.visits (h : Course t levels depth cs bs s T s') :
    Visits T.entries s.session s'.session := by
  induction h with
  | done => exact ⟨rfl, rfl, rfl⟩
  | block _ ih | passed _ _ ih | leaf _ _ _ _ ih => exact ih
  | failed _ _ _ hbase _ _ ih =>
    have hentered := Visits.entered (f := frameOf _ _) hbase
    exact hentered.trans ((Visits.closed ..).trans ih)
  | entered _ _ _ hbase _ _ _ ihI ih =>
    have hentered := Visits.entered (f := frameOf _ _) hbase
    exact hentered.trans (ihI.trans ((Visits.closed ..).trans ih))

/-- A course leads from quiet states to quiet states. -/
theorem Course.quiet (ht : t.Steady x) (hcalm : t.Calm)
    (h : Course t levels depth cs bs s T s') (hs : Quiet t x s) :
    Quiet t x s' := by
  induction h with
  | done => exact hs
  | block _ ih | passed _ _ ih | leaf _ _ _ _ ih => exact ih hs
  | failed _ _ _ hbase _ _ ih =>
    have hs₁ := hs.entered ht hcalm (f := frameOf _ _) hbase
    exact ih (hs₁.closed hcalm ..)
  | entered _ _ _ hbase _ _ _ ihI ih =>
    have hs₁ := hs.entered ht hcalm (f := frameOf _ _) hbase
    exact ih ((ihI hs₁).closed hcalm ..)

end

-- ======================================================== what is found

/-- The method was entered, unless its name cannot be looked for. -/
def Met (s : Session) (key : MethodKey) : Prop :=
  Source.isPlausible key.typeName key.methodName = true → key ∈ s.visited

/-- The method is described somewhere on the run, and what the description
calls is met in the end. -/
def Spread (t : Tracer σ) (x : Fixed) (F : Session) (key : MethodKey) :
    Prop :=
  ∃ s, Quiet t x s ∧ ∀ b, (t.base key s).1 = .ok b → b.status = .complete →
    ∀ c ∈ b.calls, c.decision = .stepInto → Met F c.key

/-- Wherever a method is described that spreads, what it calls is met. -/
theorem Spread.met {t : Tracer σ} {x : Fixed} (ht : t.Steady x)
    (hcalm : t.Calm) {F : Session} {key : MethodKey}
    (h : Spread t x F key) {s : State σ} (hs : Quiet t x s) {b : Analysis}
    (hb : (t.base key s).1 = .ok b) (hcomplete : b.status = .complete) :
    ∀ c ∈ b.calls, c.decision = .stepInto → Met F c.key := by
  obtain ⟨s', hs', hmet⟩ := h
  obtain ⟨b', hb', hsame⟩ := hs.described ht hcalm hs' hb
  have hcalls : b'.calls = b.calls := (congrArg Analysis.calls hsame :)
  rw [← hcalls]
  exact hmet b' hb' ((congrArg Analysis.status hsame :).trans hcomplete)

section

variable {t : Tracer σ} {x : Fixed} (ht : t.Steady x) (hcalm : t.Calm)
  {levels : Nat} {depth : Int} {cs : List CallSite} {bs : List Block}
  {s s' : State σ} {T : Tour} {F : Session}

include ht hcalm

/-- With a level left and methods left to spend, every call that is to be
stepped into is met. -/
theorem Course.met (h : Course t levels depth cs bs s T s')
    (hs : Quiet t x s) (hlevels : levels ≠ 0)
    (hroom : s'.session.analyzed < s'.session.limits.maxMethods)
    (hF : s'.session.visited ⊆ F.visited) :
    ∀ c ∈ cs ++ bs.flatMap (·.calls), c.decision = .stepInto →
      Met F c.key := by
  induction h with
  | done => exact fun c hc => absurd hc List.not_mem_nil
  | block _ ih => exact ih hs hlevels hroom hF
  | passed hpass _ ih =>
    refine List.forall_mem_cons.2 ⟨fun hinto => ?_, ih hs hlevels hroom hF⟩
    rcases hpass with hpass | hpass
    · exact absurd hinto hpass
    · exact absurd (hs.awake.symm.trans hpass) (by simp)
  | @leaf levels depth c cs bs s s' T a _ _ ha hrest ih =>
    refine List.forall_mem_cons.2 ⟨fun _ hnameable => ?_,
      ih hs hlevels hroom hF⟩
    obtain ⟨levels, rfl⟩ := Nat.exists_eq_succ_of_ne_zero hlevels
    by_contra hnew
    have henterable : Enterable s.session c.key :=
      ⟨fun hmem => hnew (hF (hrest.visits.subset hmem)),
        hrest.visits.room hroom, hnameable⟩
    rw [Unentered, Tracer.known?_eq_none.2 henterable] at ha
    exact absurd ha (by simp)
  | failed _ _ _ hbase _ hrest ih =>
    have hs₁ := hs.entered ht hcalm (f := frameOf _ _) hbase
    have hv := (Visits.closed ..).trans hrest.visits
    refine List.forall_mem_cons.2 ⟨fun _ _ => ?_,
      ih (hs₁.closed hcalm ..) hlevels hroom hF⟩
    exact hF (hv.subset ((Visits.entered (f := frameOf _ _) hbase).visited ▸
      List.mem_cons_self ..))
  | entered _ _ _ hbase _ hI hrest _ ih =>
    have hs₁ := hs.entered ht hcalm (f := frameOf _ _) hbase
    have hv := hI.visits.trans ((Visits.closed ..).trans hrest.visits)
    refine List.forall_mem_cons.2 ⟨fun _ _ => ?_,
      ih ((hI.quiet ht hcalm hs₁).closed hcalm ..) hlevels hroom hF⟩
    exact hF (hv.subset ((Visits.entered (f := frameOf _ _) hbase).visited ▸
      List.mem_cons_self ..))

/-- Of each method that was entered the calls are met, unless it was
entered at the last level. -/
theorem Course.spreads (h : Course t levels depth cs bs s T s')
    (hs : Quiet t x s)
    (hroom : s'.session.analyzed < s'.session.limits.maxMethods)
    (hF : s'.session.visited ⊆ F.visited) :
    ∀ key ∈ T.entries, (key, depth + levels) ∈ T.starts depth ∨
      Spread t x F key := by
  induction h with
  | done => exact fun key hkey => absurd hkey List.not_mem_nil
  | block _ ih | passed _ _ ih | leaf _ _ _ _ ih => exact ih hs hroom hF
  | @failed levels depth c cs bs s s₁ s' T r a told _ _ _ hbase ha _ ih =>
    have hs₁ := hs.entered ht hcalm (f := frameOf _ _) hbase
    refine List.forall_mem_cons.2
      ⟨.inr ⟨_, hs.opened hcalm (frameOf c depth), ?_⟩, ?_⟩
    · intro b hb hcomplete
      rw [hbase] at hb
      cases ha with
      | missing | failed => exact absurd hb (by simp)
      | leaf ha =>
        obtain rfl : a = b := Except.ok.inj hb
        exact absurd hcomplete ha
    · intro key hkey
      exact (ih (hs₁.closed hcalm ..) hroom hF key hkey).imp_left
        (List.mem_cons_of_mem _)
  | @entered levels depth c cs bs s s₁ s₂ s' I T b _ _ _ hbase hcomplete hI
      hrest ihI ih =>
    have hs₁ := hs.entered ht hcalm (f := frameOf _ _) hbase
    have hlater := (Visits.closed t (frameOf c depth) (expanded b I) true
      s₂).trans hrest.visits
    have hroom₂ := hlater.room hroom
    have hF₂ := List.Subset.trans hlater.subset hF
    refine List.forall_mem_cons.2 ⟨?_, List.forall_mem_append.2 ⟨?_, ?_⟩⟩
    · rcases Nat.eq_zero_or_pos levels with rfl | hlevels
      · exact .inl (List.mem_cons_self ..)
      · refine .inr ⟨_, hs.opened hcalm (frameOf c depth), fun b' hb' _ => ?_⟩
        rw [hbase] at hb'
        obtain rfl : b = b' := Except.ok.inj hb'
        exact hI.met ht hcalm hs₁ (by omega) hroom₂ hF₂
    · intro key hkey
      refine (ihI hs₁ hroom₂ hF₂ key hkey).imp_left fun hmem => ?_
      refine List.mem_cons_of_mem _ (List.mem_append_left _ ?_)
      rwa [show depth + (levels + 1 : Nat) = depth + 1 + levels by omega]
    · intro key hkey
      refine (ih ((hI.quiet ht hcalm hs₁).closed hcalm ..) hroom hF key
        hkey).imp_left fun hmem => ?_
      exact List.mem_cons_of_mem _ (List.mem_append_right _ hmem)

end

-- ============================================ what is entered from what

section

variable {t : Tracer σ} {x : Fixed} {levels : Nat} {depth : Int}
  {cs : List CallSite} {bs : List Block} {s s' : State σ} {T : Tour}

/-- All that a run enters is found, if those of its calls are found that it
enters, and with what is found all that the run enters from there. -/
theorem Course.found (ht : t.Steady x) (hcalm : t.Calm)
    {every : List (MethodKey × Int)} {Found : MethodKey → Prop}
    (hfound : ∀ p b s₀, Quiet t x s₀ → (t.base p s₀).1 = .ok b →
      b.status = .complete → Found p →
      ∀ c ∈ b.calls, c.decision = .stepInto →
        Source.isPlausible c.key.typeName c.key.methodName = true →
        Enters every p c.key → Found c.key)
    (h : Course t levels depth cs bs s T s') (hs : Quiet t x s)
    (hevery : T.starts depth <:+: every)
    (hcalls : ∀ c ∈ cs ++ bs.flatMap (·.calls), c.decision = .stepInto →
      Source.isPlausible c.key.typeName c.key.methodName = true →
      (c.key, depth + 1) ∈ T.starts depth → Found c.key) :
    ∀ key ∈ T.entries, Found key := by
  induction h with
  | done => exact fun key hkey => absurd hkey List.not_mem_nil
  | block _ ih => exact ih hs hevery hcalls
  | passed _ _ ih | leaf _ _ _ _ ih =>
    exact ih hs hevery (List.forall_mem_cons.1 hcalls).2
  | failed hc _ hnew hbase _ _ ih =>
    obtain ⟨hhead, hrest⟩ := List.forall_mem_cons.1 hcalls
    have hs₁ := hs.entered ht hcalm (f := frameOf _ _) hbase
    refine List.forall_mem_cons.2
      ⟨hhead hc hnew.nameable List.mem_cons_self, ?_⟩
    exact ih (hs₁.closed hcalm ..) ((List.suffix_cons ..).isInfix.trans hevery)
      fun c hc hinto hnameable hin =>
        hrest c hc hinto hnameable (List.mem_cons_of_mem _ hin)
  | @entered levels depth c cs bs s s₁ s₂ s' I T b hc _ hnew hbase hcomplete
      hI _ ihI ih =>
    obtain ⟨hhead, hrest⟩ := List.forall_mem_cons.1 hcalls
    have hs₁ := hs.entered ht hcalm (f := frameOf _ _) hbase
    have hc' : Found c.key := hhead hc hnew.nameable List.mem_cons_self
    have hinside : I.starts (depth + 1) <:+: every :=
      .trans ⟨[(c.key, depth + 1)], T.starts depth, rfl⟩ hevery
    have hbehind : T.starts depth <:+: every :=
      .trans ⟨(c.key, depth + 1) :: I.starts (depth + 1), [],
        List.append_nil _⟩ hevery
    refine List.forall_mem_cons.2 ⟨hc', List.forall_mem_append.2 ⟨?_, ?_⟩⟩
    · refine ihI hs₁ hinside fun c' hc'' hinto hnameable hin => ?_
      refine hfound c.key b _ (hs.opened hcalm (frameOf c depth)) ?_ hcomplete
        hc' c' hc'' hinto hnameable ((Tour.enters_of_inside hin).within hevery)
      exact congrArg Prod.fst hbase
    · refine ih ((hI.quiet ht hcalm hs₁).closed hcalm ..) hbehind
        fun c' hc'' hinto hnameable hin => hrest c' hc'' hinto hnameable ?_
      exact List.mem_cons_of_mem _ (List.mem_append_right _ hin)

end

-- ================================================================ runs

/-- The state with the root to be traced `d` levels deep. -/
def State.deepened (s : State σ) (d : Nat) : State σ :=
  { s with session :=
    { s.session with limits := { s.session.limits with maxDepth := d } } }

/-- A run that may go one level deeper, and is never short of methods to
spend, finds what a run finds that may not, except what this one enters,
perhaps by way of others, from a method that the deeper run has first met at
its last level. -/
theorem run_deeper (t : Tracer σ) {x : Fixed} (ht : t.Steady x)
    (hcalm : t.Calm) {s : State σ} (hfresh : s.session.Fresh)
    (hstore : Reachable s.world.store) (hquiet : Quiet t x s) (d : Nat)
    (hroom : (t.run (s.deepened (d + 1))).2.session.analyzed <
      s.session.limits.maxMethods) :
    let starts (n : Nat) : List (MethodKey × Int) :=
      (t.watched.run (s.deepened n).watched).2.world.outside.starts
    ∀ key ∈ (t.run (s.deepened d)).2.session.visited,
      key ∈ (t.run (s.deepened (d + 1))).2.session.visited ∨
      ∃ p, (p, (d + 1 : Int)) ∈ starts (d + 1) ∧
        TransGen (Enters (starts d)) p key := by
  intro starts
  have hu := ht.over t.watched_over
  have hcalmu := hcalm.over t.watched_over
  have hquietu : ∀ d, Quiet t.watched x (s.deepened d).watched :=
    fun d => ⟨hquiet.identity, hquiet.limit, hquiet.uncached, hquiet.awake⟩
  have hsession : ∀ d, (t.run (s.deepened d)).2.session =
      (t.watched.run (s.deepened d).watched).2.session := by
    intro d
    rw [t.watched_run]
    rfl
  have hsurveyed := fun d => t.watched.run_surveyed
    (s := (s.deepened d).watched)
    ⟨hfresh.stack, hfresh.visited, hfresh.registry, hfresh.analyzed,
      hfresh.oracleCalls⟩ hstore.obeys
  obtain ⟨N, _, near, hN⟩ := hsurveyed d
  obtain ⟨F, _, far, hF⟩ := hsurveyed (d + 1)
  have hnear : starts d = N.starts (-1) := hN.told rfl
  have hlast : starts (d + 1) = F.starts (-1) := hF.told rfl
  have hfarroom :
      far.session.analyzed < far.session.limits.maxMethods := by
    have hanalyzed : (t.watched.run
        (s.deepened (d + 1)).watched).2.session.analyzed =
        far.session.analyzed := by
      rw [hF.ended]
      cases (t.watched.run (s.deepened (d + 1)).watched).1 <;> rfl
    rw [hF.course.visits.limits, ← hanalyzed, ← hsession]
    exact hroom
  have hfar : ∀ key, Met far.session key →
      Source.isPlausible key.typeName key.methodName = true →
      key ∈ F.entries := by
    intro key hmet hnameable
    have hmem := hmet hnameable
    rw [hF.course.visits.visited, List.mem_append, List.mem_reverse] at hmem
    refine hmem.resolve_right ?_
    rw [show (s.deepened (d + 1)).watched.session.visited = [] from
      hfresh.visited]
    exact List.not_mem_nil
  simp only [hsession, hnear, hlast, hN.visited, hF.visited, List.mem_reverse]
  refine hN.course.found hu hcalmu ?_ (hquietu d) (List.infix_refl _) ?_
  · intro p b s₀ hs₀ hbase hcomplete hfound c hc hinto hnameable henters
    rcases hfound with hentered | ⟨q, hq, hpath⟩
    · rcases hF.course.spreads hu hcalmu (hquietu (d + 1)) hfarroom
        (List.Subset.refl _) p hentered with hcut | hspread
      · refine .inr ⟨p, ?_, .single henters⟩
        have hdepth : (d + 1 : Int) = -1 + (d + 1 + 1 : Nat) := by omega
        rw [hdepth]
        exact hcut
      · exact .inl (hfar _ (hspread.met hu hcalmu hs₀ hbase hcomplete c hc
          hinto) hnameable)
    · exact .inr ⟨q, hq, hpath.tail henters⟩
  · intro c hc hinto hnameable _
    exact .inl (hfar _ (hF.course.met hu hcalmu (hquietu (d + 1)) (by omega)
      hfarroom (List.Subset.refl _) c hc hinto) hnameable)

-- ============================================== a method met too late

/-- Five types, each with the method. -/
def chainSources (name : String) : Option Source.SourceFile :=
  if ["R", "A", "D", "B", "C"].contains name then
    some { typeName := name, path := name, content := "void m() {}"
           language := "java" }
  else none

/-- A method that calls the method of each of some types. -/
def chainText (targets : List String) : String :=
  "# Block 1\n" ++ String.join (targets.map
    fun target => "Call: " ++ target ++ ".m\nStep into: yes\n")

/-- `R` comes to `B` by way of `A` and `D` first, and then at once. `B`
comes to `C`. -/
def chainAnswers (prompt : Prompt) : String :=
  if prompt.typeName = "R" then chainText ["A", "B"]
  else if prompt.typeName = "A" then chainText ["D"]
  else if prompt.typeName = "D" then chainText ["B"]
  else if prompt.typeName = "B" then chainText ["C"]
  else chainText []

def chainStart : State Unit :=
  (plainStart ⟨"R", "m"⟩ pairStart.world).uncached

theorem chain_quiet : Quiet (plainTracer chainSources chainAnswers)
    (plainFixed chainSources chainAnswers) chainStart :=
  ⟨rfl, rfl, rfl, rfl⟩

/-- Two levels deep `B` is met behind `R`, and three levels deep behind
`D`. -/
theorem chain_visited :
    ((plainTracer chainSources chainAnswers).run
        (chainStart.deepened 2)).2.session.visited =
      [⟨"C", "m"⟩, ⟨"B", "m"⟩, ⟨"D", "m"⟩, ⟨"A", "m"⟩, ⟨"R", "m"⟩] ∧
    ((plainTracer chainSources chainAnswers).run
        (chainStart.deepened (2 + 1))).2.session.visited =
      [⟨"B", "m"⟩, ⟨"D", "m"⟩, ⟨"A", "m"⟩, ⟨"R", "m"⟩] ∧
    ((plainTracer chainSources chainAnswers).run
        (chainStart.deepened (2 + 1))).2.session.analyzed = 4 := by
  decide +kernel

/-- The method of `C` is the exception: two levels deep it is entered from
that of `B`, which the deeper run meets at its last level. -/
theorem run_deeper_chain :
    (plainTracer chainSources chainAnswers).Steady
      (plainFixed chainSources chainAnswers) ∧
    (plainTracer chainSources chainAnswers).Calm ∧
    chainStart.session.Fresh ∧ Reachable chainStart.world.store ∧
    Quiet (plainTracer chainSources chainAnswers)
      (plainFixed chainSources chainAnswers) chainStart ∧
    let starts (n : Nat) : List (MethodKey × Int) :=
      ((plainTracer chainSources chainAnswers).watched.run
        (chainStart.deepened n).watched).2.world.outside.starts
    ∃ p, (p, ((2 : Nat) + 1 : Int)) ∈ starts (2 + 1) ∧
      TransGen (Enters (starts 2)) p ⟨"C", "m"⟩ := by
  have hsteady : (plainTracer chainSources chainAnswers).Steady
    (plainFixed chainSources chainAnswers) := plain_steady _ _ _
  have hfresh : chainStart.session.Fresh := ⟨rfl, rfl, rfl, rfl, rfl⟩
  have hreachable : Reachable chainStart.world.store := pairStart_reachable
  refine ⟨hsteady, plain_calm _ _, hfresh, hreachable, chain_quiet, ?_⟩
  obtain ⟨hnear, hfar, hanalyzed⟩ := chain_visited
  have hdeeper := run_deeper (plainTracer chainSources chainAnswers) hsteady
    (plain_calm _ _) hfresh hreachable chain_quiet 2
    (by rw [hanalyzed]; decide) ⟨"C", "m"⟩ (by rw [hnear]; simp)
  rcases hdeeper with hlost | hbehind
  · rw [hfar] at hlost
    exact absurd hlost (by decide)
  · exact hbehind

/-- Three levels deep a method is not found that is found two levels
deep. -/
theorem deeper_loses_method :
    (plainTracer chainSources chainAnswers).Steady
      (plainFixed chainSources chainAnswers) ∧
    (plainTracer chainSources chainAnswers).Calm ∧
    Quiet (plainTracer chainSources chainAnswers)
      (plainFixed chainSources chainAnswers) chainStart ∧
    ((plainTracer chainSources chainAnswers).run
      (chainStart.deepened (2 + 1))).2.session.analyzed <
        chainStart.session.limits.maxMethods ∧
    ¬∀ key ∈ ((plainTracer chainSources chainAnswers).run
        (chainStart.deepened 2)).2.session.visited,
      key ∈ ((plainTracer chainSources chainAnswers).run
        (chainStart.deepened (2 + 1))).2.session.visited := by
  obtain ⟨hnear, hfar, hanalyzed⟩ := chain_visited
  refine ⟨plain_steady _ _ _, plain_calm _ _, chain_quiet, ?_, ?_⟩
  · rw [hanalyzed]
    decide
  · rw [hnear, hfar]
    decide

end CallTrace.Run
