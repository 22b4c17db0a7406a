/-
A run that may analyze fewer methods is the beginning of one that may
analyze more.

Two runs start alike but for how many methods they may analyze. As long as
the smaller one has methods left to spend they go together in every
respect: nothing but the decision to enter a method looks at how many are
left. Once it has none left, it walks through the calls that are still to
come, enters no method and asks nothing, while the other one may go on;
whatever that one does from there, it adds to what both have done.

So a piece of a run keeps two runs together or leaves the smaller one
behind, and what the smaller one does behind is nothing. The questions to
the oracle are kept by a layer.
-/
import CallTrace.Proofs.Run.Carried
import CallTrace.Proofs.Run.InStep
import CallTrace.Proofs.Run.Layers
import CallTrace.Proofs.Run.Sound

namespace CallTrace.Run

variable {σ : Type} {α β : Type}

-- ========================================================== questions

/-- A state outside with the questions to the oracle so far, the last one
first. -/
structure Overheard (σ : Type) where
  asked : List Prompt := []
  below : σ

/-- Keeps what the oracle is asked. -/
def Surroundings.overheard (below : Surroundings σ) :
    Surroundings (Overheard σ) where
  sourceOf name files o :=
    raise (fun b => { o with below := b })
      (below.sourceOf name files o.below)
  answerTo identity prompt o :=
    raise (fun b => ⟨prompt :: o.asked, b⟩)
      (below.answerTo identity prompt o.below)
  inform e o :=
    raise (fun b => { o with below := b }) (below.inform e o.below)

/-- The tracer with what it asks the oracle kept. -/
def Tracer.overheard (t : Tracer σ) : Tracer (Overheard σ) :=
  { t with toSurroundings := t.toSurroundings.overheard }

/-- The state with a record in which nothing is kept yet. -/
def State.overheard (s : State σ) : State (Overheard σ) :=
  ⟨s.session, ⟨s.world.clock, s.world.store, { below := s.world.outside }⟩⟩

/-- The questions to the oracle so far, the last one first. -/
def State.asked (s : State (Overheard σ)) : List Prompt :=
  s.world.outside.asked

theorem Tracer.overheard_over (t : Tracer σ) :
    t.overheard.Over Overheard.below t where
  caching := rfl
  maxSuggestions := rfl
  hierarchyDepth := rfl
  sourceOf _ _ _ := rfl
  answerTo _ _ _ := rfl
  inform _ _ := rfl

/-- Keeping what the oracle is asked changes nothing in a run. -/
theorem Tracer.overheard_run (t : Tracer σ) (s : State σ) :
    t.run s = ((t.overheard.run s.overheard).1,
      (t.overheard.run s.overheard).2.below Overheard.below) := by
  obtain ⟨hvalue, hstate⟩ :=
    t.overheard_over.mirrors_run s.overheard s rfl
  exact Prod.ext hvalue.symm hstate

/-- As many questions were added as were counted. -/
def Balanced (s s' : State (Overheard σ)) : Prop :=
  s'.asked.length + s.session.oracleCalls =
    s.asked.length + s'.session.oracleCalls

theorem heeds_balanced (t : Tracer σ) : Heeds t.overheard Balanced where
  refl _ := rfl
  trans s s' s'' h h' := by
    rw [Balanced] at h h' ⊢
    omega
  looked _ _ := rfl
  told _ _ := rfl
  slept _ _ := rfl

/-- A question is counted when it is put. -/
theorem Tracer.ask_balanced (t : Tracer σ) (prompt : Prompt)
    (key : MethodKey) : (t.overheard.ask prompt key).Changes Balanced := by
  intro s
  let counted : State (Overheard σ) :=
    { s with session.oracleCalls := s.session.oracleCalls + 1 }
  let a := t.overheard.answerTo s.session.identity prompt s.world.outside
  have hput : Balanced s (counted.heard a) := by
    show (prompt :: s.asked).length + _ = _ + (s.session.oracleCalls + 1)
    rw [List.length_cons]
    omega
  refine (heeds_balanced t).trans _ _ _ hput ?_
  exact (heeds_balanced t).follow key s.session.limits.timeout
    (s.now + s.session.limits.timeout) [] a.value (counted.heard a)

theorem describing_balanced (t : Tracer σ) :
    Describing t.overheard Balanced where
  toHeeds := heeds_balanced t
  asked := t.ask_balanced
  stored _ _ := rfl
  hit _ := rfl
  missed _ := rfl

theorem along_balanced (t : Tracer σ) : Along t.overheard Balanced where
  refl _ := rfl
  trans := (heeds_balanced t).trans
  described f s _ := (heeds_balanced t).trans s (t.overheard.opened f s) _ rfl
    ((describing_balanced t).base f.key _)
  closed f a told s := by cases told <;> rfl

theorem balanced_concluded (r : Outcome) (s : State (Overheard σ)) :
    Balanced s (Tracer.concluded r s) := by
  cases r <;> rfl

/-- The count of a run is the number of questions to the oracle. -/
theorem Tracer.asked_run (t : Tracer σ) (s : State σ)
    (h : s.session.oracleCalls = 0) :
    (t.overheard.run s.overheard).2.asked.length =
      (t.run s).2.session.oracleCalls := by
  have hrun : Balanced s.overheard (t.overheard.run s.overheard).2 := by
    rw [Tracer.run_eq]
    exact (heeds_balanced t).trans _ _ _ ((along_balanced t).trace _ _ _)
      (balanced_concluded _ _)
  have hcalls : (t.run s).2.session.oracleCalls =
      (t.overheard.run s.overheard).2.session.oracleCalls := by
    rw [t.overheard_run s]
    rfl
  have hstart : s.overheard.session.oracleCalls = 0 := h
  rw [Balanced, hstart] at hrun
  rw [hcalls]
  simpa [State.asked, State.overheard] using hrun

-- ============================================================= budgets

/-- The state with another number of methods to spend. -/
def State.allowed (s : State σ) (n : Nat) (hn : 0 < n) : State σ :=
  { s with session.limits :=
      { s.session.limits with maxMethods := n, maxMethods_pos := hn } }

section

variable {m : Nat} {hm : 0 < m}

/-- The second state is the first one with another number of methods to
spend. -/
def Allowed (hm : 0 < m) (s s' : State σ) : Prop := s' = s.allowed m hm

/-- How many methods may be spent plays no part in what is told. -/
theorem hearsAlike_allowed (t : Tracer σ) :
    HearsAlike t t (Allowed (σ := σ) hm) where
  now := by
    rintro s _ rfl
    rfl
  depth := by
    rintro s _ rfl
    rfl
  timeout := by
    rintro s _ rfl
    rfl
  counted := by
    rintro s _ rfl
    rfl
  answered := by
    rintro s _ rfl prompt
    exact ⟨rfl, rfl⟩
  told e := by
    rintro s _ rfl
    exact ⟨rfl, rfl⟩
  slept := by
    rintro s _ rfl now
    rfl

/-- Nor does it play one in the use of the cache. -/
theorem cachesAlike_allowed (t : Tracer σ) :
    CachesAlike t t (Allowed (σ := σ) hm) where
  caching := rfl
  useCache := by
    rintro s _ rfl
    rfl
  identity := by
    rintro s _ rfl
    rfl
  stored act := by
    rintro s _ rfl
    exact ⟨rfl, rfl⟩
  hit := by
    rintro s _ rfl
    rfl
  missed := by
    rintro s _ rfl
    rfl
  timed := by
    rintro s _ rfl ms
    rfl

/-- Nothing in the description of a method looks at how many methods are
left to spend. -/
theorem base_allowed (t : Tracer σ) (key : MethodKey) (s : State σ) :
    t.base key (s.allowed m hm) =
      ((t.base key s).1, (t.base key s).2.allowed m hm) := by
  have hstep : InStep t t id (Allowed hm) := by
    refine .of_alike (hearsAlike_allowed t) (cachesAlike_allowed t)
      (fun name => ?_) rfl rfl ?_ ?_
    · rintro s _ rfl
      exact ⟨rfl, rfl⟩
    · rintro s _ rfl
      rfl
    · rintro s _ rfl
      rfl
  obtain ⟨hvalue, hstate⟩ := hstep.mirrors_base key s _ rfl
  exact Prod.ext hvalue.symm hstate

theorem opened_allowed (t : Tracer σ) (f : Frame) (s : State σ) :
    t.opened f (s.allowed m hm) = (t.opened f s).allowed m hm := rfl

theorem closed_allowed (t : Tracer σ) (f : Frame) (a : Analysis)
    (told : Bool) (s : State σ) :
    t.closed f a told (s.allowed m hm) =
      (t.closed f a told s).allowed m hm := by
  cases told <;> rfl

end

-- ======================================================= what is added

/-- What a piece of a run adds: methods, which are counted, and questions.
Nothing is added once no methods are left to spend. -/
structure Adds (s s' : State (Overheard σ)) : Prop where
  limits : s'.session.limits = s.session.limits
  visited : ∃ keys, s'.session.visited = keys ++ s.session.visited ∧
    s'.session.analyzed = s.session.analyzed + keys.length
  asked : s.asked <:+ s'.asked
  room : s.session.analyzed ≤ s.session.limits.maxMethods →
    s'.session.analyzed ≤ s.session.limits.maxMethods
  spent : s.session.limits.maxMethods ≤ s.session.analyzed →
    s'.session.visited = s.session.visited ∧ s'.asked = s.asked

/-- Describing a method changes the books in nothing, and adds
questions. -/
structure Asks (s s' : State (Overheard σ)) : Prop where
  books : s'.session.books = s.session.books
  asked : s.asked <:+ s'.asked

theorem listens_asks (t : Tracer σ) : Listens t.overheard Asks where
  refl _ := ⟨rfl, List.suffix_rfl⟩
  trans _ _ _ h h' := ⟨h'.books.trans h.books, h.asked.trans h'.asked⟩
  looked _ _ := ⟨rfl, List.suffix_rfl⟩
  answered _ _ := ⟨rfl, List.suffix_cons _ _⟩
  told _ _ := ⟨rfl, List.suffix_rfl⟩
  counted _ := ⟨rfl, List.suffix_rfl⟩
  slept _ _ := ⟨rfl, List.suffix_rfl⟩

theorem describing_asks (t : Tracer σ) : Describing t.overheard Asks where
  toHeeds := (listens_asks t).toHeeds
  asked := (listens_asks t).ask
  stored _ _ := ⟨rfl, List.suffix_rfl⟩
  hit _ := ⟨rfl, List.suffix_rfl⟩
  missed _ := ⟨rfl, List.suffix_rfl⟩

namespace Adds

variable {s s' s'' : State (Overheard σ)}

theorem refl (s : State (Overheard σ)) : Adds s s :=
  ⟨rfl, ⟨[], rfl, rfl⟩, List.suffix_rfl, id, fun _ => ⟨rfl, rfl⟩⟩

/-- What two pieces of a run add is added by both together. -/
theorem trans (s s' s'' : State (Overheard σ)) (h : Adds s s')
    (h' : Adds s' s'') : Adds s s'' where
  limits := h'.limits.trans h.limits
  visited := by
    obtain ⟨keys, hkeys, hcount⟩ := h.visited
    obtain ⟨keys', hkeys', hcount'⟩ := h'.visited
    refine ⟨keys' ++ keys, by rw [hkeys', hkeys, List.append_assoc], ?_⟩
    rw [hcount', hcount, List.length_append]
    omega
  asked := h.asked.trans h'.asked
  room hroom := h.limits ▸ h'.room (h.limits.symm ▸ h.room hroom)
  spent hspent := by
    obtain ⟨hvisited, hasked⟩ := h.spent hspent
    obtain ⟨keys, hkeys, hcount⟩ := h.visited
    obtain ⟨hvisited', hasked'⟩ := h'.spent (by
      rw [h.limits, hcount]
      exact Nat.le_add_right_of_le hspent)
    exact ⟨hvisited'.trans hvisited, hasked'.trans hasked⟩

/-- What leaves all this as it is adds nothing. -/
theorem of_eq (hlimits : s'.session.limits = s.session.limits)
    (hvisited : s'.session.visited = s.session.visited)
    (hanalyzed : s'.session.analyzed = s.session.analyzed)
    (hasked : s'.asked = s.asked) : Adds s s' where
  limits := hlimits
  visited := ⟨[], hvisited, hanalyzed⟩
  asked := hasked ▸ List.suffix_rfl
  room h := hanalyzed ▸ h
  spent _ := ⟨hvisited, hasked⟩

end Adds

/-- Every piece of a run adds methods, which are counted, and questions. -/
theorem along_adds (t : Tracer σ) : Along t.overheard Adds where
  refl := Adds.refl
  trans := Adds.trans
  described f s hnew := by
    obtain ⟨hbooks, hasked⟩ := (describing_asks t).base f.key
      (t.overheard.opened f s)
    generalize (t.overheard.base f.key (t.overheard.opened f s)).2 = s'
      at hbooks hasked
    have hanalyzed : s'.session.analyzed = s.session.analyzed + 1 :=
      (congrArg Session.analyzed hbooks :)
    have hroom := hnew.room
    refine ⟨(congrArg Session.limits hbooks :), ⟨[f.key],
      (congrArg Session.visited hbooks :), hanalyzed⟩, hasked, ?_, ?_⟩
    · intro _
      omega
    · intro hspent
      omega
  closed f a told s := by
    refine .of_eq ?_ ?_ ?_ ?_
    · exact Tracer.closed_limits ..
    · exact Tracer.closed_visited ..
    · exact Tracer.closed_analyzed ..
    · cases told <;> rfl

-- ===================================================== falling behind

/-- The first run has no methods left to spend, and all it has done the
second one has done, in this order. -/
structure Behind (s s' : State (Overheard σ)) : Prop where
  spent : s.session.limits.maxMethods ≤ s.session.analyzed
  visited : s.session.visited <:+ s'.session.visited
  asked : s.asked <:+ s'.asked

/-- From there on it does nothing, while the second one may go on. -/
theorem Behind.stays {s s' u u' : State (Overheard σ)} (h : Behind s u)
    (hs : Adds s s') (hu : Adds u u') : Behind s' u' := by
  obtain ⟨hvisited, hasked⟩ := hs.spent h.spent
  obtain ⟨keys, hkeys, hcount⟩ := hs.visited
  obtain ⟨keys', hkeys', -⟩ := hu.visited
  refine ⟨?_, ?_, ?_⟩
  · rw [hs.limits, hcount]
    exact Nat.le_add_right_of_le h.spent
  · rw [hvisited, hkeys']
    exact h.visited.trans (List.suffix_append _ _)
  · rw [hasked]
    exact h.asked.trans hu.asked

/-- Two runs that start alike but for the methods they may spend come to
the same and end so, or the one that may spend less is left behind. -/
def Trails {m : Nat} (hm : 0 < m)
    (a : StateM (State (Overheard σ)) α) : Prop :=
  ∀ s, s.session.limits.maxMethods ≤ m →
    a (s.allowed m hm) = ((a s).1, (a s).2.allowed m hm) ∨
      Behind (a s).2 (a (s.allowed m hm)).2

section

variable {m : Nat} {hm : 0 < m} {t : Tracer σ}

theorem trails_pure (x : α) :
    Trails hm (pure x : StateM (State (Overheard σ)) α) :=
  fun _ _ => .inl rfl

/-- After a part that trails a part that trails does so too: the run with
less to spend is left behind in the first, or comes to the second with the
other. -/
theorem trails_bind {a : StateM (State (Overheard σ)) α}
    {f : α → StateM (State (Overheard σ)) β} (ha : Trails hm a)
    (hadds : ∀ s, Adds s (a s).2) (hf : ∀ x, Trails hm (f x))
    (hrest : ∀ x s, Adds s (f x s).2) : Trails hm (a >>= f) := by
  intro s hs
  rw [stateM_bind_run, stateM_bind_run]
  rcases ha s hs with htogether | hbehind
  · rw [htogether]
    exact hf _ _ ((hadds s).limits ▸ hs)
  · exact .inr (hbehind.stays (hrest _ _) (hrest _ _))

variable {trace : CallSite → StateM (State (Overheard σ)) Analysis}
  (htrace : ∀ c, Trails hm (trace c))
  (hadds : ∀ c s, Adds s (trace c s).2)

include htrace hadds

/-- Calls that are traced one after another trail, if each of them does. -/
theorem trails_traceCalls (t : Tracer σ) (cs : List CallSite) :
    Trails hm (traceCalls trace cs) := by
  induction cs with
  | nil => exact trails_pure _
  | cons c rest ih =>
    intro s hs
    by_cases hpass : c.decision ≠ .stepInto ∨ s.session.cancelled = true
    · rw [Tracer.traceCalls_pass hpass,
        Tracer.traceCalls_pass (s := s.allowed m hm) hpass]
      rcases ih s hs with htogether | hbehind
      · rw [htogether]
        exact .inl rfl
      · exact .inr hbehind
    · rw [Tracer.traceCalls_step hpass rfl,
        Tracer.traceCalls_step (s := s.allowed m hm) hpass rfl]
      rcases htrace c s hs with htogether | hbehind
      · rw [htogether]
        rcases ih _ ((hadds c s).limits ▸ hs) with htogether | hbehind
        · rw [htogether]
          exact .inl rfl
        · exact .inr hbehind
      · exact .inr (hbehind.stays ((along_adds t).traceCalls hadds rest _)
          ((along_adds t).traceCalls hadds rest _))

/-- Blocks trail as their calls do. -/
theorem trails_traceBlocks (t : Tracer σ) (bs : List Block) :
    Trails hm (traceBlocks trace bs) := by
  induction bs with
  | nil => exact trails_pure _
  | cons b rest ih =>
    have hrest := (along_adds t).traceBlocks hadds rest
    exact trails_bind (trails_traceCalls htrace hadds t b.calls)
      ((along_adds t).traceCalls hadds b.calls)
      (fun _ => trails_bind ih hrest (fun _ => trails_pure _)
        fun _ s => .refl s) fun _ => hrest

end

section

variable {m : Nat} {hm : 0 < m} (t : Tracer σ)

/-- Entering a method that both may enter. -/
theorem trails_enter (f : Frame)
    {expand : Analysis → StateM (State (Overheard σ)) Analysis}
    (hexpand : ∀ a, Trails hm (expand a)) {s : State (Overheard σ)}
    (hs : s.session.limits.maxMethods ≤ m)
    (hnew : Enterable s.session f.key) :
    t.overheard.enter f expand (s.allowed m hm) =
        ((t.overheard.enter f expand s).1,
          (t.overheard.enter f expand s).2.allowed m hm) ∨
      Behind (t.overheard.enter f expand s).2
        (t.overheard.enter f expand (s.allowed m hm)).2 := by
  have hlimits := ((along_adds t).described f s hnew).limits
  rw [← hlimits] at hs
  rw [Tracer.enter_run, Tracer.enter_run, opened_allowed, base_allowed]
  rcases hr : t.overheard.base f.key (t.overheard.opened f s) with
    ⟨e | a, s₁⟩ <;> rw [hr] at hs
  · cases e <;> exact .inl (Prod.ext rfl (closed_allowed ..))
  · dsimp only
    split
    · rcases hexpand a s₁ hs with htogether | hbehind
      · rw [htogether]
        exact .inl (Prod.ext rfl (closed_allowed ..))
      · exact .inr (hbehind.stays ((along_adds t).closed ..)
          ((along_adds t).closed ..))
    · exact .inl (Prod.ext rfl (closed_allowed ..))

variable (hm) in
/-- While both have methods left to spend, the same is known to them about
a method. -/
theorem known?_allowed {s : State σ} (hs : s.session.limits.maxMethods ≤ m)
    (hroom : s.session.analyzed < s.session.limits.maxMethods)
    (key : MethodKey) (placeholder : Status → String → Analysis) :
    Tracer.known? (s.allowed m hm).session key placeholder =
      Tracer.known? s.session key placeholder := by
  have hleft : ¬m ≤ s.session.analyzed := by omega
  rw [Tracer.known?, Tracer.known?, if_neg (Nat.not_le.2 hroom)]
  show (if s.session.visited.contains key then _ else
    if m ≤ s.session.analyzed then _ else _) = _
  rw [if_neg hleft]
  rfl

theorem adds_orLeaf (key : MethodKey) (r : Outcome)
    (s : State (Overheard σ)) : Adds s (Tracer.orLeaf key r s).2 := by
  cases r <;> exact .refl s

theorem trails_orLeaf (key : MethodKey) (r : Outcome) :
    Trails hm (Tracer.orLeaf (σ := Overheard σ) key r) := by
  cases r <;> exact fun _ _ => .inl rfl

variable (hm) in
/-- The run that may spend less trails at every depth. -/
theorem trails_trace (levels : Nat) :
    ∀ f : Frame, Trails hm (t.overheard.trace levels f) := by
  induction levels with
  | zero => exact fun _ _ _ => .inl rfl
  | succ levels ih =>
    intro f s hs
    by_cases hspent : s.session.limits.maxMethods ≤ s.session.analyzed
    · have hequal : Behind s (s.allowed m hm) :=
        ⟨hspent, List.suffix_rfl, List.suffix_rfl⟩
      exact .inr (hequal.stays ((along_adds t).trace _ f s)
        ((along_adds t).trace _ f _))
    have hknown := known?_allowed hm hs (Nat.not_le.1 hspent) f.key
      fun st reason => .placeholder f.key st reason s.timeOfDay
    rw [Tracer.trace, stateM_get_bind, stateM_get_bind]
    have htime : (s.allowed m hm).timeOfDay = s.timeOfDay := rfl
    rw [htime, hknown]
    rcases hk : Tracer.known? s.session f.key fun st reason =>
      .placeholder f.key st reason s.timeOfDay with _ | a
    · refine trails_enter t f (fun a => ?_) hs (Tracer.known?_eq_none.1 hk)
      have hadds : ∀ (c : CallSite) (s : State (Overheard σ)), Adds s
          ((t.overheard.trace levels ⟨c.key, f.depth + 1, c.condition.isSome⟩
            >>= Tracer.orLeaf c.key) s).2 := by
        intro c s
        rw [stateM_bind_run]
        exact Adds.trans _ _ _ ((along_adds t).trace _ _ s)
          (adds_orLeaf c.key _ _)
      refine trails_bind (trails_traceBlocks (fun c => ?_) hadds t a.blocks)
        ((along_adds t).traceBlocks hadds a.blocks)
        (fun _ => trails_pure _) fun _ s => .refl s
      exact trails_bind (ih _) ((along_adds t).trace _ _)
        (trails_orLeaf c.key) (adds_orLeaf c.key)
    · exact .inl rfl

theorem adds_concluded (r : Outcome) (s : State (Overheard σ)) :
    Adds s (Tracer.concluded r s) := by
  cases r <;> exact .of_eq rfl rfl rfl rfl

theorem adds_run (s : State (Overheard σ)) :
    Adds s (t.overheard.run s).2 := by
  rw [Tracer.run_eq]
  exact Adds.trans _ _ _ ((along_adds t).trace _ _ s) (adds_concluded _ _)

variable (hm) in
/-- At their ends two runs are alike but for the methods they may spend, or
the one that may spend less is behind. -/
theorem trails_run : Trails hm t.overheard.run := by
  intro s hs
  have hroot : (s.allowed m hm).session.root = s.session.root := rfl
  have hdepth : (s.allowed m hm).session.limits.maxDepth =
      s.session.limits.maxDepth := rfl
  rw [Tracer.run_eq, Tracer.run_eq, hroot, hdepth]
  rcases trails_trace hm t (s.session.limits.maxDepth + 1)
    (frameOf (Tracer.rootCall s.session.root) (-1)) s hs with
    htogether | hbehind
  · rw [htogether]
    refine .inl (Prod.ext rfl ?_)
    generalize (t.overheard.trace (s.session.limits.maxDepth + 1)
      (frameOf (Tracer.rootCall s.session.root) (-1)) s) = end_
    rcases end_ with ⟨u | root, s'⟩ <;> rfl
  · exact .inr (hbehind.stays (adds_concluded _ _) (adds_concluded _ _))

end

-- ============================================================== prefix

/-- Of two runs that start alike but for the methods they may analyze, with
`n ≤ m`, the first analyzes exactly the first `n` methods that the second
one does, in the same order, or all of them if there are fewer; and what it
asks the oracle is the beginning of what the second one asks. Nothing is
assumed of the sources, the oracle, the listener and the cache. The
questions are those of the runs themselves, which a layer keeps. -/
theorem run_extends (t : Tracer σ) (s : State σ) (hfresh : s.session.Fresh)
    {n m : Nat} (hn : 0 < n) (hnm : n ≤ m) :
    let small := t.overheard.run (s.allowed n hn).overheard
    let large := t.overheard.run
      (s.allowed m (Nat.lt_of_lt_of_le hn hnm)).overheard
    small.2.session.visited.reverse =
        large.2.session.visited.reverse.take n ∧
      small.2.asked.reverse <+: large.2.asked.reverse ∧
      t.run (s.allowed n hn) =
        (small.1, small.2.below Overheard.below) ∧
      t.run (s.allowed m (Nat.lt_of_lt_of_le hn hnm)) =
        (large.1, large.2.below Overheard.below) := by
  intro small large
  have hadds : Adds (s.allowed n hn).overheard small.2 := adds_run t _
  have htrails : large = (small.1, small.2.allowed m _) ∨
      Behind small.2 large.2 :=
    trails_run (Nat.lt_of_lt_of_le hn hnm) t
      (s.allowed n hn).overheard hnm
  -- the methods that the first run analyzed are counted, and at most `n`
  have hcount : small.2.session.analyzed =
      small.2.session.visited.length := by
    obtain ⟨keys, hkeys, hanalyzed⟩ := hadds.visited
    have hvisited : (s.allowed n hn).overheard.session.visited = [] :=
      hfresh.visited
    have hzero : (s.allowed n hn).overheard.session.analyzed = 0 :=
      hfresh.analyzed
    rw [hanalyzed, hkeys, hvisited, hzero, List.append_nil, Nat.zero_add]
  have hroom : small.2.session.visited.length ≤ n := by
    rw [← hcount]
    refine hadds.room ?_
    show s.session.analyzed ≤ n
    rw [hfresh.analyzed]
    exact Nat.zero_le n
  refine ⟨?_, ?_, t.overheard_run _, t.overheard_run _⟩
  · rcases htrails with htogether | hbehind
    · rw [htogether]
      exact (List.take_of_length_le (by simpa using hroom)).symm
    · have hspent : n ≤ small.2.session.visited.length := by
        have hlimits := hadds.limits
        have hspent := hbehind.spent
        rw [hlimits, hcount] at hspent
        exact hspent
      have hprefix := List.reverse_prefix.2 hbehind.visited
      rw [List.prefix_iff_eq_take.1 hprefix, List.length_reverse,
        Nat.le_antisymm hroom hspent]
  · rcases htrails with htogether | hbehind
    · rw [htogether]
      exact List.prefix_rfl
    · exact List.reverse_prefix.2 hbehind.asked

/-- With room for one method the run analyzes the first of the two. -/
theorem run_extends_pair :
    pairStart.session.Fresh ∧ 0 < 1 ∧ 1 ≤ 2 ∧
      (pairTracer.overheard.run
        (pairStart.allowed 2 (by decide)).overheard).2.session.visited =
          [⟨"A", "n"⟩, ⟨"A", "m"⟩] ∧
      (pairTracer.overheard.run
        (pairStart.allowed 1 (by decide)).overheard).2.session.visited =
          [⟨"A", "m"⟩] := by
  have hlarge : (pairTracer.overheard.run
      (pairStart.allowed 2 (by decide)).overheard).2.session.visited =
        [⟨"A", "n"⟩, ⟨"A", "m"⟩] := by
    decide +kernel
  have hvisited := (run_extends pairTracer pairStart pairStart_fresh
    (n := 1) (m := 2) (by decide) (by decide)).1
  refine ⟨pairStart_fresh, by decide, by decide, hlarge, ?_⟩
  generalize (pairTracer.overheard.run
    (pairStart.allowed 2 (by decide)).overheard).2.session.visited = large
    at hvisited hlarge
  generalize (pairTracer.overheard.run
    (pairStart.allowed 1 (by decide)).overheard).2.session.visited = small
    at hvisited ⊢
  subst hlarge
  exact List.reverse_injective hvisited

end CallTrace.Run
