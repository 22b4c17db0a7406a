/-
The walkthrough of a run is faithful to the run.

A run tells its listener each method that it enters, with the depth, so
what a listener has heard in the end is the recursion as it happened. The
walkthrough is put together afterwards, from nothing but what is
registered. What one says of methods is compared with what the other has
heard: each complete method is traced once and in full, in the order and
at the depth at which it was entered, under the call that led to it; and
what was not expanded is counted.
-/
import CallTrace.Analyst
import CallTrace.Proofs.Run.Layers
import CallTrace.Proofs.Run.Walkthrough

namespace CallTrace.Run

open Trace

variable {σ : Type}

-- ============================================================ listeners

/-- The method that is entered, with the depth. -/
def Event.start? : Event → Option (MethodKey × Int)
  | started key depth => some (key, depth)
  | _ => none

/-- The methods of which the listener was told that they are entered, in
order, with the depths. -/
def Recorded.starts (o : Recorded σ) : List (MethodKey × Int) :=
  (o.events.filterMap Event.start?).reverse

section

variable {t : Tracer σ} {s s' : State (Recorded σ)}

theorem Move.starts (h : Move t.watched s s') :
    s'.world.outside.starts = s.world.outside.starts := by
  cases h <;> rfl

theorem Moves.starts {n : Nat} (h : Moves t.watched n s s') :
    s'.world.outside.starts = s.world.outside.starts := by
  induction h with
  | refl => rfl
  | move _ hm ih => exact hm.starts.trans ih
  | ask _ ha ih =>
    cases ha
    exact ih

theorem starts_opened (f : Frame) (s : State (Recorded σ)) :
    (t.watched.opened f s).world.outside.starts =
      s.world.outside.starts ++ [(f.key, f.depth)] := by
  show (((f.key, f.depth) ::
    s.world.outside.events.filterMap Event.start?).reverse) = _
  rw [List.reverse_cons]
  rfl

theorem starts_closed (f : Frame) (a : Analysis) (told : Bool)
    (s : State (Recorded σ)) :
    (t.watched.closed f a told s).world.outside.starts =
      s.world.outside.starts := by
  cases told <;> rfl

/-- What the listener is told on a tour is what the tour enters. -/
theorem Toured.starts {levels : Nat} {depth : Int} {cs : List CallSite}
    {bs : List Block} {T : Tour}
    (h : Toured t.watched levels depth cs bs s T s') :
    s'.world.outside.starts =
      s.world.outside.starts ++ T.starts depth := by
  induction h with
  | done => exact (List.append_nil _).symm
  | block _ ih | passed _ _ ih | leaf _ _ _ _ ih => exact ih
  | failed _ _ _ hm _ _ _ ih =>
    rw [ih, starts_closed, hm.starts, starts_opened, List.append_assoc]
    rfl
  | entered _ _ _ hm _ _ _ _ ihI ih =>
    rw [ih, starts_closed, ihI, hm.starts, starts_opened, Tour.starts]
    simp [frameOf]

end

-- ======================================================== faithfulness

/-- A session has put together a walkthrough of its root that is faithful
to a run that entered methods in some order at some depths. -/
structure Session.Faithful (F : Session) (root : Analysis)
    (starts : List (MethodKey × Int)) : Prop where
  /-- The steps are the lines of the walkthrough, numbered. -/
  written : F.steps = writeLines (outline F.registry root)
  visited : starts.map (·.1) = F.visited.reverse
  /-- The complete methods are started in the order and at the depths in
  which they were entered, -/
  ordered : startsIn (outline F.registry root) =
    starts.filter (completes F.registry ·.1)
  /-- none of them twice, -/
  once : ((startsIn (outline F.registry root)).map (·.1)).Nodup
  /-- and each is traced in full. -/
  full : ∀ a ∈ F.registry, a.status = .complete → ∃ n : Nat,
    (a.key, (n : Int)) ∈ starts ∧ TracedInFull (outline F.registry root) a n
  /-- It begins with its root, -/
  first : (outline F.registry root).head? = some ⟨0, .enter root⟩
  /-- and every other method is started under the call that led to it. -/
  nested : ∀ before a n after,
    outline F.registry root = before ++ ⟨n, .enter a⟩ :: after →
    before ≠ [] → EnteredBy starts before a n
  /-- References are to methods that were traced before. -/
  references : References (outline F.registry root)
  shallow : ∀ step ∈ F.steps, step.depth ≤ F.limits.maxDepth + 1
  /-- What is skipped is what the report counts, but for the root. -/
  skipped : ∀ name now,
    let stats := (Analyst.report name F now (.ok root)).stats
    stats.truncatedLeaves = (skips .truncated (outline F.registry root) +
      if root.status = .truncated then 1 else 0 : Nat) ∧
    stats.failedLeaves = (skips .failed (outline F.registry root) +
      if root.status = .failed then 1 else 0 : Nat)

theorem depth_of_mem_writeLines {lines : List Line} {step : Trace.Step}
    (h : step ∈ writeLines lines) : ∃ l ∈ lines, step.depth = l.depth := by
  obtain ⟨⟨l, n⟩, hl, rfl⟩ := List.mem_map.1 h
  exact ⟨l, List.fst_mem_of_mem_zipIdx hl, rfl⟩

-- ========================================================= plain roots

/-- Where nothing complete is registered, a root without a description is
shown faithfully. -/
theorem Session.Faithful.of_leaf {F : Session} {key : MethodKey}
    {root : Analysis} (hroot : IsLeaf key root)
    (hsteps : F.steps = assemble F.registry root)
    {starts : List (MethodKey × Int)}
    (hvisited : starts.map (·.1) = F.visited.reverse)
    (hnone : ∀ a ∈ F.registry, a.status ≠ .complete ∧ a.calls = []) :
    F.Faithful root starts := by
  obtain ⟨b, hblocks, hcalls⟩ : ∃ b, root.blocks = [b] ∧ b.calls = [] := by
    obtain ⟨status, reason, now, -, rfl⟩ := hroot
    exact ⟨_, rfl, rfl⟩
  have houtline := outline_single F.registry hblocks hcalls
  have hstarts : startsIn (outline F.registry root) = [] := by
    simp [houtline, startsIn, hroot.status]
  have hcount : ∀ status, Analyst.leaves status F.registry root =
      if root.status = status then 1 else 0 := by
    intro status
    have hflat : F.registry.flatMap Analysis.calls = [] :=
      List.flatMap_eq_nil_iff.2 fun a ha => (hnone a ha).2
    rw [Analyst.leaves, hflat, List.countP_nil, Nat.zero_add]
  constructor
  case written => exact hsteps
  case visited => exact hvisited
  case ordered =>
    rw [hstarts]
    refine (List.filter_eq_nil_iff.2 fun e _ hcomplete => ?_).symm
    rcases hget : F.registry.get? e.1 with _ | a
    · simp [completes, hget] at hcomplete
    · exact (hnone a (Registry.mem_of_get? hget)).1
        ((completes_iff hget).1 hcomplete)
  case once => simp [hstarts]
  case full => exact fun a ha hs => absurd hs (hnone a ha).1
  case first => rw [houtline]; rfl
  case nested =>
    intro before a n after heq hne
    rw [houtline] at heq
    cases before with
    | nil => exact absurd rfl hne
    | cons l before =>
      have hmem : (⟨n, .enter a⟩ : Line) ∈
          [⟨0, .block root b⟩, ⟨0, .exit root⟩] := by
        rw [(List.cons.inj heq).2]
        simp
      simp at hmem
  case references =>
    have hnot : ∀ l ∈ outline F.registry root, ∀ a inner step,
        l.mark ≠ .again a inner step := by
      rw [houtline]
      simp
    simpa using references_nil.append _ hnot
  case shallow =>
    intro step hstep
    rw [hsteps] at hstep
    obtain ⟨l, hl, hdepth⟩ := depth_of_mem_writeLines hstep
    rw [houtline] at hl
    have hzero : l.depth = 0 := by
      simp only [List.mem_cons, List.not_mem_nil, or_false] at hl
      rcases hl with rfl | rfl | rfl <;> rfl
    omega
  case skipped =>
    intro name now
    simp only [Analyst.report, hcount, houtline]
    simp [skips]

-- ====================================================== described roots

/-- A line is an end, so a start in the lines before it is not it. -/
theorem exists_of_append_exit {lines before after : List Line}
    {a root : Analysis} {n d : Nat}
    (h : lines ++ [⟨d, .exit root⟩] = before ++ ⟨n, .enter a⟩ :: after) :
    ∃ after', lines = before ++ ⟨n, .enter a⟩ :: after' := by
  rcases List.eq_nil_or_concat after with rfl | ⟨after', last, rfl⟩
  · have hlast := (List.append_inj' h rfl).2
    simp at hlast
  · have heq : lines ++ [⟨d, .exit root⟩] =
        (before ++ ⟨n, .enter a⟩ :: after') ++ [last] := by
      simpa using h
    exact ⟨after', (List.append_inj' heq rfl).1⟩

/-- The lines of a root that was entered and described: those of its tour,
between its start and its end. -/
def Tour.around (at_ : MethodKey → Nat) (x : Analysis) (b : Block)
    (I : Tour) : List Line :=
  ⟨0, .enter (expanded x I)⟩ ::
    (I.lines at_ (expanded x I) 0 b ++ [⟨0, .exit (expanded x I)⟩])

theorem Tour.depth_around (at_ : MethodKey → Nat) (x : Analysis) (b : Block)
    (I : Tour) : ∀ l ∈ I.around at_ x b, l.depth ≤ I.height + 1 := by
  refine List.forall_mem_cons.2 ⟨Nat.zero_le _,
    List.forall_mem_append.2 ⟨fun l hl => ?_, ?_⟩⟩
  · have := (Tour.depth_lines at_ I (expanded x I) 0 b l hl).2
    omega
  · exact List.forall_mem_singleton.2 (Nat.zero_le _)

section

variable {t : Tracer σ} {levels : Nat} {x : Analysis} {key : MethodKey}
  {s₁ s₂ : State σ} {I : Tour}

/-- The complete methods are started in the order in which they were
entered, from the root on. -/
theorem Toured.startsIn_around (h : Toured t levels 0 [] x.blocks s₁ I s₂)
    (hx : x.Bare key) {r : Registry}
    (hr : ∀ a ∈ I.registered ++ [expanded x I], r.get? a.key = some a)
    (at_ : MethodKey → Nat) (b : Block) :
    startsIn (I.around at_ x b) =
      ((key, (0 : Int)) :: I.starts 0).filter (completes r ·.1) := by
  have hkey := key_expanded hx I
  have hstatus := status_expanded hx I
  have hin := h.startsIn_lines
    (fun a ha => hr a (List.mem_append_left _ ha)) at_ (expanded x I) 0 b
  have hroot : completes r key = true := by
    rw [← hkey]
    exact (completes_iff
      (hr _ (List.mem_append_right _ (List.mem_singleton_self _)))).2 hstatus
  have hfirst : ∀ lines : List Line,
      startsIn (⟨0, .enter (expanded x I)⟩ :: lines) =
        (key, (0 : Int)) :: startsIn lines := by
    intro lines
    simp [startsIn, hstatus, hkey]
  rw [Tour.around, hfirst, startsIn_append, hin, List.filter_cons]
  simp [hroot, startsIn]

/-- The root is traced in full, and so is what its tour registers. -/
theorem Toured.tracedInFull_around
    (h : Toured t levels 0 [] x.blocks s₁ I s₂) (hx : x.Bare key)
    (at_ : MethodKey → Nat) (b : Block) :
    ∀ a ∈ I.registered ++ [expanded x I], a.status = .complete →
      ∃ n : Nat, (a.key, (n : Int)) ∈ (key, (0 : Int)) :: I.starts 0 ∧
        TracedInFull (I.around at_ x b) a n := by
  intro a ha hcomplete
  rcases List.mem_append.1 ha with ha | ha
  · obtain ⟨n, hn, hfull⟩ :=
      h.tracedInFull at_ (expanded x I) 0 b a ha hcomplete
    exact ⟨n, List.mem_cons_of_mem _ hn,
      hfull.within [⟨0, .enter (expanded x I)⟩] _⟩
  · obtain rfl := List.mem_singleton.1 ha
    refine ⟨0, by rw [key_expanded hx I]; exact List.mem_cons_self .., [],
      I.lines at_ (expanded x I) 0 b, [], rfl,
      fun l _ => Nat.zero_le _, ?_⟩
    rw [Tour.ownMarks_lines, h.calls_nil]
    rfl

/-- A method that is started behind the root is started under a call that
led to it. -/
theorem Toured.enteredBy_around (h : Toured t levels 0 [] x.blocks s₁ I s₂)
    (hx : x.Bare key) (hdistinct : (key :: I.entries).Nodup)
    (at_ : MethodKey → Nat) (b : Block) {before after : List Line}
    {a : Analysis} {n : Nat}
    (heq : I.around at_ x b = before ++ ⟨n, .enter a⟩ :: after)
    (hne : before ≠ []) :
    EnteredBy ((key, (0 : Int)) :: I.starts 0) before a n := by
  cases before with
  | nil => exact absurd rfl hne
  | cons l before =>
    obtain ⟨rfl, hrest⟩ := List.cons.inj heq
    obtain ⟨after', hlines⟩ := exists_of_append_exit hrest
    have hby := h.enteredBy (Int.le_refl 0) at_ (expanded x I) 0 b
      (by rw [key_expanded hx I]; exact hdistinct) hlines
    rw [key_expanded hx I] at hby
    -- the line before those of the tour announces no call
    refine hby.after [⟨0, .enter (expanded x I)⟩] ?_
    intro l hl p b c hmark
    rw [List.mem_singleton.1 hl] at hmark
    exact absurd hmark (by simp)

/-- The leaves that are counted are what the lines skip, and the root. -/
theorem Toured.leaves_eq (h : Toured t levels 0 [] x.blocks s₁ I s₂)
    (hx : x.Bare key) {status : Status} (hne : status ≠ .complete)
    (at_ : MethodKey → Nat) (b : Block) :
    Analyst.leaves status (I.registered ++ [expanded x I]) (expanded x I) =
      skips status (I.around at_ x b) +
        if (expanded x I).status = status then 1 else 0 := by
  have hin := h.skips_lines hx.calls hne at_ (expanded x I) 0 b
  have hends : ∀ lines : List Line,
      skips status (⟨0, .enter (expanded x I)⟩ ::
        (lines ++ [⟨0, .exit (expanded x I)⟩])) = skips status lines := by
    intro lines
    simp [skips]
  rw [Tour.around, hends, hin, Analyst.leaves, List.flatMap_append,
    List.flatMap_singleton, h.calls_expanded, List.countP_append,
    List.countP_append, Nat.add_comm (List.countP _ I.made)]

/-- A root that was entered and described is shown faithfully. -/
theorem Toured.faithful (h : Toured t levels 0 [] x.blocks s₁ I s₂)
    (hx : x.Bare key) (hs : Resting levels 0 s₁.session)
    (hnothing : s₁.session.registry = [])
    (hentered : s₁.session.visited = [key]) {F : Session}
    (hF : s₂.session.Ends F)
    (hregistry : F.registry = I.registered ++ [expanded x I])
    (hvisited : F.visited = (key :: I.entries).reverse)
    (hsteps : F.steps = assemble F.registry (expanded x I))
    (hlevels : levels = F.limits.maxDepth) :
    F.Faithful (expanded x I) ((key, 0) :: I.starts 0) := by
  have hheight : I.height ≤ F.registry.length := by
    have := I.height_le
    rw [hregistry, List.length_append]
    omega
  -- the block under way plays no part before the first one is taken up
  let b : Block := { id := "", description := "" }
  obtain ⟨at_, houtline, hreferences⟩ :=
    h.outline_eq hx hs hnothing hentered hF hheight b
  replace houtline : outline F.registry (expanded x I) = I.around at_ x b :=
    houtline
  have hget : ∀ a ∈ I.registered ++ [expanded x I],
      F.registry.get? a.key = some a := by
    rw [← hregistry]
    exact fun a ha => Registry.get?_of_mem hF.tidy.registeredOnce ha
  have hdistinct : (key :: I.entries).Nodup := by
    have := hF.tidy.distinct
    rw [hvisited] at this
    exact (List.reverse_perm _).nodup_iff.1 this
  have hordered : startsIn (outline F.registry (expanded x I)) =
      ((key, (0 : Int)) :: I.starts 0).filter
        (completes F.registry ·.1) := by
    rw [houtline]
    exact h.startsIn_around hx hget at_ b
  constructor
  case written => exact hsteps
  case visited =>
    rw [List.map_cons, Tour.map_fst_starts, hvisited, List.reverse_reverse]
  case ordered => exact hordered
  case once =>
    rw [hordered]
    refine List.Nodup.sublist (List.filter_sublist.map _) ?_
    rw [List.map_cons, Tour.map_fst_starts]
    exact hdistinct
  case full =>
    rw [houtline, hregistry]
    exact h.tracedInFull_around hx at_ b
  case first => rw [houtline]; rfl
  case nested =>
    intro before a n after heq hne
    exact h.enteredBy_around hx hdistinct at_ b (houtline ▸ heq) hne
  case references => exact hreferences
  case shallow =>
    intro step hstep
    rw [hsteps] at hstep
    obtain ⟨l, hl, hdepth⟩ := depth_of_mem_writeLines hstep
    have hlow := h.height_le
    have hline := Tour.depth_around at_ x b I l (houtline ▸ hl)
    omega
  case skipped =>
    intro name now
    rw [houtline]
    have hcount : ∀ status, status ≠ .complete →
        Analyst.leaves status F.registry (expanded x I) =
          skips status (I.around at_ x b) +
            if (expanded x I).status = status then 1 else 0 := by
      rw [hregistry]
      exact fun status hne => h.leaves_eq hx hne at_ b
    exact ⟨congrArg Int.ofNat (hcount .truncated (by simp)),
      congrArg Int.ofNat (hcount .failed (by simp))⟩

end

-- ================================================================ runs

/-- A root that is not entered has no description. -/
theorem Unentered.isLeaf {levels : Nat} {s : State σ} {key : MethodKey}
    {a : Analysis} (h : Unentered levels s key a)
    (hfresh : s.session.Fresh) : IsLeaf key a := by
  rcases h.cases hfresh.sound with hget | ⟨status, reason, hwhy, rfl⟩
  · rw [hfresh.registry] at hget
    exact absurd hget (by simp [Registry.get?])
  · refine ⟨status, reason, s.timeOfDay, ?_, rfl⟩
    cases hwhy <;> simp

/-- What the listener of a run is told is what the tour of the run
enters. -/
theorem Tracer.Surveyed.told {t : Tracer σ} {s s' : State (Recorded σ)}
    {T : Tour} {a : Analysis} (h : t.watched.Surveyed s T a s')
    (hsilent : s.world.outside.starts = []) :
    (t.watched.run s).2.world.outside.starts = T.starts (-1) := by
  trans s'.world.outside.starts
  · rw [h.ended]
    cases (t.watched.run s).1 <;> rfl
  · rw [h.toured.starts, hsilent, List.nil_append]

/-- The walkthrough of a run that is watched is faithful to what the
listener is told. -/
theorem watched_faithful (t : Tracer σ) {s : State (Recorded σ)}
    (hfresh : s.session.Fresh) (hstore : Reachable s.world.store)
    (hsilent : s.world.outside.starts = []) {root : Analysis}
    (hroot : (t.watched.run s).1 = .ok root) :
    (t.watched.run s).2.session.Faithful root
      (t.watched.run s).2.world.outside.starts := by
  obtain ⟨T, a, s', hrun⟩ := t.watched.run_surveyed hfresh hstore.obeys
  have hF := hrun.ends
  have htold := hrun.told hsilent
  obtain ⟨-, hT, hs, -, hstarts, hgives, hend, -, hregistry, hvisited⟩ := hrun
  rw [hroot] at hgives hend
  obtain rfl : root = a := hgives
  have hsteps : (t.watched.run s).2.session.steps =
      assemble (t.watched.run s).2.session.registry root := by
    rw [hend]
    rfl
  have hlimits : (t.watched.run s).2.session.limits = s.session.limits := by
    rw [hend]
    exact (hT.grown hs).2.limits
  have hnames : (T.starts (-1)).map (·.1) =
      (t.watched.run s).2.session.visited.reverse := by
    rw [Tour.map_fst_starts, hvisited, List.reverse_reverse]
  rw [htold]
  cases hstarts with
  | leaf =>
    cases hT with
    | leaf _ _ ha rest =>
      cases rest
      refine .of_leaf (ha.isLeaf hfresh) hsteps hnames ?_
      rw [hregistry]
      exact fun b hb => absurd hb List.not_mem_nil
  | failed =>
    cases hT with
    | failed _ _ _ _ _ ha rest =>
      cases rest
      refine .of_leaf ha hsteps hnames ?_
      rw [hregistry]
      exact List.forall_mem_cons.2
        ⟨⟨ha.status, ha.calls⟩, fun b hb => absurd hb List.not_mem_nil⟩
  | @entered x I hx =>
    subst hx
    cases hT with
    | @entered _ _ _ _ _ _ s₁ s₂ _ _ _ _ _ hc hlive hnew hm hn hb inside rest =>
      cases rest
      have hs₁ := hs.inside hnew hm
      obtain ⟨hs₂, hI⟩ := inside.grown hs₁
      have hstack := hI.stack.trans hm.stack
      have hstarts : (Tour.entered (Tracer.rootCall s.session.root) x I
          .done).starts (-1) = (s.session.root, 0) :: I.starts 0 := by
        rw [Tour.starts, Tour.starts, List.append_nil]
        rfl
      rw [hstarts]
      refine inside.faithful hb hs₁ ?_ ?_
        (hs₂.ends hstack (key_expanded hb I) hF) hregistry ?_ hsteps ?_
      · rw [hm.registry]
        exact hfresh.registry
      · rw [hm.visited]
        exact congrArg (_ :: ·) hfresh.visited
      · rw [hvisited, Tour.entries, Tour.entries, List.append_nil]
      · rw [hlimits]

/-- The walkthrough of a run is faithful to what the run tells any
listener that writes down which methods are entered. -/
theorem run_faithful (t : Tracer σ) (s : State σ) (hfresh : s.session.Fresh)
    (hstore : Reachable s.world.store) {root : Analysis}
    (hroot : (t.run s).1 = .ok root) :
    (t.run s).2.session.Faithful root
      (t.watched.run s.watched).2.world.outside.starts := by
  have hwatched := t.watched_run s
  have hok : (t.watched.run s.watched).1 = .ok root := by
    rw [hwatched] at hroot
    exact hroot
  rw [hwatched]
  exact watched_faithful t hfresh hstore rfl hok

/-- The listener hears of both methods, and the walkthrough says what it
hears. -/
theorem run_faithful_pair :
    (pairTracer.watched.run pairStart.watched).2.world.outside.starts =
        [(⟨"A", "m"⟩, 0), (⟨"A", "n"⟩, 1)] ∧
      ∃ root, (pairTracer.run pairStart).1 = .ok root ∧
        (pairTracer.run pairStart).2.session.Faithful root
          (pairTracer.watched.run pairStart.watched).2.world.outside.starts := by
  refine ⟨by decide +kernel, ?_⟩
  obtain ⟨hok, -⟩ := pair_ran
  rcases hroot : (pairTracer.run pairStart).1 with u | root
  · rw [hroot] at hok
    exact absurd hok (by simp [Except.isOk, Except.toBool])
  · exact ⟨root, rfl, run_faithful pairTracer pairStart pairStart_fresh
      pairStart_reachable hroot⟩

end CallTrace.Run
