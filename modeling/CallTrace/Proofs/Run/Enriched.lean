/-
What tracing the calls of a method adds to its description.

Before its calls are traced a method is described by what the cache holds
or an oracle said. What is registered for it in the end is a copy. Calls
are not lost, added or moved in it, and of a call that was stepped into the
copy says in three fields what came of it; a call that was not is as it
was. The rest of what is new follows from the calls: they are sorted into
their buckets again, and behind the narrative of a block stands a note for
each of its calls that was expanded.

The calls of one block are followed through the course of tracing them,
together with the notes. What answers a call, when it is complete, is
registered there, and stays so until the end. A note is put together from
descriptions that were registered in the same way, so it ends with no
blank, and nothing is lost when narrative and notes are trimmed.
-/
import CallTrace.Proofs.Reply.Tidy
import CallTrace.Proofs.Run.Cancelled
import CallTrace.Proofs.Run.Lines
import CallTrace.Proofs.Run.Replied

namespace CallTrace.Run

open List (Forall₂)
open Reply (TidyBlock)
open Trace (Registry)

variable {σ : Type}

-- ============================================================ vocabulary

/-- The call `c'` is the call `c` with what came of it. -/
structure EnrichedCall (r : Registry) (c c' : CallSite) : Prop where
  /-- Nothing else is changed. -/
  frame : c' = { c with
    innerStatus := c'.innerStatus
    innerNote := c'.innerNote
    expectedBehavior := c'.expectedBehavior }
  other : c.decision ≠ .stepInto → c' = c
  behavior : c'.innerStatus ≠ some .complete →
    c'.expectedBehavior = c.expectedBehavior
  /-- An expanded call sums up what is registered for its target. -/
  expanded : c'.innerStatus = some .complete →
    ∃ inner, r.get? c.key = some inner ∧ inner.status = .complete ∧
      c'.expectedBehavior = Trace.returnSummary inner

/-- The note is about the method that the call leads to. -/
def Noted (r : Registry) (c : CallSite) (note : String) : Prop :=
  ∃ inner, r.get? c.key = some inner ∧ inner.status = .complete ∧
    note = innerSummary inner

/-- The call was expanded. -/
def isExpanded (c : CallSite) : Bool := c.innerStatus = some .complete

/-- The block `b'` is the block `b` with what came of its calls. -/
structure EnrichedBlock (r : Registry) (b b' : Block) : Prop where
  /-- Nothing else is changed. -/
  frame : b' = { b with calls := b'.calls, narrative := b'.narrative }
  calls : Forall₂ (EnrichedCall r) b.calls b'.calls
  /-- Behind the narrative stands one note for each expanded call. -/
  narrative : ∃ notes, Forall₂ (Noted r) (b'.calls.filter isExpanded) notes ∧
    b'.narrative = "\n\n".intercalate (b.narrative :: notes)

/-- The analysis `a` is the analysis `b` with what came of its calls. -/
structure Enriched (r : Registry) (b a : Analysis) : Prop where
  /-- Nothing else is changed. -/
  frame : a = { b with blocks := a.blocks, summary := a.summary }
  blocks : Forall₂ (EnrichedBlock r) b.blocks a.blocks
  /-- Each bucket has its calls in order. -/
  buckets : ∀ d, a.summary.bucket d = a.calls.filter (·.decision = d)
  /-- Each call is in one bucket. -/
  parts : (Decision.all.flatMap a.summary.bucket).Perm a.calls

-- ========================================================= traced calls

/-- The calls `cs'` are the calls `cs` after they were traced, and `notes`
the notes about them: each call is as it was, or stepped into and answered
by what is registered, if that is complete. -/
inductive Traced (r : Registry) :
    List CallSite → List CallSite → List String → Prop where
  | nil : Traced r [] [] []
  | kept {cs cs' : List CallSite} {notes : List String} (c : CallSite)
      (rest : Traced r cs cs' notes) : Traced r (c :: cs) (c :: cs') notes
  | answered {cs cs' : List CallSite} {notes : List String} {c : CallSite}
      {a : Analysis} (hinto : c.decision = .stepInto)
      (ha : a.status = .complete → r.get? c.key = some a)
      (rest : Traced r cs cs' notes) :
    Traced r (c :: cs) (enrichCall c a :: cs') (notesOf a ++ notes)

/-- The block after its calls were traced. -/
def TracedBlock (r : Registry) (b b' : Block) : Prop :=
  ∃ calls notes, Traced r b.calls calls notes ∧
    b' = enrichBlock b calls notes

/-- Through the course of tracing them, calls and blocks are followed to
the end of the run. -/
theorem Toured.traced {t : Tracer σ} {levels : Nat} {depth : Int}
    {cs : List CallSite} {bs : List Block} {s s' : State σ} {T : Tour}
    (h : Toured t levels depth cs bs s T s')
    (hs : Resting levels depth s.session) {F : Session}
    (hF : s'.session.Ends F) :
    Traced F.registry cs T.calls T.notes ∧
      Forall₂ (TracedBlock F.registry) bs T.blocks := by
  induction h with
  | done => exact ⟨.nil, .nil⟩
  | block _ ih =>
    obtain ⟨hcalls, hblocks⟩ := ih hs hF
    exact ⟨.nil, .cons ⟨_, _, hcalls, rfl⟩ hblocks⟩
  | passed _ _ ih => exact (ih hs hF).imp_left (.kept _)
  | leaf hc _ ha hrest ih =>
    obtain ⟨-, hg⟩ := hrest.grown hs
    refine (ih hs hF).imp_left (.answered hc fun hcomplete => ?_)
    exact (hg.ends hF).get? (ha.registered hs.toSound hcomplete)
  | @failed levels depth c cs bs s s₁ s' T a n told hc hlive hnew hm hn ha _
      ih =>
    have hs₂ := (hs.inside hnew hm).outside hm.stack ha.key told (t := t)
    refine (ih hs₂ hF).imp_left (.answered hc fun hcomplete => ?_)
    exact absurd hcomplete ha.status
  | @entered levels depth c cs bs s s₁ s₂ s' I T b n hc hlive hnew hm hn hb
      hinside hrest ihI ih =>
    obtain ⟨hs₂, hI⟩ := hinside.grown (hs.inside hnew hm)
    have hkey := key_expanded hb I
    have hstack₂ := hI.stack.trans hm.stack
    have hs₃ := hs₂.outside hstack₂ hkey true (t := t)
    obtain ⟨-, hg⟩ := hrest.grown hs₃
    refine (ih hs₃ hF).imp_left (.answered hc fun _ => ?_)
    exact (hg.ends hF).get? (hs₂.get?_closed hstack₂ hkey true)

-- =============================================================== calls

theorem isExpanded_enrichCall (c : CallSite) (a : Analysis) :
    isExpanded (enrichCall c a) = true ↔ a.status = .complete := by
  rw [isExpanded, Tour.innerStatus_enrichCall, decide_eq_true_eq]
  simp

theorem isExpanded_of_bare {c : CallSite} (h : c.Bare) :
    isExpanded c = false := by
  rw [isExpanded, h.1]
  rfl

/-- A call that is kept as it was. -/
theorem enrichedCall_kept {r : Registry} {c : CallSite} (h : c.Bare) :
    EnrichedCall r c c where
  frame := rfl
  other := fun _ => rfl
  behavior := fun _ => rfl
  expanded := fun hc => by
    rw [h.1] at hc
    cases hc

/-- A call that is answered is enriched by what is registered of it. -/
theorem enrichedCall_answered {r : Registry} {c : CallSite} {a : Analysis}
    (hinto : c.decision = .stepInto)
    (ha : a.status = .complete → r.get? c.key = some a) :
    EnrichedCall r c (enrichCall c a) where
  frame := by
    rw [enrichCall]
    split
    · dsimp only
      split <;> rfl
    · rfl
  other := fun hnot => absurd hinto hnot
  behavior := by
    intro hstatus
    have hpartial : a.status ≠ .complete := by
      rw [Tour.innerStatus_enrichCall] at hstatus
      exact fun h => hstatus (congrArg some h)
    rw [enrichCall, if_neg hpartial]
  expanded := by
    intro hstatus
    have hcomplete : a.status = .complete := by
      rw [Tour.innerStatus_enrichCall] at hstatus
      exact Option.some.inj hstatus
    refine ⟨a, ha hcomplete, hcomplete, ?_⟩
    rw [enrichCall, if_pos hcomplete]
    dsimp only
    split <;> rfl

namespace Traced

variable {r : Registry} {cs cs' : List CallSite} {notes : List String}

/-- Calls that were traced are enriched ones, in their order. -/
theorem enriched (h : Traced r cs cs' notes) (hbare : ∀ c ∈ cs, c.Bare) :
    Forall₂ (EnrichedCall r) cs cs' := by
  induction h with
  | nil => exact .nil
  | kept c _ ih =>
    obtain ⟨hc, hrest⟩ := List.forall_mem_cons.1 hbare
    exact .cons (enrichedCall_kept hc) (ih hrest)
  | answered hinto ha _ ih =>
    obtain ⟨-, hrest⟩ := List.forall_mem_cons.1 hbare
    exact .cons (enrichedCall_answered hinto ha) (ih hrest)

/-- There is one note for each call that was expanded, in order. -/
theorem noted (h : Traced r cs cs' notes) (hbare : ∀ c ∈ cs, c.Bare) :
    Forall₂ (Noted r) (cs'.filter isExpanded) notes := by
  induction h with
  | nil => exact .nil
  | kept c _ ih =>
    obtain ⟨hc, hrest⟩ := List.forall_mem_cons.1 hbare
    rw [List.filter_cons_of_neg (by simp [isExpanded_of_bare hc])]
    exact ih hrest
  | @answered _ _ _ c a _ ha _ ih =>
    obtain ⟨-, hrest⟩ := List.forall_mem_cons.1 hbare
    by_cases hcomplete : a.status = .complete
    · rw [List.filter_cons_of_pos ((isExpanded_enrichCall c a).2 hcomplete),
        notesOf, if_pos hcomplete]
      refine .cons ⟨a, ?_, hcomplete, rfl⟩ (ih hrest)
      rw [key_enrichCall]
      exact ha hcomplete
    · rw [List.filter_cons_of_neg (by rwa [isExpanded_enrichCall]), notesOf,
        if_neg hcomplete]
      exact ih hrest

end Traced

-- ============================================================== blocks

/-- Whatever stands in the second list has its partner in the first. -/
private theorem exists_of_forall₂ {α β : Type} {R : α → β → Prop}
    {xs : List α} {ys : List β} (h : Forall₂ R xs ys) {y : β} (hy : y ∈ ys) :
    ∃ x ∈ xs, R x y := by
  induction h with
  | nil => cases hy
  | @cons x _ xs _ hhere _ ih =>
    rcases List.mem_cons.1 hy with rfl | hy
    · exact ⟨x, List.mem_cons_self, hhere⟩
    · obtain ⟨x', hx', hR⟩ := ih hy
      exact ⟨x', List.mem_cons_of_mem _ hx', hR⟩

/-- Every complete analysis that is registered has blocks with tidy
descriptions. -/
def Presentable (r : Registry) : Prop :=
  ∀ a ∈ r, a.status = .complete → ∀ b ∈ a.blocks, Text.Tidy b.description

/-- A note ends with no blank if the descriptions in it do not. -/
theorem ends_innerSummary {inner : Analysis}
    (h : ∀ b ∈ inner.blocks, Text.Ends b.description) :
    Text.Ends (innerSummary inner) := by
  refine Text.ends_intercalate (by simp) (List.forall_mem_cons.2 ⟨?_, ?_⟩)
  · exact Text.Ends.append _ ⟨[], ':', rfl, by decide⟩
  · intro line hline
    obtain ⟨⟨b, n⟩, hmem, rfl⟩ := List.mem_map.1 hline
    exact Text.Ends.append _ (h b (List.fst_mem_of_mem_zipIdx hmem))

/-- Tracing the calls of a block leaves all else in it as it was. -/
theorem TracedBlock.description {r : Registry} {b b' : Block}
    (h : TracedBlock r b b') : b'.description = b.description := by
  obtain ⟨calls, notes, -, rfl⟩ := h
  rw [enrichBlock]
  split <;> rfl

/-- A block that was traced is an enriched one: its notes are shown behind
its narrative. -/
theorem TracedBlock.enriched {r : Registry} {b b' : Block}
    (h : TracedBlock r b b') (hbare : ∀ c ∈ b.calls, c.Bare)
    (htidy : TidyBlock b) (hr : Presentable r) : EnrichedBlock r b b' := by
  obtain ⟨calls, notes, htraced, rfl⟩ := h
  have hnoted := htraced.noted hbare
  have hends : ∀ note ∈ notes, Text.Ends note := by
    intro note hnote
    obtain ⟨c, -, inner, hget, hcomplete, rfl⟩ :=
      exists_of_forall₂ hnoted hnote
    exact ends_innerSummary fun b hb =>
      (hr inner (Registry.mem_of_get? hget) hcomplete b hb).ends
  have htext : Text.Tidy ("\n\n".intercalate (b.narrative :: notes)) :=
    ⟨htidy.narrative.begins.intercalate _ _, Text.ends_intercalate (by simp)
      (List.forall_mem_cons.2 ⟨htidy.narrative.ends, hends⟩)⟩
  have hnarrative : (enrichBlock b calls notes).narrative =
      "\n\n".intercalate (b.narrative :: notes) := by
    rw [enrichBlock]
    split
    · rename_i hempty
      rw [List.isEmpty_iff.1 hempty, String.intercalate_singleton]
    · dsimp only
      rw [htext.trim_eq, String.ofList_toList]
  exact {
    frame := by
      rw [enrichBlock]
      split <;> rfl
    calls := by
      rw [Tour.calls_enrichBlock]
      exact htraced.enriched hbare
    narrative := ⟨notes, by rwa [Tour.calls_enrichBlock], hnarrative⟩ }

-- ============================================================= analyses

/-- A leaf has no calls, and nothing was added to it. -/
theorem IsLeaf.enriched {key : MethodKey} {a : Analysis} (h : IsLeaf key a)
    (r : Registry) : Enriched r a a := by
  obtain ⟨status, reason, now, -, rfl⟩ := h
  exact {
    frame := rfl
    blocks := .cons ⟨rfl, .nil, [], .nil, rfl⟩ .nil
    buckets := fun d => by cases d <;> rfl
    parts := .refl _ }

/-- The blocks of a method are enriched, in their order. -/
theorem enriched_blocks {r : Registry} {bs bs' : List Block}
    (h : Forall₂ (TracedBlock r) bs bs') (hr : Presentable r)
    (hbare : ∀ c ∈ bs.flatMap (·.calls), c.Bare)
    (htidy : ∀ b ∈ bs, TidyBlock b) :
    Forall₂ (EnrichedBlock r) bs bs' := by
  have hall : ∀ b ∈ bs, (∀ c ∈ b.calls, c.Bare) ∧ TidyBlock b :=
    fun b hb => ⟨fun c hc => hbare c (List.mem_flatMap_of_mem hb hc),
      htidy b hb⟩
  refine ((List.forall₂_and_left bs bs').2 ⟨hall, h⟩).imp ?_
  rintro b b' ⟨⟨hcalls, htexts⟩, htraced⟩
  exact htraced.enriched hcalls htexts hr

/-- What is registered for a method, from the outcome of describing it. -/
inductive Registers (r : Registry) (key : MethodKey) :
    Except Failure Analysis → Analysis → Prop where
  | failed (e : Failure) (now : Number.Double) :
    Registers r key (.error e) (.placeholder key .failed e.message now)
  | leaf {a : Analysis} (h : IsLeaf key a) : Registers r key (.ok a) a
  | traced {b : Analysis} {blocks : List Block} (hb : b.Bare key)
      (hreplied : Replied b.blocks)
      (hblocks : Forall₂ (TracedBlock r) b.blocks blocks) :
    Registers r key (.ok b) (enrich b blocks)

theorem Replied.tidy {blocks : List Block} (h : Replied blocks) :
    ∀ b ∈ blocks, TidyBlock b := by
  obtain ⟨owner, text, hparse⟩ := h
  have htidy := Reply.tidy_parse owner text
  rwa [hparse] at htidy

/-- What is registered, complete, has descriptions of a reply. -/
theorem Registers.presentable {r : Registry} {key : MethodKey}
    {described : Except Failure Analysis} {a : Analysis}
    (h : Registers r key described a) (hcomplete : a.status = .complete) :
    ∀ b ∈ a.blocks, Text.Tidy b.description := by
  cases h with
  | failed => cases hcomplete
  | leaf h => exact absurd hcomplete h.status
  | @traced b blocks hb hreplied hblocks =>
    intro b' hb'
    obtain ⟨b'', hmem, htraced⟩ := exists_of_forall₂ hblocks hb'
    rw [htraced.description]
    exact (hreplied.tidy b'' hmem).description

-- ================================================================ visits

namespace Tracer

variable {t : Tracer σ} {levels : Nat} {f g : Frame} {s s' s₁ : State σ}

/-- What entering and describing a method brings about, and leaving it,
holds of the way to every method that is visited. -/
theorem Visits.along {R : State σ → State σ → Prop} (hR : Along t R)
    (h : Visits t levels f s g s') : R s s' := by
  induction h with
  | here => exact hR.refl _
  | @inside levels f g s s₁ s₂ s' b c hnew hb hcomplete hmeets _ ih =>
    have hdescribed := hR.described f s hnew
    rw [hb] at hdescribed
    have hmet : R s₁ s₂ := by
      refine hmeets.holds (P := R s₁) (fun c s _ _ hs => ?_) (hR.refl s₁)
      rw [answer_state]
      exact hR.trans _ _ _ hs (hR.trace levels _ s)
    exact hR.trans _ _ _ hdescribed (hR.trans _ _ _ hmet ih)

/-- Entering a method of which there is no description leaves its leaf. -/
theorem trace_barren (hnew : Enterable s.session f.key)
    {described : Except Failure Analysis}
    (hb : t.base f.key (t.opened f s) = (described, s₁)) {a : Analysis}
    {told : Bool} (ha : Barren f.key s₁.timeOfDay described a told) :
    (t.trace (levels + 1) f s).2 = t.closed f a told s₁ := by
  rw [trace_enterable t hnew, enter_run, hb]
  cases ha with
  | missing u => rfl
  | @failed e he =>
    cases e with
    | unresolved u => exact absurd rfl (he u)
    | _ => rfl
  | leaf ha =>
    dsimp only
    rw [if_neg ha]

/-- A method of which there is no description is registered in the end with
its leaf. -/
theorem Visits.barren {c : CallSite} {depth : Int} {F : Session}
    (h : Visits t levels (frameOf c depth) s g s')
    (hs : AtRest levels depth s)
    (hF : (t.trace levels (frameOf c depth) s).2.session.Ends F)
    {described : Except Failure Analysis}
    (hb : t.base g.key (t.opened g s') = (described, s₁)) {a : Analysis}
    {told : Bool} (ha : Barren g.key s₁.timeOfDay described a told)
    (hkey : a.key = g.key) : F.registry.get? g.key = some a := by
  obtain ⟨left, d, e, rfl, -, hs', hnew, hF⟩ := h.ends c depth rfl hs hF
  obtain ⟨hrest, hstack, -⟩ := base_rests hs' hnew hb
  rw [trace_barren hnew hb ha] at hF
  exact hF.get? (hrest.resting.get?_closed hstack hkey told)

/-- Answering the calls of a method goes on with the course of its calls. -/
theorem answer_answers (levels : Nat) (f : Frame) (c : CallSite)
    (s : State σ) (hc : c.decision = .stepInto) (hlive : Live f.depth s) :
    Answers t levels f.depth c s (t.answer levels f c s).1
      (t.answer levels f c s).2 := by
  obtain ⟨a, hgives, hans⟩ := t.trace_answers levels c f.depth s hc hlive
  rw [answer, stateM_bind_run, hgives.orLeaf]
  exact hans

/-- A method that is visited and described is registered in the end with
its calls traced. -/
theorem Visits.traced {c : CallSite} {depth : Int} {F : Session}
    (h : Visits t levels (frameOf c depth) s g s')
    (hs : AtRest levels depth s)
    (hF : (t.trace levels (frameOf c depth) s).2.session.Ends F)
    {b : Analysis} (hb : t.base g.key (t.opened g s') = (.ok b, s₁))
    (hcomplete : b.status = .complete) :
    ∃ blocks, F.registry.get? g.key = some (enrich b blocks) ∧
      Forall₂ (TracedBlock F.registry) b.blocks blocks := by
  obtain ⟨left, d, e, rfl, -, hs', hnew, hF⟩ := h.ends c depth rfl hs hF
  obtain ⟨hrest₁, hstack₁, -, hkey⟩ := base_rests hs' hnew hb
  obtain ⟨hrest, hstack⟩ := leaving_rests (t := t) hs' hnew
  have hkey : (t.expand left (frameOf d e) b s₁).1.key = d.key :=
    hkey b rfl
  rw [trace_expands hnew hb hcomplete] at hF
  refine ⟨_, hF.get? (hrest.get?_closed hstack hkey true), ?_⟩
  have hends := hrest.ends hstack hkey hF
  rw [leaving, hb] at hends
  simp only [if_pos hcomplete] at hends
  obtain ⟨T, hcourse, -, -, hblocks⟩ := traceBlocks_course
    (t.answer_answers left (frameOf d e)) b.blocks s₁
  obtain ⟨htoured, -⟩ := hcourse.toured hrest₁.store
  rw [← hblocks]
  exact (htoured.traced hrest₁.resting hends).2

/-- What is registered in the end of a run comes, method by method, of
describing the methods that were visited. -/
theorem run_registers (t : Tracer σ) {s : State σ}
    (hfresh : s.session.Fresh) (hstore : Reachable s.world.store) :
    let F := (t.run s).2.session
    ∀ a ∈ F.registry, ∃ g s',
      Visits t (s.session.limits.maxDepth + 1) ⟨s.session.root, 0, false⟩ s
        g s' ∧
      a.key = g.key ∧
      Registers F.registry g.key (t.base g.key (t.opened g s')).1 a := by
  intro F a ha
  obtain ⟨hs, hends⟩ := t.run_rests hfresh hstore.obeys
  obtain ⟨hvisits, -⟩ := t.run_visits hfresh hstore.obeys
  obtain ⟨g, s', hvisit, hkey, -⟩ := hvisits a ha
  refine ⟨g, s', hvisit, hkey, ?_⟩
  have hroot : Visits t (s.session.limits.maxDepth + 1)
      (frameOf (rootCall s.session.root) (-1)) s g s' := hvisit
  -- Whatever is registered under the key is the analysis.
  have hget : F.registry.get? g.key = some a :=
    hkey ▸ Registry.get?_of_mem hends.tidy.registeredOnce ha
  obtain ⟨left, d, e, rfl, -, hs', hnew, -⟩ := hroot.ends _ _ rfl hs hends
  have hnew : Enterable s'.session (frameOf d e).key := hnew
  rcases hb : t.base (frameOf d e).key (t.opened (frameOf d e) s') with
    ⟨failure | b, s₁⟩
  · have hbarren : ∃ told, Barren d.key s₁.timeOfDay (.error failure)
        (.placeholder d.key .failed failure.message s₁.timeOfDay) told := by
      cases failure with
      | unresolved u => exact ⟨_, .missing u⟩
      | _ => exact ⟨_, .failed nofun⟩
    obtain ⟨told, hbarren⟩ := hbarren
    have hleaf := hroot.barren hs hends hb hbarren rfl
    obtain rfl := Option.some.inj (hget.symm.trans hleaf)
    exact .failed failure _
  obtain ⟨-, -, hsettled, -⟩ := t.base_moves hnew.isPlain
    (s := t.opened (frameOf d e) s') hs'.store
  rw [hb] at hsettled
  rcases hsettled b rfl with hbare | ⟨-, now, rfl⟩
  · obtain ⟨blocks, hregistered, hblocks⟩ :=
      hroot.traced hs hends hb hbare.status
    obtain rfl := Option.some.inj (hget.symm.trans hregistered)
    have hacts : Acts t s (t.opened (frameOf d e) s') :=
      Acts.trans _ _ _ (hroot.along t.carried_acts.along)
        (t.carried_acts.opened (frameOf d e) s')
    exact .traced hbare (base_replied hnew.isPlain _
      (hacts.obeys_made hstore.obeys_made) b (by rw [hb]) hbare.status) hblocks
  · have hleaf := hroot.barren hs hends hb
      (.leaf (by simp [Analysis.placeholder])) rfl
    obtain rfl := Option.some.inj (hget.symm.trans hleaf)
    exact .leaf ⟨_, _, _, by simp, rfl⟩

end Tracer

/-- Tracing the calls of a method only adds to its description. Whatever is
registered at the end of a run is for a method that was visited, and what
describing it gave, with what came of its calls; where describing it
failed, it is the leaf with the message of the failure. -/
theorem run_enriches (t : Tracer σ) (s : State σ) (hfresh : s.session.Fresh)
    (hstore : Reachable s.world.store) :
    let F := (t.run s).2.session
    ∀ a ∈ F.registry, ∃ f s',
      Tracer.Visits t (s.session.limits.maxDepth + 1)
        ⟨s.session.root, 0, false⟩ s f s' ∧
      a.key = f.key ∧
      match (t.base f.key (t.opened f s')).1 with
      | .ok b => Enriched F.registry b a
      | .error e => ∃ now, a = .placeholder f.key .failed e.message now := by
  intro F a ha
  have hregisters := t.run_registers hfresh hstore
  have hpresentable : Presentable F.registry := by
    intro a ha
    obtain ⟨_, _, -, -, h⟩ := hregisters a ha
    exact h.presentable
  obtain ⟨f, s', hvisit, hkey, hregistered⟩ := hregisters a ha
  refine ⟨f, s', hvisit, hkey, ?_⟩
  generalize (t.base f.key (t.opened f s')).1 = described at hregistered
  cases hregistered with
  | failed e now => exact ⟨now, rfl⟩
  | leaf h => exact h.enriched _
  | traced hb hreplied hblocks =>
    exact {
      frame := rfl
      blocks := enriched_blocks hblocks hpresentable hb.calls hreplied.tidy
      buckets := CallSummary.bucket_ofCalls _
      parts := Reply.parts_ofCalls _ }

/-- The run enriches: the call that it expands is there, and so is what
describes it. -/
theorem run_enriches_pair :
    let F := (pairTracer.run pairStart).2.session
    F.registry.any (fun a => a.calls.any isExpanded) = true ∧
      ∀ a ∈ F.registry, ∃ f s',
        Tracer.Visits pairTracer (pairStart.session.limits.maxDepth + 1)
          ⟨pairStart.session.root, 0, false⟩ pairStart f s' ∧
        a.key = f.key ∧
        match (pairTracer.base f.key (pairTracer.opened f s')).1 with
        | .ok b => Enriched F.registry b a
        | .error e => ∃ now, a = .placeholder f.key .failed e.message now := by
  obtain ⟨-, -, hregistry⟩ := pair_ran
  have hall :=
    run_enriches pairTracer pairStart pairStart_fresh pairStart_reachable
  dsimp only
  generalize (pairTracer.run pairStart).2.session = F at hregistry hall ⊢
  have hexpanded := congrArg
    (·.any fun a => a.2.any fun c => c.1 = some .complete) hregistry
  refine ⟨?_, hall⟩
  simpa [isExpanded, List.any_map, Function.comp_def] using hexpanded

end CallTrace.Run
