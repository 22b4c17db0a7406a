/-
The lines of a walkthrough, read off the tour of its run.

The walkthrough is put together from what is registered in the end, by a
walk of its own that knows nothing of the run: it keeps its own list of
the methods that were started and its own bound on the nesting. The two
walks go the same way. A method is started in the walkthrough where the
run entered it, since a call refers to an earlier step just when its target
was registered complete before the call was met, and then its lines were
emitted before.

The link between the two, at any point between two calls: what was started
was entered, and what is registered complete was started, and its lines
are all there. The nesting of a tour is bounded by what it registers, so
the bound of the walkthrough is never met.
-/
import CallTrace.Proofs.Run.Closure
import CallTrace.Proofs.Trace.Emission

namespace CallTrace.Run

open Trace
open Tracer (closed_visited)

variable {σ : Type}

-- =============================================================== lines

namespace Tour

/-- The lines of the rest of a method `p`, traced at a depth, the block `b`
being under way. `at_` tells the steps at which methods were started. -/
def lines (at_ : MethodKey → Nat) :
    Analysis → Nat → Block → Tour → List Line
  | _, _, _, done => []
  | p, d, _, block b rest =>
    let b := enrichBlock b rest.calls rest.notes
    ⟨d, .block p b⟩ :: lines at_ p d b rest
  | p, d, b, passed c rest =>
    announceLines p b c d ++ lines at_ p d b rest
  | p, d, b, leaf c a rest =>
    let c := enrichCall c a
    announceLines p b c d ++
      (if a.status = .complete then [⟨d, .again p a (at_ a.key)⟩]
        else skipLines p c a.status d) ++ lines at_ p d b rest
  | p, d, b, failed c a rest =>
    let c := enrichCall c a
    announceLines p b c d ++ skipLines p c a.status d ++
      lines at_ p d b rest
  | p, d, b, entered c x inside rest =>
    let a := expanded x inside
    let c := enrichCall c a
    announceLines p b c d ++
      ⟨d + 1, .enter a⟩ :: (lines at_ a (d + 1) b inside ++
        ⟨d + 1, .exit a⟩ :: ⟨d, .back p a⟩ :: lines at_ p d b rest)

/-- How deep methods are nested in a tour. -/
def height : Tour → Nat
  | done => 0
  | block _ rest | passed _ rest | leaf _ _ rest | failed _ _ rest =>
    rest.height
  | entered _ _ inside rest => max (inside.height + 1) rest.height

/-- Methods that are nested are all registered. -/
theorem height_le (T : Tour) : T.height ≤ T.registered.length := by
  induction T with
  | done => exact Nat.le_refl 0
  | block _ _ ih | passed _ _ ih | leaf _ _ _ ih => exact ih
  | failed _ _ _ ih => exact Nat.le_succ_of_le ih
  | entered _ _ _ _ ihI ih =>
    simp only [height, registered, List.length_append, List.length_cons]
    omega

/-- What the walkthrough emits for the rest of a method. -/
def walk (r : Registry) (fuel : Nat) (p : Analysis) (d : Nat) (b : Block)
    (T : Tour) (e : Emission) : Emission :=
  let trace := Emission.traceMethod r fuel
  T.blocks.foldl (Emission.traceBlock trace r p d)
    (T.calls.foldl (Emission.traceCall trace r p b d) e)

end Tour

-- ======================================================== the two walks

/-- The walkthrough has come as far as the run: it has started only what
was entered, and whatever is registered complete is there, from the step
that is noted as its start. -/
structure Linked (s : Session) (e : Emission) : Prop where
  entered : ∀ key n, e.startOf? key = some n → key ∈ s.visited
  traced : ∀ a ∈ s.registry, a.status = .complete →
    ∃ n, e.startOf? a.key = some n ∧ TracedAt e.lines.toList a n
  references : References e.lines.toList

/-- From `e` to `e'` the walkthrough emits some lines and comes as far as
the session `s`. The lines may refer to the steps noted as starts. -/
structure Emitted (s : Session) (e e' : Emission)
    (new : (MethodKey → Nat) → List Line) : Prop where
  linked : Linked s e'
  starts : ∀ key n, e.startOf? key = some n → e'.startOf? key = some n
  lines : ∀ at_, (∀ key n, e'.startOf? key = some n → at_ key = n) →
    e'.lines.toList = e.lines.toList ++ new at_

section

variable {s s' : Session} {e e' e'' : Emission}
  {new new' : (MethodKey → Nat) → List Line}

theorem Emitted.trans (h : Emitted s e e' new)
    (h' : Emitted s' e' e'' new') :
    Emitted s' e e'' fun at_ => new at_ ++ new' at_ where
  linked := h'.linked
  starts key n hn := h'.starts key n (h.starts key n hn)
  lines at_ hat := by
    rw [h'.lines at_ hat, h.lines at_ fun key n hn =>
      hat key n (h'.starts key n hn), List.append_assoc]

theorem Linked.emit_nothing (h : Linked s e) :
    Emitted s e e fun _ => [] :=
  ⟨h, fun _ _ hn => hn, fun _ _ => (List.append_nil _).symm⟩

/-- Lines that start nothing and refer to nothing. -/
theorem Linked.emit (h : Linked s e) {lines : List Line}
    (hstarted : e'.started = e.started)
    (hlines : e'.lines.toList = e.lines.toList ++ lines)
    (hagain : ∀ l ∈ lines, ∀ a inner n, l.mark ≠ .again a inner n) :
    Emitted s e e' fun _ => lines where
  linked := by
    have hstart : ∀ key, e'.startOf? key = e.startOf? key := fun key => by
      rw [Emission.startOf?, Emission.startOf?, hstarted]
    refine ⟨fun key n hn => h.entered key n (hstart key ▸ hn), ?_, ?_⟩
    · intro a ha hs
      obtain ⟨n, hn, htraced⟩ := h.traced a ha hs
      exact ⟨n, (hstart _).trans hn, hlines ▸ htraced.append lines⟩
    · rw [hlines]
      exact h.references.append lines hagain
  starts key n hn := by
    rw [Emission.startOf?, hstarted]
    exact hn
  lines at_ _ := hlines

theorem Linked.announce (h : Linked s e) (p : Analysis) (b : Block)
    (c : CallSite) (d : Nat) :
    Emitted s e (e.announce p b c d) fun _ => announceLines p b c d :=
  h.emit (Emission.started_announce ..) (Emission.lines_announce ..)
    fun _ hl => not_again_of_mem_announceLines hl

theorem Linked.skip (h : Linked s e) (p : Analysis) (c : CallSite)
    (status : Status) (d : Nat) :
    Emitted s e (e.skip p c status d) fun _ => skipLines p c status d :=
  h.emit (Emission.started_skip ..) (Emission.lines_skip ..)
    fun _ hl => not_again_of_mem_skipLines hl

/-- A line for a place where nothing is referred to. -/
theorem Linked.add (h : Linked s e) (d : Nat) {m : Mark}
    (hm : ∀ a inner n, m ≠ .again a inner n) :
    Emitted s e (e.add d m) fun _ => [⟨d, m⟩] :=
  h.emit (Emission.started_add ..) (Emission.lines_add ..) fun l hl => by
    rw [List.mem_singleton.1 hl]
    exact hm

/-- A line that refers to a method that is registered. -/
theorem Linked.again (h : Linked s e) (p : Analysis) {a : Analysis}
    (ha : a ∈ s.registry) (hs : a.status = .complete) (d : Nat) :
    ∃ n, e.startOf? a.key = some n ∧
      Emitted s e (e.add d (.again p a n))
        fun at_ => [⟨d, .again p a (at_ a.key)⟩] := by
  obtain ⟨n, hn, htraced⟩ := h.traced a ha hs
  refine ⟨n, hn, ⟨h.entered, ?_, ?_⟩, fun _ _ hn => hn, ?_⟩
  · intro a' ha' hs'
    obtain ⟨n', hn', htraced'⟩ := h.traced a' ha' hs'
    exact ⟨n', hn', by rw [Emission.lines_add]; exact htraced'.append _⟩
  · rw [Emission.lines_add]
    refine h.references.snoc fun a' inner step hmark => ?_
    cases hmark
    exact htraced
  · intro at_ hat
    rw [Emission.lines_add, hat a.key n hn]

/-- The start of a method that was not entered before. -/
theorem Linked.enter (h : Linked s e) {a : Analysis}
    (hfresh : a.key ∉ s.visited) (hvisited : s'.visited = a.key :: s.visited)
    (hregistry : s'.registry = s.registry)
    (hknown : ∀ key ∈ s.registry.keys, key ∈ s.visited) (d : Nat) :
    Emitted s' e (e.enter a d) fun _ => [⟨d, .enter a⟩] := by
  have hother : ∀ key, a.key ≠ key →
      (e.enter a d).startOf? key = e.startOf? key :=
    fun key hne => e.startOf?_enter_of_ne a d hne
  constructor
  case linked =>
    constructor
    case entered =>
      intro key n hn
      rw [hvisited]
      by_cases hkey : a.key = key
      · exact hkey ▸ List.mem_cons_self ..
      · rw [hother key hkey] at hn
        exact List.mem_cons_of_mem _ (h.entered key n hn)
    case traced =>
      intro b hb hstatus
      rw [hregistry] at hb
      have hne : a.key ≠ b.key := fun hkey =>
        hfresh (hkey ▸ hknown _ (List.mem_map_of_mem hb))
      obtain ⟨n, hn, htraced⟩ := h.traced b hb hstatus
      refine ⟨n, (hother _ hne).trans hn, ?_⟩
      rw [Emission.lines_enter]
      exact htraced.append _
    case references =>
      rw [Emission.lines_enter]
      exact h.references.snoc fun _ _ _ hmark => absurd hmark (by simp)
  case starts =>
    intro key n hn
    by_cases hkey : a.key = key
    · exact absurd (h.entered key n hn) (hkey ▸ hfresh)
    · exact (hother key hkey).trans hn
  case lines => exact fun _ _ => Emission.lines_enter ..

theorem Emitted.relink (h : Emitted s e e' new) (hl : Linked s' e') :
    Emitted s' e e' new := ⟨hl, h.starts, h.lines⟩

/-- The lines that were emitted, with the starts that are noted in the
end. -/
theorem Emitted.lines_noted (h : Emitted s e e' new) :
    e'.lines.toList =
      e.lines.toList ++ new fun key => (e'.startOf? key).getD 0 :=
  h.lines _ fun key n hn => by rw [hn, Option.getD_some]

/-- A method whose start and end were emitted is there. -/
theorem Emitted.tracedAt {a : Analysis} {d : Nat}
    {inside : (MethodKey → Nat) → List Line}
    (h : Emitted s e e' fun at_ =>
      [⟨d, .enter a⟩] ++ inside at_ ++ [⟨d, .exit a⟩]) :
    TracedAt e'.lines.toList a (e.lines.toList.length + 1) := by
  refine ⟨e.lines.toList, inside fun key => (e'.startOf? key).getD 0, [], d,
    ?_, rfl⟩
  rw [h.lines_noted]
  simp

/-- Once a method is there to its end, the walkthrough has come as far as a
run that registers it. -/
theorem Emitted.registers {a : Analysis} {d : Nat}
    {inside : (MethodKey → Nat) → List Line}
    (h : Emitted s e e' fun at_ =>
      [⟨d, .enter a⟩] ++ inside at_ ++ [⟨d, .exit a⟩])
    (hself : e'.startOf? a.key = some (e.lines.toList.length + 1))
    (hvisited : s'.visited = s.visited)
    (hregistry : ∀ b ∈ s'.registry, b ∈ s.registry ∨ b = a) :
    Emitted s' e e' fun at_ =>
      [⟨d, .enter a⟩] ++ inside at_ ++ [⟨d, .exit a⟩] := by
  refine h.relink ⟨?_, fun b hb hs => ?_, h.linked.references⟩
  · rw [hvisited]
    exact h.linked.entered
  · rcases hregistry b hb with hb | rfl
    · exact h.linked.traced b hb hs
    · exact ⟨_, hself, h.tracedAt⟩

/-- The link does not depend on what is registered and not complete. -/
theorem Linked.congr (h : Linked s e)
    (hvisited : ∀ key ∈ s.visited, key ∈ s'.visited)
    (hregistry : ∀ a ∈ s'.registry, a.status = .complete →
      a ∈ s.registry) : Linked s' e where
  entered key n hn := hvisited key (h.entered key n hn)
  traced a ha hs := h.traced a (hregistry a ha hs) hs
  references := h.references

end

-- ============================================================= a call

namespace Tour

variable (r : Registry) (fuel : Nat) (p : Analysis) (d : Nat) (b : Block)
  (e : Emission)

theorem walk_block (b' : Block) (rest : Tour) :
    walk r fuel p d b (block b' rest) e =
      walk r fuel p d (enrichBlock b' rest.calls rest.notes) rest
        (e.add d (.block p (enrichBlock b' rest.calls rest.notes))) := by
  rw [walk, blocks_block, calls_block, List.foldl_cons, List.foldl_nil,
    Emission.traceBlock, calls_enrichBlock]
  rfl

/-- The walk goes on after the first call. -/
theorem walk_call {c : CallSite} {T T' : Tour}
    (hcalls : T'.calls = c :: T.calls) (hblocks : T'.blocks = T.blocks) :
    walk r fuel p d b T' e = walk r fuel p d b T
      (Emission.traceCall (Emission.traceMethod r fuel) r p b d e c) := by
  rw [walk, hcalls, hblocks, List.foldl_cons]
  rfl

/-- A call that was not looked into is only announced. -/
theorem traceCall_passed {trace : Analysis → Nat → Emission → Emission}
    {c : CallSite}
    (h : c.decision ≠ .stepInto ∨ c.innerStatus = none) :
    Emission.traceCall trace r p b d e c = e.announce p b c d := by
  rw [Emission.traceCall]
  rcases h with h | h
  · split
    · rename_i hinto _
      exact absurd hinto h
    · rfl
  · rw [h]
    split
    · rename_i hnone
      exact absurd hnone (by simp)
    · rfl

theorem innerStatus_enrichCall (c : CallSite) (a : Analysis) :
    (enrichCall c a).innerStatus = some a.status := by
  rw [enrichCall]
  split
  · dsimp only
    split <;> rfl
  · rfl

/-- A call that was answered is announced, and then looked into. -/
theorem traceCall_answered {trace : Analysis → Nat → Emission → Emission}
    {c : CallSite} (hc : c.decision = .stepInto) (a : Analysis) :
    Emission.traceCall trace r p b d e (enrichCall c a) =
      Emission.enterCall trace r (e.announce p b (enrichCall c a) d) p
        (enrichCall c a) a.status d := by
  rw [Emission.traceCall, innerStatus_enrichCall, decision_enrichCall, hc]

theorem enterCall_skip {trace : Analysis → Nat → Emission → Emission}
    (c : CallSite) {status : Status} (h : status ≠ .complete) :
    Emission.enterCall trace r e p c status d = e.skip p c status d := by
  rw [Emission.enterCall]
  exact fun _ hs _ => h hs

theorem enterCall_again {trace : Analysis → Nat → Emission → Emission}
    {c : CallSite} {a : Analysis} {n : Nat} (ha : r.get? c.key = some a)
    (hn : e.startOf? a.key = some n) :
    Emission.enterCall trace r e p c .complete d =
      e.add d (.again p a n) := by
  simp only [Emission.enterCall, ha, hn]

theorem enterCall_enter {trace : Analysis → Nat → Emission → Emission}
    {c : CallSite} {a : Analysis} (ha : r.get? c.key = some a)
    (hn : e.startOf? a.key = none) :
    Emission.enterCall trace r e p c .complete d =
      (trace a (d + 1) e).add d (.back p a) := by
  simp only [Emission.enterCall, ha, hn]

/-- A method is traced by tracing what its tour has found out. -/
theorem traceMethod_expanded {t : Tracer σ} {levels : Nat} {depth : Int}
    {s s' : State σ} {x : Analysis} {I : Tour}
    (h : Toured t levels depth [] x.blocks s I s') :
    Emission.traceMethod r (fuel + 1) (expanded x I) d e =
      (I.walk r fuel (expanded x I) d b (e.enter (expanded x I) d)).add d
        (.exit (expanded x I)) := by
  rw [Emission.traceMethod, walk, h.calls_nil]
  rfl

end Tour

-- ============================================================ the link

/-- What is registered and complete after the innermost method is left was
so before, unless it is what has come of that method. -/
theorem Resting.mem_registry_closed {t : Tracer σ} {levels : Nat}
    {depth : Int} {c : CallSite} {s : State σ}
    (hs : Resting levels (depth + 1) s.session)
    {rest : List Frame} (hstack : s.session.stack = frameOf c depth :: rest)
    {a : Analysis} (ha : a.key = c.key) {told : Bool} {b : Analysis}
    (hb : b ∈ (t.closed (frameOf c depth) a told s).session.registry) :
    b ∈ s.session.registry ∨ b = a := by
  rw [hs.registry_closed hstack ha, List.mem_append,
    List.mem_singleton] at hb
  exact hb

/-- A method that was entered and described is traced from its start to its
end, if what is inside is traced: then the walkthrough has come as far as
the run has on leaving the method. -/
theorem Toured.emitted_method {t : Tracer σ} {levels : Nat} {depth : Int}
    {c : CallSite} {s s₁ s₂ : State σ} {x : Analysis} {I : Tour} {n : Nat}
    (hinside : Toured t levels (depth + 1) [] x.blocks s₁ I s₂)
    (hx : x.Bare c.key) (hs : Resting (levels + 1) depth s.session)
    (hnew : Enterable s.session c.key)
    (hm : Moves t n (t.opened (frameOf c depth) s) s₁)
    {r : Registry} {fuel d : Nat} {b : Block} {e : Emission}
    (hwalk : ∀ e', Linked s₁.session e' →
      Emitted s₂.session e' (I.walk r fuel (expanded x I) d b e')
        fun at_ => I.lines at_ (expanded x I) d b)
    (hl : Linked s.session e) :
    Emitted (t.closed (frameOf c depth) (expanded x I) true s₂).session e
      (Emission.traceMethod r (fuel + 1) (expanded x I) d e)
      fun at_ => [⟨d, .enter (expanded x I)⟩] ++
        I.lines at_ (expanded x I) d b ++ [⟨d, .exit (expanded x I)⟩] := by
  have hs₁ := hs.inside hnew hm
  obtain ⟨hs₂, hI⟩ := hinside.grown hs₁
  have hkey := key_expanded hx I
  have hentered : s₁.session.visited =
      (expanded x I).key :: s.session.visited := by
    rw [hkey]
    exact hm.visited
  have henter := hl.enter (by rw [hkey]; exact hnew.fresh) hentered
    hm.registry hs.visited_of_registered d
  have hin := hwalk _ henter.linked
  have hexit := hin.linked.add d (m := .exit (expanded x I)) (by simp)
  have hself := hexit.starts _ _ (hin.starts _ _
    (Emission.startOf?_enter_self e (expanded x I) d))
  rw [Tour.traceMethod_expanded _ _ _ b _ hinside]
  exact ((henter.trans hin).trans hexit).registers hself
    (closed_visited ..)
    fun _ => hs₂.mem_registry_closed (hI.stack.trans hm.stack) hkey

/-- A call that enters a method is announced, and comes back when the
method was traced. -/
theorem Linked.emit_entered {s s' : Session} {r : Registry}
    {trace : Analysis → Nat → Emission → Emission} {c : CallSite}
    {a p : Analysis} {b : Block} {d : Nat} {e : Emission}
    {new : (MethodKey → Nat) → List Line} (hl : Linked s e)
    (hc : c.decision = .stepInto) (hstatus : a.status = .complete)
    (hget : r.get? c.key = some a) (hfresh : a.key ∉ s.visited)
    (htrace : ∀ e', Linked s e' →
      Emitted s' e' (trace a (d + 1) e') new) :
    Emitted s' e (Emission.traceCall trace r p b d e (enrichCall c a))
      fun at_ => announceLines p b (enrichCall c a) d ++ new at_ ++
        [⟨d, .back p a⟩] := by
  have hcall := hl.announce p b (enrichCall c a) d
  have hend : r.get? (enrichCall c a).key = some a := by
    rw [key_enrichCall]
    exact hget
  have hnone : (e.announce p b (enrichCall c a) d).startOf? a.key = none :=
    Option.eq_none_iff_forall_not_mem.2 fun n hn =>
      hfresh (hcall.linked.entered _ n hn)
  rw [Tour.traceCall_answered _ _ _ _ _ hc, hstatus,
    Tour.enterCall_enter _ _ _ _ hend hnone]
  have hmethod := htrace _ hcall.linked
  exact (hcall.trans hmethod).trans
    (hmethod.linked.add d (m := .back p a) (by simp))

/-- The walkthrough, put together from what is registered at the end of a
run, goes the way of the tour and emits its lines. -/
theorem Toured.emitted {t : Tracer σ} {levels : Nat} {depth : Int}
    {cs : List CallSite} {bs : List Block} {s s' : State σ} {T : Tour}
    (h : Toured t levels depth cs bs s T s')
    (hs : Resting levels depth s.session) {F : Session}
    (hF : s'.session.Ends F)
    (hbare : ∀ c ∈ cs ++ bs.flatMap (·.calls), c.Bare) :
    ∀ (fuel : Nat) (p : Analysis) (d : Nat) (b : Block) (e : Emission),
      T.height ≤ fuel → Linked s.session e →
      Emitted s'.session e (T.walk F.registry fuel p d b e)
        fun at_ => T.lines at_ p d b := by
  induction h with
  | done => exact fun fuel p d b e _ hl => hl.emit_nothing
  | @block levels depth b' bs s s' T hrest ih =>
    intro fuel p d b e hfuel hl
    rw [Tour.walk_block]
    have hblock := hl.add d
      (m := .block p (enrichBlock b' T.calls T.notes)) (by simp)
    exact hblock.trans (ih hs hF hbare fuel p d _ _ hfuel hblock.linked)
  | @passed levels depth c cs bs s s' T hpass hrest ih =>
    intro fuel p d b e hfuel hl
    rw [Tour.walk_call _ _ _ _ _ _ (Tour.calls_passed c T) rfl,
      Tour.traceCall_passed _ _ _ _ _
        (.inr (hbare c (List.mem_cons_self ..)).1)]
    have hcall := hl.announce p b c d
    exact hcall.trans (ih hs hF
      (fun c hc => hbare c (List.mem_cons_of_mem _ hc)) fuel p d b _ hfuel
      hcall.linked)
  | @leaf levels depth c cs bs s s' T a hc hlive ha hrest ih =>
    intro fuel p d b e hfuel hl
    obtain ⟨-, hg⟩ := hrest.grown hs
    have hcall := hl.announce p b (enrichCall c a) d
    have hih := fun e' => ih hs hF
      (fun c hc => hbare c (List.mem_cons_of_mem _ hc)) fuel p d b e' hfuel
    rw [Tour.walk_call _ _ _ _ _ _ (Tour.calls_leaf c a T) rfl,
      Tour.traceCall_answered _ _ _ _ _ hc]
    by_cases hstatus : a.status = .complete
    · have hget := ha.registered hs.toSound hstatus
      obtain ⟨n, hn, hagain⟩ := hcall.linked.again p
        (Registry.mem_of_get? hget) hstatus d
      have hend : F.registry.get? (enrichCall c a).key = some a := by
        rw [key_enrichCall]
        exact (hg.ends hF).get? hget
      rw [hstatus, Tour.enterCall_again _ _ _ _ hend hn]
      have := (hcall.trans hagain).trans (hih _ hagain.linked)
      simpa only [Tour.lines, if_pos hstatus] using this
    · rw [Tour.enterCall_skip _ _ _ _ _ hstatus]
      have hskip := hcall.linked.skip p (enrichCall c a) a.status d
      have := (hcall.trans hskip).trans (hih _ hskip.linked)
      simpa only [Tour.lines, if_neg hstatus] using this
  | @failed levels depth c cs bs s s₁ s' T a n told hc hlive hnew hm hn ha hrest
      ih =>
    intro fuel p d b e hfuel hl
    have hs₁ := hs.inside hnew hm
    have hs₂ := hs₁.outside hm.stack ha.key told (t := t)
    have hlink : Linked (t.closed (frameOf c depth) a told s₁).session e := by
      refine hl.congr ?_ fun b hb hstatus => ?_
      · rw [closed_visited, hm.visited]
        exact fun key hkey => List.mem_cons_of_mem _ hkey
      · rcases hs₁.mem_registry_closed hm.stack ha.key hb with hb | rfl
        · exact hm.registry ▸ hb
        · exact absurd hstatus ha.status
    rw [Tour.walk_call _ _ _ _ _ _ (Tour.calls_failed c a T) rfl,
      Tour.traceCall_answered _ _ _ _ _ hc,
      Tour.enterCall_skip _ _ _ _ _ ha.status]
    have hcall := hlink.announce p b (enrichCall c a) d
    have hskip := hcall.linked.skip p (enrichCall c a) a.status d
    exact (hcall.trans hskip).trans (ih hs₂ hF
      (fun c hc => hbare c (List.mem_cons_of_mem _ hc)) fuel p d b _ hfuel
      hskip.linked)
  | @entered levels depth c cs bs s s₁ s₂ s' I T x n hc hlive hnew hm hn hx
      hinside hrest ihI ih =>
    intro fuel p d b e hfuel hl
    obtain ⟨fuel, rfl⟩ : ∃ f, fuel = f + 1 :=
      Nat.exists_eq_add_one.2 (by simp only [Tour.height] at hfuel; omega)
    have hheight : I.height ≤ fuel ∧ T.height ≤ fuel + 1 := by
      simp only [Tour.height] at hfuel
      omega
    have hs₁ := hs.inside hnew hm
    obtain ⟨hs₂, hI⟩ := hinside.grown hs₁
    have hkey := key_expanded hx I
    have hstack := hI.stack.trans hm.stack
    have hs₃ := hs₂.outside hstack hkey true (t := t)
    obtain ⟨-, hg⟩ := hrest.grown hs₃
    have hF₃ := hg.ends hF
    -- the call and all that is inside, up to where it comes back
    have hcall := hl.emit_entered (p := p) (b := b) (d := d) hc
      (status_expanded hx I) (hF₃.get? (hs₂.get?_closed hstack hkey true))
      (by rw [hkey]; exact hnew.fresh)
      fun e' hl' => hinside.emitted_method (b := b) hx hs hnew hm
        (fun e' hl' => ihI hs₁ (hs₂.ends hstack hkey hF₃) hx.calls fuel
          (expanded x I) (d + 1) b e' hheight.1 hl') hl'
    have hrest' := ih hs₃ hF
      (fun c hc => hbare c (List.mem_cons_of_mem _ hc)) (fuel + 1) p d b _
      hheight.2 hcall.linked
    rw [Tour.walk_call _ _ _ _ _ _ (Tour.calls_entered c x I T) rfl]
    simpa [Tour.lines] using hcall.trans hrest'

end CallTrace.Run
