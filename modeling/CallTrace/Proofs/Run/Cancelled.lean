/-
What a run still does once it is cancelled.

A run notices that it was cancelled before it describes a method, before it
puts a question to the oracle, before it tries a suggestion and before it
steps into a call. Between two of these places there is nothing but small
strides: a source is looked up, a piece of an answer is told, something is
filed, a method is left. Of all strides only two spend anything, putting a
question and entering a method, and neither is taken by a run that is
cancelled. So from wherever a run is when it is cancelled, the questions
and the methods entered stay what they are.

The one exception is the root. It is entered before anything is looked at,
so a run that is cancelled before it starts enters its root as well.

A call that is met by a cancelled run is left as the oracle reported it,
and so are all calls after it.
-/
import CallTrace.Proofs.Run.Contained
import CallTrace.Proofs.Run.InStep

namespace CallTrace.Run

open Number (Double)
open Relation (ReflTransGen)
open Source (Resolved)

variable {σ : Type}

-- ============================================================ strides

/-- A stride of a run after its root was entered. -/
inductive Stride (t : Tracer σ) : State σ → State σ → Prop where
  | looked (s : State σ) (name : String) :
    Stride t s
      (s.heard (t.sourceOf name s.world.store.files s.world.outside))
  | asked (s : State σ) (prompt : Prompt)
      (hlive : s.session.cancelled = false) :
    Stride t s
      (State.heard
        { s with session.oracleCalls := s.session.oracleCalls + 1 }
        (t.answerTo s.session.identity prompt s.world.outside))
  | told (s : State σ) (e : Event) :
    Stride t s (s.heard (t.inform e s.world.outside))
  | slept (s : State σ) (now : Double) : Stride t s (s.setNow now)
  | stored (s : State σ) (store : Cache.Store) :
    Stride t s { s with world.store := store }
  | hit (s : State σ) :
    Stride t s { s with session.hits := s.session.hits + 1 }
  | missed (s : State σ) :
    Stride t s { s with session.misses := s.session.misses + 1 }
  | entered (s : State σ) (f : Frame) (hnew : Enterable s.session f.key)
      (hlive : s.session.cancelled = false) :
    Stride t s { s with session := s.session.enter f }
  | registered (s : State σ) (a : Analysis) :
    Stride t s { s with session := s.session.register a }
  | left (s : State σ) : Stride t s { s with session := s.session.pop }
  | finished (s : State σ) :
    Stride t s { s with session.finished := true }
  | assembled (s : State σ) (root : Analysis) :
    Stride t s { s with
      session.steps := Trace.assemble s.session.registry root }

/-- The run was cancelled in `s`, and is so in `s'` with the same questions
put and the same methods entered. -/
structure Spent (s s' : State σ) : Prop where
  cancelled : s'.session.cancelled = true
  oracleCalls : s'.session.oracleCalls = s.session.oracleCalls
  visited : s'.session.visited = s.session.visited
  analyzed : s'.session.analyzed = s.session.analyzed

theorem Spent.trans {s s' s'' : State σ} (h : Spent s s')
    (h' : Spent s' s'') : Spent s s'' where
  cancelled := h'.cancelled
  oracleCalls := h'.oracleCalls.trans h.oracleCalls
  visited := h'.visited.trans h.visited
  analyzed := h'.analyzed.trans h.analyzed

/-- No stride of a cancelled run spends anything. -/
theorem Stride.spent {t : Tracer σ} {s s' : State σ} (h : Stride t s s')
    (hc : s.session.cancelled = true) : Spent s s' := by
  have heard : ∀ {α : Type} (s : State σ) (a : Answer σ α),
      s.session.cancelled = true → Spent s (s.heard a) := fun s a hc =>
    ⟨by rw [State.heard, Session.cancelIf, hc, Bool.true_or], rfl, rfl, rfl⟩
  cases h with
  | looked | told => exact heard s _ hc
  | asked _ hlive | entered _ _ hlive =>
    exact absurd (hc.symm.trans hlive) (by decide)
  | slept | stored | hit | missed | registered | left | finished
    | assembled => exact ⟨hc, rfl, rfl, rfl⟩

/-- Once a point of the chain is cancelled, nothing is spent after it. -/
theorem spent_of_isChain {t : Tracer σ} {p : State σ} {after : List (State σ)}
    (h : (p :: after).IsChain (Stride t)) (hc : p.session.cancelled = true) :
    ∀ q ∈ after, Spent p q := by
  induction after generalizing p with
  | nil => simp
  | cons q after ih =>
    obtain ⟨hpq, hafter⟩ := List.isChain_cons_cons.1 h
    have hq := hpq.spent hc
    refine List.forall_mem_cons.2 ⟨hq, fun q' hq' => ?_⟩
    exact hq.trans (ih hafter hq.cancelled q' hq')

section

variable {t : Tracer σ}

/-- Each piece of a description is made of strides. -/
theorem wary_strides (t : Tracer σ) : Wary t (ReflTransGen (Stride t)) := by
  have hheeds : Heeds t (ReflTransGen (Stride t)) :=
    { refl _ := .refl
      trans _ _ _ h h' := h.trans h'
      looked name s := .single (.looked s name)
      told e s := .single (.told s e)
      slept now s := .single (.slept s now) }
  exact
    { hheeds with
      stored s store := .single (.stored s store)
      hit s := .single (.hit s)
      missed s := .single (.missed s)
      asked prompt key s hlive := .head (.asked s prompt hlive)
        (hheeds.follow key s.session.limits.timeout
          (s.now + s.session.limits.timeout) []
          (t.answerTo s.session.identity prompt s.world.outside).value _) }

theorem closed_strides (f : Frame) (a : Analysis) (told : Bool)
    (s : State σ) : ReflTransGen (Stride t) s (t.closed f a told s) := by
  have hregistered : Stride t s
      { s with session := s.session.register a } := .registered s a
  cases told with
  | false => exact .head hregistered (.single (.left _))
  | true => exact .head hregistered (.head (.told _ _) (.single (.left _)))

/-- From entering a method to having described it. -/
theorem described_strides {f : Frame} {s s₁ : State σ}
    {r : Except Failure Analysis}
    (hr : t.base f.key (t.opened f s) = (r, s₁)) :
    ReflTransGen (Stride t) { s with session := s.session.enter f } s₁ := by
  have hbase := (wary_strides t).base f.key (t.opened f s)
  rw [hr] at hbase
  exact .head (.told _ _) hbase

/-- Below the root, tracing calls is a number of strides. -/
theorem Course.strides {levels : Nat} {depth : Int} {cs : List CallSite}
    {bs : List Block} {s s' : State σ} {T : Tour}
    (h : Course t levels depth cs bs s T s') :
    0 ≤ depth → ReflTransGen (Stride t) s s' := by
  have live : ∀ {depth : Int} {s : State σ}, Live depth s → 0 ≤ depth →
      s.session.cancelled = false := fun hlive hdepth =>
    hlive.resolve_left (by omega)
  induction h with
  | done => exact fun _ => .refl
  | block _ ih | passed _ _ ih | leaf _ _ _ _ ih => exact ih
  | @failed levels depth c cs bs s s₁ s' T r a told hc hlive hnew hbase ha _
      ih =>
    intro hdepth
    exact .head (.entered s (frameOf c depth) hnew (live hlive hdepth))
      ((described_strides (f := frameOf c depth) hbase).trans
        ((closed_strides _ a told s₁).trans (ih hdepth)))
  | @entered levels depth c cs bs s s₁ s₂ s' I T b hc hlive hnew hbase
      hcomplete _ _ ihI ih =>
    intro hdepth
    exact .head (.entered s (frameOf c depth) hnew (live hlive hdepth))
      ((described_strides (f := frameOf c depth) hbase).trans
        ((ihI (by omega)).trans
          ((closed_strides _ (expanded b I) true s₂).trans (ih hdepth))))

theorem concluded_strides (r : Outcome) (s : State σ) :
    ReflTransGen (Stride t) s (Tracer.concluded r s) := by
  cases r with
  | ok root => exact .head (.finished s) (.single (.assembled _ root))
  | error u => exact .single (.finished s)

/-- The state of a run that has entered its root. -/
def State.rooted (s : State σ) : State σ :=
  { s with session := s.session.enter ⟨s.session.root, 0, false⟩ }

/-- When its root was entered, a run goes on in strides. -/
theorem Tracer.run_strides (t : Tracer σ) (s : State σ) :
    ∃ begun, (begun = s ∨ begun = s.rooted) ∧
      ReflTransGen (Stride t) begun (t.run s).2 := by
  obtain ⟨T, a, s', hT, hstarts, -, hend⟩ := t.run_course s
  rw [hend]
  have hconclude := concluded_strides (t := t) (t.run s).1 s'
  cases hstarts with
  | leaf =>
    cases hT with
    | leaf _ _ _ rest =>
      cases rest
      exact ⟨s, .inl rfl, hconclude⟩
  | failed =>
    cases hT with
    | failed _ _ _ hbase _ rest =>
      cases rest
      exact ⟨s.rooted, .inr rfl,
        (described_strides (f := ⟨s.session.root, 0, false⟩) hbase).trans
          ((closed_strides ..).trans hconclude)⟩
  | entered =>
    cases hT with
    | entered _ _ _ hbase _ inside rest =>
      cases rest
      exact ⟨s.rooted, .inr rfl,
        (described_strides (f := ⟨s.session.root, 0, false⟩) hbase).trans
          ((inside.strides (by decide)).trans
            ((closed_strides ..).trans hconclude))⟩

end

-- ==================================================== cancelled at once

section

variable {t : Tracer σ} {s : State σ}

/-- A method that a cancelled run comes to describe has the leaf of a
cancelled run, and nothing is looked up for it. -/
theorem Tracer.base_of_cancelled (t : Tracer σ) (key : MethodKey)
    (hc : s.session.cancelled = true) :
    t.base key s =
      (.ok (.placeholder key .truncated cancelledReason s.timeOfDay), s) := by
  rw [Tracer.base, Action.bind_ok (Action.get_run s), if_pos hc]
  rfl

/-- A run that is cancelled before it starts comes to the leaf of its root,
which is registered, and to nothing else. -/
theorem Tracer.run_of_cancelled (hfresh : s.session.Fresh)
    (hc : s.session.cancelled = true)
    (hroot : Enterable s.session s.session.root) :
    ∃ now,
      let leaf : Analysis :=
        .placeholder s.session.root .truncated cancelledReason now
      (t.run s).1 = .ok leaf ∧ (t.run s).2.session.registry = [leaf] ∧
      (t.run s).2.session.visited = [s.session.root] ∧
      (t.run s).2.session.analyzed = 1 ∧
      (t.run s).2.session.oracleCalls = 0 := by
  let f := frameOf (Tracer.rootCall s.session.root) (-1)
  have hopened : (t.opened f s).session.cancelled = true := by
    show (s.session.cancelled || _) = true
    rw [hc]
    rfl
  have hbase : t.base f.key (t.opened f s) = _ :=
    t.base_of_cancelled _ hopened
  have htrace : t.trace (s.session.limits.maxDepth + 1) f s = _ :=
    t.trace_enterable hroot
  rw [Tracer.enter_run, hbase] at htrace
  dsimp only at htrace
  rw [if_neg (by simp [Analysis.placeholder])] at htrace
  rw [Tracer.run_eq, htrace]
  generalize (t.opened f s).timeOfDay = now
  let leaf : Analysis :=
    .placeholder s.session.root .truncated cancelledReason now
  refine ⟨now, rfl, ?_, ?_, ?_, ?_⟩
  · show (t.closed f leaf true (t.opened f s)).session.registry = _
    rw [Tracer.closed_registry, Tracer.opened_registry, hfresh.registry]
    rfl
  · show (t.closed f leaf true (t.opened f s)).session.visited = _
    rw [Tracer.closed_visited, Tracer.opened_visited, hfresh.visited]
    rfl
  · show (t.closed f leaf true (t.opened f s)).session.analyzed = _
    rw [Tracer.closed_analyzed, Tracer.opened_analyzed, hfresh.analyzed]
  · show (t.closed f leaf true (t.opened f s)).session.oracleCalls = _
    rw [Tracer.closed_oracleCalls, Tracer.opened_oracleCalls,
      hfresh.oracleCalls]

end

-- ====================================================== calls left alone

section

variable (step : CallSite → StateM (State σ) Analysis)

/-- Tracing the calls `cs` and then the blocks `bs` comes to where the
calls `cs'` and the blocks `bs'` are left, in a state. -/
inductive Reaches : List CallSite → List Block → State σ →
    List CallSite → List Block → State σ → Prop where
  | here {cs : List CallSite} {bs : List Block} {s : State σ} :
    Reaches cs bs s cs bs s
  | block {b : Block} {bs bs' : List Block} {cs' : List CallSite}
      {s s' : State σ} (rest : Reaches b.calls bs s cs' bs' s') :
    Reaches [] (b :: bs) s cs' bs' s'
  | passed {c : CallSite} {cs cs' : List CallSite} {bs bs' : List Block}
      {s s' : State σ}
      (h : c.decision ≠ .stepInto ∨ s.session.cancelled = true)
      (rest : Reaches cs bs s cs' bs' s') :
    Reaches (c :: cs) bs s cs' bs' s'
  | stepped {c : CallSite} {cs cs' : List CallSite} {bs bs' : List Block}
      {s s' : State σ}
      (h : ¬(c.decision ≠ .stepInto ∨ s.session.cancelled = true))
      (rest : Reaches cs bs (step c s).2 cs' bs' s') :
    Reaches (c :: cs) bs s cs' bs' s'

/-- All calls after the calls `cs` and then the blocks `bs` were traced. -/
def callsMade (cs : List CallSite) (bs : List Block) (s : State σ) :
    List CallSite :=
  (traceCalls step cs s).1.1 ++
    (traceBlocks step bs (traceCalls step cs s).2).1.flatMap (·.calls)

/-- Calls were made of those reported, and the ones that are left were left
as they are. -/
def LeftAlone (made reported left : List CallSite) : Prop :=
  ∃ done met, made = done ++ left ∧ reported = met ++ left ∧
    done.length = met.length

theorem LeftAlone.cons {made reported left : List CallSite}
    (h : LeftAlone made reported left) (c d : CallSite) :
    LeftAlone (c :: made) (d :: reported) left := by
  obtain ⟨done, met, rfl, rfl, hlength⟩ := h
  exact ⟨c :: done, d :: met, rfl, rfl, congrArg (· + 1) hlength⟩

variable {step} {s s' : State σ}

theorem traceCalls_cancelled (hc : s.session.cancelled = true)
    (cs : List CallSite) : traceCalls step cs s = ((cs, []), s) := by
  induction cs with
  | nil => rfl
  | cons c rest ih => rw [Tracer.traceCalls_pass (.inr hc), ih]

/-- A cancelled run leaves all blocks as they are. -/
theorem traceBlocks_cancelled (hc : s.session.cancelled = true)
    (bs : List Block) : traceBlocks step bs s = (bs, s) := by
  induction bs with
  | nil => rfl
  | cons b rest ih =>
    rw [traceBlocks, stateM_bind_run, traceCalls_cancelled hc]
    dsimp only
    rw [stateM_bind_run, ih]
    rfl

/-- What is left where a run is cancelled is left alone. -/
theorem Reaches.leftAlone {cs cs' : List CallSite} {bs bs' : List Block}
    (h : Reaches step cs bs s cs' bs' s')
    (hc : s'.session.cancelled = true) :
    LeftAlone (callsMade step cs bs s) (cs ++ bs.flatMap (·.calls))
      (cs' ++ bs'.flatMap (·.calls)) := by
  induction h with
  | @here cs bs s =>
    refine ⟨[], [], ?_, rfl, rfl⟩
    rw [callsMade, traceCalls_cancelled hc, traceBlocks_cancelled hc]
    rfl
  | @block b bs bs' cs' s s' _ ih =>
    have hmade : callsMade step [] (b :: bs) s =
        callsMade step b.calls bs s := by
      rw [callsMade, callsMade, ← Tour.calls_enrichBlock b
        (traceCalls step b.calls s).1.1 (traceCalls step b.calls s).1.2]
      rfl
    rw [hmade]
    exact ih hc
  | @passed c cs cs' bs bs' s s' hpass _ ih =>
    have hmade : callsMade step (c :: cs) bs s =
        c :: callsMade step cs bs s := by
      rw [callsMade, Tracer.traceCalls_pass hpass]
      rfl
    rw [hmade]
    exact (ih hc).cons c c
  | @stepped c cs cs' bs bs' s s' hinto _ ih =>
    have hmade : callsMade step (c :: cs) bs s =
        enrichCall c (step c s).1 ::
          callsMade step cs bs (step c s).2 := by
      rw [callsMade, Tracer.traceCalls_step hinto rfl]
      rfl
    rw [hmade]
    exact (ih hc).cons _ c

end

-- ============================================================== a run

namespace Tracer

section

variable {t : Tracer σ} {levels : Nat} {f g : Frame} {s s' s₁ : State σ}
  {b : Analysis}

theorem calls_expand (t : Tracer σ) (levels : Nat) (f : Frame)
    (b : Analysis) (s : State σ) : (t.expand levels f b s).1.calls =
      callsMade (t.answer levels f) [] b.blocks s := rfl

/-- A method that was described is left with its calls traced. -/
theorem trace_expands (h : Enterable s.session f.key)
    (hb : t.base f.key (t.opened f s) = (.ok b, s₁))
    (hcomplete : b.status = .complete) :
    (t.trace (levels + 1) f s).2 =
      t.closed f (t.expand levels f b s₁).1 true (t.leaving levels f s) := by
  rw [trace_enterable t h, enter_run, leaving, hb]
  simp only [if_pos hcomplete]
  rfl

/-- A method that is visited and described is registered in the end with
its calls traced from where it was described. -/
theorem Visits.expanded {c : CallSite} {depth : Int} {F : Session}
    (h : Visits t levels (frameOf c depth) s g s')
    (hs : AtRest levels depth s)
    (hF : (t.trace levels (frameOf c depth) s).2.session.Ends F)
    (hb : t.base g.key (t.opened g s') = (.ok b, s₁))
    (hcomplete : b.status = .complete) :
    ∃ left : Nat, (left : Int) + g.depth = levels + depth ∧
      F.registry.get? g.key = some (t.expand left g b s₁).1 := by
  obtain ⟨left, d, e, rfl, hlevels, hs', hnew, hF⟩ :=
    h.ends c depth rfl hs hF
  obtain ⟨hrest, hstack⟩ := leaving_rests (t := t) hs' hnew
  have hkey : (t.expand left (frameOf d e) b s₁).1.key = d.key :=
    (base_rests hs' hnew hb).2.2.2 b rfl
  rw [trace_expands hnew hb hcomplete] at hF
  refine ⟨left, ?_, hF.get? (hrest.get?_closed hstack hkey true)⟩
  rw [show (frameOf d e).depth = e + 1 from rfl]
  omega

/-- In a run, whatever is left of the calls of a method where the run is
cancelled stays in its analysis as it was reported. -/
theorem run_leavesAlone {s : State σ} (hfresh : s.session.Fresh)
    (hstore : s.world.store.Obeys Cache.bareRule)
    (hvisit : Visits t (s.session.limits.maxDepth + 1)
      ⟨s.session.root, 0, false⟩ s g s')
    (hb : t.base g.key (t.opened g s') = (.ok b, s₁))
    (hcomplete : b.status = .complete) :
    ∃ a, (t.run s).2.session.registry.get? g.key = some a ∧
      ∀ cs bs p, Reaches
          (t.answer (levelsAt s.session.limits (g.depth + 1)) g)
          [] b.blocks s₁ cs bs p →
        p.session.cancelled = true →
        LeftAlone a.calls b.calls (cs ++ bs.flatMap (·.calls)) := by
  obtain ⟨hs, hends⟩ := t.run_rests hfresh hstore
  have hroot : Visits t (s.session.limits.maxDepth + 1)
      (frameOf (rootCall s.session.root) (-1)) s g s' := hvisit
  obtain ⟨left, hlevels, hregistered⟩ :=
    hroot.expanded hs hends hb hcomplete
  have hleft : levelsAt s.session.limits (g.depth + 1) = left := by
    rw [levelsAt]
    push_cast at hlevels
    omega
  rw [hleft]
  refine ⟨_, hregistered, fun cs bs p hreaches hc => ?_⟩
  rw [calls_expand]
  exact hreaches.leftAlone hc

end

end Tracer

end CallTrace.Run
