/-
Failures stay where they happen.

Whatever the sources, the oracle, the cache or the listener do, entering a
method comes to one of three ends, and which one depends on how describing
the method by itself ended, not on the methods it calls: the description,
with its status; a failed leaf with the message of the failure; or, if it
is found nowhere, the news of that, which a caller turns into a leaf and
which only the root has nobody to take it from.

`Visits` follows a run into the methods that it enters. The analyses that
are registered in the end are those of the methods visited, each with what
its own description earned it. In one direction a visit is followed to the
end of the run, through what is left of the calls and blocks of every
caller; in the other a registered analysis is followed back to the call
that brought it.
-/
import CallTrace.Proofs.Run.Closure

namespace CallTrace.Run

open Cache (bareRule)
open Trace (Registry)

variable {σ : Type}

-- ============================================================== earnings

/-- The analysis has what the outcome of describing its method earned it:
the status of the description, or the message of the failure. -/
def Earned : Except Failure Analysis → Analysis → Prop
  | .ok b, a => a.status = b.status
  | .error failure, a =>
    a.status = .failed ∧ a.errorMessage = some failure.message

/-- A description passes its status on. -/
theorem Earned.status_eq {described : Except Failure Analysis} {a : Analysis}
    (h : Earned described a) {status : Status}
    (hd : described.toOption.map (·.status) = some status) :
    a.status = status := by
  cases described with
  | error f => cases hd
  | ok b => exact h.trans (Option.some.inj hd)

/-- What becomes of entering a method, from the outcome of describing it. -/
def Conveys : Except Failure Analysis → Outcome → Prop
  | .error (.unresolved u), r => r = .error u
  | described, r => ∃ a, r = .ok a ∧ Earned described a

/-- Entering a method ends in an error exactly if the method was found
nowhere. -/
theorem Conveys.error_iff {described : Except Failure Analysis} {r : Outcome}
    (h : Conveys described r) (u : Unresolved) :
    r = .error u ↔ described = .error (.unresolved u) := by
  rcases described with e | b
  · cases e with
    | unresolved v => rw [show r = .error v from h]; simp
    | _ => obtain ⟨a, rfl, -⟩ := h; simp
  · obtain ⟨a, rfl, -⟩ := h
    simp

namespace Tracer

variable (t : Tracer σ)

/-- Answers a call that is made at a frame, with `levels` levels left. -/
def answer (levels : Nat) (f : Frame) (c : CallSite) :
    StateM (State σ) Analysis := do
  orLeaf c.key (← t.trace levels (frameOf c f.depth))

/-- Traces the calls of a description. -/
def expand (levels : Nat) (f : Frame) (b : Analysis) :
    StateM (State σ) Analysis := do
  pure (enrich b (← traceBlocks (t.answer levels f) b.blocks))

/-- Tracing a method that may be entered is to enter it. -/
theorem trace_enterable {levels : Nat} {f : Frame} {s : State σ}
    (h : Enterable s.session f.key) :
    t.trace (levels + 1) f s = t.enter f (t.expand levels f) s := by
  rw [trace, stateM_get_bind, known?_eq_none.2 h]
  rfl

/-- The methods that are called have no part in what becomes of their
caller. -/
theorem trace_conveys (levels : Nat) (f : Frame) (s : State σ)
    (h : Enterable s.session f.key) :
    Conveys (t.base f.key (t.opened f s)).1
      (t.trace (levels + 1) f s).1 := by
  rw [trace_enterable t h, enter_run]
  rcases t.base f.key (t.opened f s) with ⟨e | b, s₁⟩
  · cases e with
    | unresolved u => exact rfl
    | _ => exact ⟨_, rfl, rfl, rfl⟩
  · by_cases hb : b.status = .complete
    · simp only [if_pos hb]
      exact ⟨_, rfl, rfl⟩
    · simp only [if_neg hb]
      exact ⟨b, rfl, rfl⟩

/-- A method that must not be entered has its leaf. -/
theorem trace_barred (levels : Nat) (f : Frame) {s : State σ}
    (h : ¬Enterable s.session f.key) :
    ∃ a, t.trace (levels + 1) f s = (.ok a, s) := by
  rw [trace, stateM_get_bind]
  rcases hk : known? s.session f.key fun status reason =>
    .placeholder f.key status reason s.timeOfDay with _ | a
  · exact absurd (known?_eq_none.1 hk) h
  · exact ⟨a, rfl⟩

/-- A run fails just when describing its root by itself did, for being
found nowhere. -/
theorem run_error_iff (s : State σ) (u : Unresolved) :
    (t.run s).1 = .error u ↔
      Enterable s.session s.session.root ∧
      (t.base s.session.root (t.opened ⟨s.session.root, 0, false⟩ s)).1 =
        .error (.unresolved u) := by
  rw [run_eq]
  by_cases h : Enterable s.session s.session.root
  · have hconveys := t.trace_conveys s.session.limits.maxDepth
      (frameOf (rootCall s.session.root) (-1)) s h
    exact (hconveys.error_iff u).trans (and_iff_right h).symm
  · obtain ⟨a, ha⟩ := t.trace_barred s.session.limits.maxDepth
      (frameOf (rootCall s.session.root) (-1)) h
    rw [ha]
    simp [h]

-- ================================================================ visits

section

variable (step : CallSite → StateM (State σ) Analysis)

/-- The state after the calls `cs` and then the blocks `bs` are traced. -/
def endOf (cs : List CallSite) (bs : List Block) (s : State σ) : State σ :=
  (traceBlocks step bs (traceCalls step cs s).2).2

/-- Tracing the calls `cs` and then the blocks `bs` comes to step into a
call at a state. -/
inductive Meets : List CallSite → List Block → State σ → CallSite →
    State σ → Prop where
  | block {b : Block} {bs : List Block} {s s' : State σ} {c : CallSite}
      (rest : Meets b.calls bs s c s') : Meets [] (b :: bs) s c s'
  | passed {d c : CallSite} {cs : List CallSite} {bs : List Block}
      {s s' : State σ}
      (h : d.decision ≠ .stepInto ∨ s.session.cancelled = true)
      (rest : Meets cs bs s c s') : Meets (d :: cs) bs s c s'
  | here {c : CallSite} {cs : List CallSite} {bs : List Block}
      {s : State σ}
      (h : ¬(c.decision ≠ .stepInto ∨ s.session.cancelled = true)) :
    Meets (c :: cs) bs s c s
  | later {d c : CallSite} {cs : List CallSite} {bs : List Block}
      {s s' : State σ}
      (h : ¬(d.decision ≠ .stepInto ∨ s.session.cancelled = true))
      (rest : Meets cs bs (step d s).2 c s') : Meets (d :: cs) bs s c s'

variable {step} {s s' : State σ} {b : Block} {bs : List Block}
  {c : CallSite} {cs : List CallSite}

theorem endOf_block : endOf step [] (b :: bs) s = endOf step b.calls bs s :=
  rfl

theorem endOf_passed
    (h : c.decision ≠ .stepInto ∨ s.session.cancelled = true) :
    endOf step (c :: cs) bs s = endOf step cs bs s := by
  rw [endOf, traceCalls_pass h]
  rfl

theorem endOf_step
    (h : ¬(c.decision ≠ .stepInto ∨ s.session.cancelled = true)) :
    endOf step (c :: cs) bs s = endOf step cs bs (step c s).2 := by
  rw [endOf, traceCalls_step h rfl]
  rfl

/-- A call that is met is to be stepped into, and something is left to do
after it. -/
theorem Meets.rest (h : Meets step cs bs s c s') :
    (c.decision = .stepInto ∧ s'.session.cancelled = false) ∧
    ∃ cs' bs', endOf step cs bs s = endOf step cs' bs' (step c s').2 := by
  induction h with
  | block _ ih => exact ih
  | passed h _ ih => rw [endOf_passed h]; exact ih
  | here h =>
    refine ⟨?_, _, _, endOf_step h⟩
    simpa using h
  | later h _ ih => rw [endOf_step h]; exact ih

/-- What holds between calls holds where a call is met. -/
theorem Meets.holds {P : State σ → Prop}
    (hstep : ∀ c s, c.decision = .stepInto → s.session.cancelled = false →
      P s → P (step c s).2)
    (h : Meets step cs bs s c s') (hs : P s) : P s' := by
  induction h with
  | block _ ih => exact ih hs
  | passed _ _ ih => exact ih hs
  | here => exact hs
  | later h _ ih =>
    simp only [ne_eq, not_or, Decidable.not_not, Bool.not_eq_true] at h
    exact ih (hstep _ _ h.1 h.2 hs)

/-- The calls of a block, when the blocks after it are dealt with. -/
private theorem Meets.exists_of_calls {P : State σ → Prop}
    (hnil : ∀ s, ¬P s → P (endOf step [] bs s) →
      ∃ c s', Meets step [] bs s c s' ∧ ¬P s' ∧ P (step c s').2)
    (cs : List CallSite) :
    ∀ s, ¬P s → P (endOf step cs bs s) →
      ∃ c s', Meets step cs bs s c s' ∧ ¬P s' ∧ P (step c s').2 := by
  induction cs with
  | nil => exact hnil
  | cons c rest ih =>
    intro s hs hend
    by_cases hpass : c.decision ≠ .stepInto ∨ s.session.cancelled = true
    · rw [endOf_passed hpass] at hend
      obtain ⟨d, s', hmeets, hd⟩ := ih s hs hend
      exact ⟨d, s', .passed hpass hmeets, hd⟩
    · rw [endOf_step hpass] at hend
      by_cases hc : P (step c s).2
      · exact ⟨c, s, .here hpass, hs, hc⟩
      · obtain ⟨d, s', hmeets, hd⟩ := ih _ hc hend
        exact ⟨d, s', .later hpass hmeets, hd⟩

/-- What has come about in the end came about in one of the calls. -/
theorem Meets.exists_of_endOf {P : State σ → Prop} (bs : List Block) :
    ∀ cs s, ¬P s → P (endOf step cs bs s) →
      ∃ c s', Meets step cs bs s c s' ∧ ¬P s' ∧ P (step c s').2 := by
  induction bs with
  | nil => exact Meets.exists_of_calls fun s hs hend => absurd hend hs
  | cons b rest ih =>
    refine Meets.exists_of_calls fun s hs hend => ?_
    rw [endOf_block] at hend
    obtain ⟨c, s', hmeets, hc⟩ := ih b.calls s hs hend
    exact ⟨c, s', .block hmeets, hc⟩

/-- What each call keeps holds in the end. -/
theorem endOf_holds {P : State σ → Prop}
    (hstep : ∀ c s, c.decision = .stepInto → s.session.cancelled = false →
      P s → P (step c s).2) (hs : P s) : P (endOf step cs bs s) := by
  by_contra hend
  obtain ⟨c, s', hmeets, hP, hnot⟩ := Meets.exists_of_endOf
    (P := fun s => ¬P s) bs cs s (not_not_intro hs) hend
  obtain ⟨⟨hinto, hlive⟩, -⟩ := hmeets.rest
  exact hnot (hstep c s' hinto hlive (not_not.1 hP))

end

/-- Tracing the method of a frame comes to enter a method at a state. -/
inductive Visits (t : Tracer σ) : Nat → Frame → State σ → Frame → State σ →
    Prop where
  | here {levels : Nat} {f : Frame} {s : State σ}
      (h : Enterable s.session f.key) : Visits t (levels + 1) f s f s
  | inside {levels : Nat} {f g : Frame} {s s₁ s₂ s' : State σ}
      {b : Analysis} {c : CallSite} (h : Enterable s.session f.key)
      (hb : t.base f.key (t.opened f s) = (.ok b, s₁))
      (hcomplete : b.status = .complete)
      (hmeets : Meets (t.answer levels f) [] b.blocks s₁ c s₂)
      (rest : Visits t levels (frameOf c f.depth) s₂ g s') :
    Visits t (levels + 1) f s g s'

/-- The state after an answer is the one after the trace. -/
theorem answer_state (levels : Nat) (f : Frame) (c : CallSite)
    (s : State σ) :
    (t.answer levels f c s).2 =
      (t.trace levels (frameOf c f.depth) s).2 := by
  rw [answer, stateM_bind_run]
  cases (t.trace levels (frameOf c f.depth) s).1 <;> rfl

-- ================================================== visits and the books

/-- Between two calls of a method, with a store that may be relied on. -/
structure AtRest (levels : Nat) (depth : Int) (s : State σ) : Prop where
  resting : Resting levels depth s.session
  store : s.world.store.Obeys bareRule

/-- From one state to another nothing under analysis was left, and what
ends the one ends the other. -/
structure Onward (s s' : State σ) : Prop where
  stack : s'.session.stack = s.session.stack
  ends : ∀ F : Session, s'.session.Ends F → s.session.Ends F

section

variable {t} {levels : Nat} {depth : Int} {c : CallSite} {s s' : State σ}

theorem Onward.trans {s'' : State σ} (h : Onward s s')
    (h' : Onward s' s'') : Onward s s'' :=
  ⟨h'.stack.trans h.stack, fun F hF => h.ends F (h'.ends F hF)⟩

/-- Tracing a call comes to rest again. -/
theorem trace_rests (hc : c.decision = .stepInto) (hlive : Live depth s)
    (hs : AtRest levels depth s) :
    AtRest levels depth (t.trace levels (frameOf c depth) s).2 ∧
      Onward s (t.trace levels (frameOf c depth) s).2 := by
  obtain ⟨a, T, hT, -, -⟩ := t.trace_course levels hc hlive
  obtain ⟨hT, hobeys⟩ := hT.toured hs.store
  obtain ⟨hs', hg⟩ := hT.grown hs.resting
  exact ⟨⟨hs', hobeys⟩, hg.stack, fun F => hg.ends⟩

theorem answer_rests {f : Frame} (c : CallSite) (s : State σ)
    (hc : c.decision = .stepInto) (hlive : s.session.cancelled = false)
    (hs : AtRest levels f.depth s) :
    AtRest levels f.depth (t.answer levels f c s).2 := by
  rw [answer_state]
  exact (trace_rests hc (.inr hlive) hs).1

/-- Answering the calls of a method at a frame comes to rest again. -/
theorem answers_rest {f : Frame} (cs : List CallSite) (bs : List Block)
    (hs : AtRest levels f.depth s) :
    AtRest levels f.depth (endOf (t.answer levels f) cs bs s) ∧
      Onward s (endOf (t.answer levels f) cs bs s) := by
  refine endOf_holds (P := fun s' => AtRest levels f.depth s' ∧ Onward s s')
    (fun c s' hc hlive hs' => ?_) ⟨hs, rfl, fun F hF => hF⟩
  rw [answer_state]
  obtain ⟨hrest, hon⟩ := trace_rests (t := t) hc (.inr hlive) hs'.1
  exact ⟨hrest, hs'.2.trans hon⟩

variable (t) in
/-- The state in which a method that is entered is left again. -/
def leaving (levels : Nat) (f : Frame) (s : State σ) : State σ :=
  match t.base f.key (t.opened f s) with
  | (.ok b, s₁) =>
    if b.status = .complete then endOf (t.answer levels f) [] b.blocks s₁
    else s₁
  | (.error _, s₁) => s₁

/-- Describing a method that is entered registers nothing. -/
theorem base_rests (hs : AtRest (levels + 1) depth s)
    (hnew : Enterable s.session c.key) {r : Except Failure Analysis}
    {s₁ : State σ}
    (hr : t.base c.key (t.opened (frameOf c depth) s) = (r, s₁)) :
    AtRest levels (depth + 1) s₁ ∧
      s₁.session.stack = frameOf c depth :: s.session.stack ∧
      s₁.session.registry = s.session.registry ∧
      ∀ b, r = .ok b → b.key = c.key := by
  have hopened : (t.opened (frameOf c depth) s).world.store.Obeys
      bareRule := hs.store
  obtain ⟨n, hm, hsettled, -⟩ := t.base_moves hnew.isPlain hopened
  rw [hr] at hm hsettled
  refine ⟨⟨hs.resting.inside hnew hm, hm.obeys hopened⟩, hm.stack,
    hm.registry, fun b hb => ?_⟩
  rcases hsettled b hb with h | ⟨-, now, rfl⟩
  · exact h.key
  · rfl

/-- A method is left with its caller next on the stack. -/
theorem leaving_rests (hs : AtRest (levels + 1) depth s)
    (hnew : Enterable s.session c.key) :
    Resting levels (depth + 1)
        (t.leaving levels (frameOf c depth) s).session ∧
      (t.leaving levels (frameOf c depth) s).session.stack =
        frameOf c depth :: s.session.stack := by
  rw [leaving, show (frameOf c depth).key = c.key from rfl]
  rcases hr : t.base c.key (t.opened (frameOf c depth) s) with
    ⟨e | b, s₁⟩
  · obtain ⟨hrest, hstack, -⟩ := base_rests hs hnew hr
    exact ⟨hrest.resting, hstack⟩
  · obtain ⟨hrest, hstack, -⟩ := base_rests hs hnew hr
    dsimp only
    split
    · obtain ⟨hrest', hon⟩ := answers_rest (t := t) (f := frameOf c depth)
        [] b.blocks hrest
      exact ⟨hrest'.resting, hon.stack.trans hstack⟩
    · exact ⟨hrest.resting, hstack⟩

/-- A method that is entered is left with what it earned. -/
theorem trace_closes (hs : AtRest (levels + 1) depth s)
    (hnew : Enterable s.session c.key) :
    ∃ a told, (t.trace (levels + 1) (frameOf c depth) s).2 =
        t.closed (frameOf c depth) a told
          (t.leaving levels (frameOf c depth) s) ∧
      a.key = c.key ∧
      Earned (t.base c.key (t.opened (frameOf c depth) s)).1 a := by
  rw [trace_enterable t hnew, enter_run, leaving,
    show (frameOf c depth).key = c.key from rfl]
  rcases hr : t.base c.key (t.opened (frameOf c depth) s) with
    ⟨e | b, s₁⟩
  · cases e with
    | unresolved u => exact ⟨_, _, rfl, rfl, rfl, rfl⟩
    | _ => exact ⟨_, _, rfl, rfl, rfl, rfl⟩
  · have hkey : b.key = c.key :=
      (base_rests hs hnew hr).2.2.2 b rfl
    by_cases hb : b.status = .complete
    · simp only [if_pos hb]
      exact ⟨_, _, rfl, hkey, rfl⟩
    · simp only [if_neg hb]
      exact ⟨b, true, rfl, hkey, rfl⟩

/-- Where a method is visited, it is traced with the levels that are left
there, and what the whole ends in, the trace of that method ends in. -/
theorem Visits.ends {f g : Frame} {F : Session}
    (h : Visits t levels f s g s') :
    ∀ c depth, f = frameOf c depth → AtRest levels depth s →
      (t.trace levels f s).2.session.Ends F →
      ∃ (left : Nat) (d : CallSite) (e : Int), g = frameOf d e ∧
        (left : Int) + 1 + e = levels + depth ∧
        AtRest (left + 1) e s' ∧ Enterable s'.session d.key ∧
        (t.trace (left + 1) g s').2.session.Ends F := by
  induction h with
  | @here levels f s hnew =>
    rintro c depth rfl hs hF
    exact ⟨levels, c, depth, rfl, by push_cast; rfl, hs, hnew, hF⟩
  | @inside levels f g s s₁ s₂ s' b d hnew hb hcomplete hmeets _ ih =>
    rintro c depth rfl hs hF
    obtain ⟨a, told, hend, hkey, -⟩ := trace_closes (t := t) hs hnew
    obtain ⟨hrest, hstack⟩ := leaving_rests (t := t) hs hnew
    rw [hend] at hF
    have hleft := hrest.ends hstack hkey hF
    rw [leaving, hb] at hleft
    simp only [if_pos hcomplete] at hleft
    -- what is left to do after the call is met leads to the same end
    have hs₂ := hmeets.holds answer_rests (base_rests hs hnew hb).1
    obtain ⟨⟨hd, hlive⟩, cs, bs, hrestOf⟩ := hmeets.rest
    rw [hrestOf] at hleft
    have hafter := (answers_rest (t := t) (f := frameOf c depth) cs bs
      (answer_rests d s₂ hd hlive hs₂)).2.ends F hleft
    rw [answer_state] at hafter
    obtain ⟨left, d', e, hg, hlevels, hvisit⟩ :=
      ih d (depth + 1) rfl hs₂ hafter
    exact ⟨left, d', e, hg, by push_cast; omega, hvisit⟩

/-- A method that is visited is registered in the end, with what it
earned. -/
theorem Visits.registered {f g : Frame} {F : Session}
    (h : Visits t levels f s g s') (c : CallSite) (depth : Int)
    (hf : f = frameOf c depth) (hs : AtRest levels depth s)
    (hF : (t.trace levels f s).2.session.Ends F) :
    ∃ a, F.registry.get? g.key = some a ∧
      Earned (t.base g.key (t.opened g s')).1 a := by
  obtain ⟨left, d, e, rfl, -, hs', hnew, hF⟩ := h.ends c depth hf hs hF
  obtain ⟨a, told, hend, hkey, hearned⟩ := trace_closes (t := t) hs' hnew
  obtain ⟨hrest, hstack⟩ := leaving_rests (t := t) hs' hnew
  rw [hend] at hF
  exact ⟨a, hF.get? (hrest.get?_closed hstack hkey told), hearned⟩

/-- What is registered after a method was traced was so before, or belongs
to a method that was visited, and was earned. -/
theorem visits_of_registered (levels : Nat) :
    ∀ (c : CallSite) (depth : Int) (s : State σ), AtRest levels depth s →
      ∀ a ∈ (t.trace levels (frameOf c depth) s).2.session.registry,
        a ∈ s.session.registry ∨
        ∃ g s', Visits t levels (frameOf c depth) s g s' ∧ a.key = g.key ∧
          Earned (t.base g.key (t.opened g s')).1 a := by
  induction levels with
  | zero => exact fun c depth s hs a ha => .inl ha
  | succ levels ih =>
    intro c depth s hs a ha
    by_cases hnew : Enterable s.session c.key
    · obtain ⟨b, told, hend, hkey, hearned⟩ := trace_closes (t := t) hs hnew
      obtain ⟨hrest, hstack⟩ := leaving_rests (t := t) hs hnew
      rw [hend, hrest.registry_closed hstack hkey told, List.mem_append,
        List.mem_singleton] at ha
      rcases ha with ha | rfl
      · rw [leaving, show (frameOf c depth).key = c.key from rfl] at ha
        rcases hr : t.base c.key (t.opened (frameOf c depth) s) with
          ⟨e | b, s₁⟩ <;> rw [hr] at ha <;> dsimp only at ha <;>
          obtain ⟨hrest₁, -, hregistry, -⟩ := base_rests hs hnew hr
        · exact .inl (hregistry ▸ ha)
        split at ha
        · rename_i hcomplete
          by_cases hbefore : a ∈ s₁.session.registry
          · exact .inl (hregistry ▸ hbefore)
          obtain ⟨d, s₂, hmeets, hnot, hnow⟩ := Meets.exists_of_endOf
            (P := fun s => a ∈ s.session.registry) _ _ _ hbefore ha
          have hs₂ := hmeets.holds answer_rests hrest₁
          rw [answer_state] at hnow
          rcases ih d _ s₂ hs₂ a hnow with h | ⟨g, s', hvisit, hg⟩
          · exact absurd h hnot
          · exact .inr ⟨g, s', .inside hnew hr hcomplete hmeets hvisit, hg⟩
        · exact .inl (hregistry ▸ ha)
      · exact .inr ⟨_, s, .here hnew, hkey, hearned⟩
    · obtain ⟨b, hb⟩ := t.trace_barred levels (frameOf c depth) hnew
      rw [hb] at ha
      exact .inl ha

end

/-- A run that starts afresh comes to rest when its root was traced, and
ends in what is registered then. -/
theorem run_rests {s : State σ} (hfresh : s.session.Fresh)
    (hstore : s.world.store.Obeys bareRule) :
    AtRest (s.session.limits.maxDepth + 1) (-1) s ∧
    (t.trace (s.session.limits.maxDepth + 1)
      (frameOf (rootCall s.session.root) (-1)) s).2.session.Ends
        (t.run s).2.session := by
  have hs : AtRest (s.session.limits.maxDepth + 1) (-1) s :=
    ⟨⟨hfresh.tidy, by rw [hfresh.stack]; rfl, by omega⟩, hstore⟩
  obtain ⟨hs', hon⟩ := trace_rests (t := t)
    (c := rootCall s.session.root) rfl (.inl rfl) hs
  refine ⟨hs, ?_⟩
  rw [run_eq]
  exact hs'.resting.toTidy.concluded (hon.stack.trans hfresh.stack) _

/-- What is registered at the end of a run is, for each method visited,
what its own description earned it. -/
theorem run_visits {s : State σ} (hfresh : s.session.Fresh)
    (hstore : s.world.store.Obeys bareRule) :
    (∀ a ∈ (t.run s).2.session.registry, ∃ g s',
      Visits t (s.session.limits.maxDepth + 1) ⟨s.session.root, 0, false⟩ s
        g s' ∧
      a.key = g.key ∧ Earned (t.base g.key (t.opened g s')).1 a) ∧
    ∀ g s', Visits t (s.session.limits.maxDepth + 1)
        ⟨s.session.root, 0, false⟩ s g s' →
      ∃ a, (t.run s).2.session.registry.get? g.key = some a ∧
        Earned (t.base g.key (t.opened g s')).1 a := by
  obtain ⟨hs, hends⟩ := t.run_rests hfresh hstore
  refine ⟨fun a ha => ?_, fun g s' hvisit =>
    hvisit.registered (rootCall s.session.root) (-1) rfl hs hends⟩
  rw [run_eq, concluded_registry] at ha
  rcases visits_of_registered _ _ _ s hs a ha with h | h
  · rw [hfresh.registry] at h
    exact absurd h List.not_mem_nil
  · exact h

end Tracer

end CallTrace.Run
