/-
What describing one method brings about, a whole run brings about.

A run enters a method and describes it, traces the calls, and leaves it. So
a relation between states that entering and describing brings about, and
leaving does, holds from where a method is traced to where that ends.

Between the descriptions a run changes nothing but its own books, and tells
the listener. So a relation that holds whenever the world, the oracle and
the limits stay the same, that telling the listener brings about, and that
describing a method does, holds from the start of a run to its end.
-/
import CallTrace.Proofs.Run.InStep
import CallTrace.Proofs.Run.Tour

namespace CallTrace.Run

variable {σ : Type}

/-- Whatever the cache holds, describing a method changes nothing in the
books. -/
theorem Tracer.base_books (t : Tracer σ) (key : MethodKey) (s : State σ) :
    (t.base key s).2.session.books = s.session.books := by
  have hlistens : Listens t fun s s' : State σ =>
      s'.session.books = s.session.books :=
    { refl _ := rfl
      trans _ _ _ h h' := h'.trans h
      looked _ _ := rfl
      answered _ _ := rfl
      told _ _ := rfl
      counted _ := rfl
      slept _ _ := rfl }
  have hdescribing : Describing t fun s s' : State σ =>
      s'.session.books = s.session.books :=
    { hlistens with
      asked := hlistens.ask
      stored _ _ := rfl
      hit _ := rfl
      missed _ := rfl }
  exact hdescribing.base key s

/-- A relation that entering and describing a method brings about, and
leaving it. -/
structure Along (t : Tracer σ) (R : State σ → State σ → Prop) : Prop where
  refl : ∀ s, R s s
  trans : ∀ s s' s'', R s s' → R s' s'' → R s s''
  described : ∀ (f : Frame) (s : State σ), Enterable s.session f.key →
    R s (t.base f.key (t.opened f s)).2
  closed : ∀ (f : Frame) (a : Analysis) (told : Bool) (s : State σ),
    R s (t.closed f a told s)

namespace Along

variable {t : Tracer σ} {R : State σ → State σ → Prop} (h : Along t R)

include h

/-- Tracing calls brings the relation about, if tracing one call does. -/
theorem traceCalls {trace : CallSite → StateM (State σ) Analysis}
    (htrace : ∀ c s, R s (trace c s).2) (cs : List CallSite) :
    ∀ s, R s (Run.traceCalls trace cs s).2 := by
  induction cs with
  | nil => exact h.refl
  | cons c rest ih =>
    intro s
    by_cases hpass : c.decision ≠ .stepInto ∨ s.session.cancelled = true
    · rw [Tracer.traceCalls_pass hpass]
      exact ih s
    · rw [Tracer.traceCalls_step hpass rfl]
      exact h.trans _ _ _ (htrace c s) (ih _)

theorem traceBlocks {trace : CallSite → StateM (State σ) Analysis}
    (htrace : ∀ c s, R s (trace c s).2) (bs : List Block) :
    ∀ s, R s (Run.traceBlocks trace bs s).2 := by
  induction bs with
  | nil => exact h.refl
  | cons b rest ih =>
    exact fun s => h.trans _ _ _ (h.traceCalls htrace b.calls s) (ih _)

/-- So does entering a method, if expanding its description does. -/
theorem enter (f : Frame) {expand : Analysis → StateM (State σ) Analysis}
    (hexpand : ∀ a s, R s (expand a s).2) (s : State σ)
    (hf : Enterable s.session f.key) : R s (t.enter f expand s).2 := by
  have hbase := h.described f s hf
  rw [Tracer.enter_run]
  rcases hr : t.base f.key (t.opened f s) with ⟨e | a, s'⟩ <;>
    rw [hr] at hbase
  · cases e <;> exact h.trans _ _ _ hbase (h.closed f _ _ s')
  · dsimp only
    split
    · exact h.trans _ _ _ hbase
        (h.trans _ _ _ (hexpand a s') (h.closed f _ _ _))
    · exact h.trans _ _ _ hbase (h.closed f _ _ s')

/-- Tracing a method brings the relation about, at any depth. -/
theorem trace (levels : Nat) :
    ∀ (f : Frame) (s : State σ), R s (t.trace levels f s).2 := by
  induction levels with
  | zero => exact fun _ => h.refl
  | succ levels ih =>
    intro f s
    rw [Tracer.trace, stateM_get_bind]
    rcases hk : Tracer.known? s.session f.key fun st reason =>
      .placeholder f.key st reason s.timeOfDay with _ | a
    · refine h.enter f (fun a s => ?_) s (Tracer.known?_eq_none.1 hk)
      refine h.traceBlocks (fun c s => ?_) a.blocks s
      have hinner := ih ⟨c.key, f.depth + 1, c.condition.isSome⟩ s
      rw [stateM_bind_run]
      rcases hr : t.trace levels ⟨c.key, f.depth + 1, c.condition.isSome⟩ s
        with ⟨u | a, s'⟩ <;> rw [hr] at hinner <;> exact hinner
    · exact h.refl s

end Along

/-- A relation that the pieces of a run bring about. -/
structure Carried (t : Tracer σ) (R : State σ → State σ → Prop) : Prop where
  trans : ∀ s s' s'', R s s' → R s' s'' → R s s''
  books : ∀ s s' : State σ, s'.world = s.world →
    s'.session.identity = s.session.identity →
    s'.session.limits = s.session.limits → R s s'
  told : ∀ (e : Event) (s : State σ),
    R s (s.heard (t.inform e s.world.outside))
  described : ∀ key : MethodKey, key.IsPlain → (t.base key).Changes R

namespace Carried

variable {t : Tracer σ} {R : State σ → State σ → Prop} (h : Carried t R)

include h

theorem opened (f : Frame) (s : State σ) : R s (t.opened f s) :=
  h.trans _ _ _ (h.books s { s with session := s.session.enter f }
    rfl rfl rfl) (h.told _ _)

/-- Leaving a method brings the relation about. -/
theorem closed (f : Frame) (a : Analysis) (told : Bool) (s : State σ) :
    R s (t.closed f a told s) := by
  have hregistered := h.books s { s with session := s.session.register a }
    rfl rfl rfl
  cases told with
  | false => exact h.trans _ _ _ hregistered (h.books _ _ rfl rfl rfl)
  | true =>
    refine h.trans _ _ _ hregistered (h.trans _ _ _
      (h.told (.completed f.key f.depth a.status) _)
      (h.books _ _ rfl rfl rfl))

theorem along : Along t R where
  refl s := h.books s s rfl rfl rfl
  trans := h.trans
  described f s hf :=
    h.trans _ _ _ (h.opened f s) (h.described f.key hf.isPlain _)
  closed := h.closed

/-- A whole run brings the relation about. -/
theorem run : ∀ s, R s (t.run s).2 := by
  intro s
  have htrace := h.along.trace (Tracer.levelsAt s.session.limits 0)
    ⟨s.session.root, 0, false⟩ s
  rw [Tracer.run, stateM_get_bind, stateM_bind_run, Tracer.traceAt,
    stateM_get_bind]
  refine h.trans _ _ _ htrace ?_
  rcases t.trace (Tracer.levelsAt s.session.limits 0)
    ⟨s.session.root, 0, false⟩ s with ⟨root | u, s'⟩ <;>
    exact h.books _ _ rfl rfl rfl

end Carried

end CallTrace.Run
