/-
What asking outside does to a run.

To resolve a method and to follow an answer a run looks up sources, asks
the oracle, tells its listener, counts, and lets time go by. It does
nothing else meanwhile. So a relation between states that each of these
brings about holds from the start to the end.
-/
import CallTrace.Proofs.Source.Resolve
import CallTrace.Run.Listen

namespace CallTrace.Run

open Number (Double)

variable {σ : Type}

/-- A relation that looking up and telling bring about, and waiting. -/
structure Heeds (t : Tracer σ) (R : State σ → State σ → Prop) : Prop where
  refl : ∀ s, R s s
  trans : ∀ s s' s'', R s s' → R s' s'' → R s s''
  looked : ∀ (name : String) (s : State σ),
    R s (s.heard (t.sourceOf name s.world.store.files s.world.outside))
  told : ∀ (e : Event) (s : State σ),
    R s (s.heard (t.inform e s.world.outside))
  slept : ∀ (now : Double) (s : State σ), R s (s.setNow now)

namespace Heeds

variable {t : Tracer σ} {R : State σ → State σ → Prop} (h : Heeds t R)

include h

theorem resolve (depth : Nat) (typeName method : String) :
    (Source.resolve t.lookup depth typeName method).Changes R := by
  have hlookup : ∀ name, (t.lookup name).Changes R := h.looked
  exact Source.changes_resolve h.refl h.trans hlookup depth typeName method

/-- Listening to the oracle brings the relation about, beat by beat. -/
theorem follow (key : MethodKey) (limit deadline : Double)
    (said : List String) (beats : List Beat) :
    (t.follow key limit deadline said beats).Changes R := by
  induction beats generalizing said with
  | nil => exact Action.changes_pure h.refl _
  | cons beat rest ih =>
    cases beat with
    | wait seconds =>
      refine Action.changes_bind h.trans h.refl fun s => ?_
      dsimp only
      split
      · exact Action.changes_bind h.trans (h.slept _)
          fun _ => Action.changes_throw h.refl _
      · exact Action.changes_bind h.trans (h.slept _) fun _ => ih said
    | say text =>
      refine Action.changes_bind h.trans h.refl fun s => ?_
      exact Action.changes_bind h.trans (h.told _) fun _ => ih _
    | fail failure =>
      cases failure <;> exact Action.changes_throw h.refl _

end Heeds

/-- A relation that asking brings about besides. -/
structure Listens (t : Tracer σ) (R : State σ → State σ → Prop) : Prop
    extends Heeds t R where
  answered : ∀ (prompt : Prompt) (s : State σ),
    R s (s.heard (t.answerTo s.session.identity prompt s.world.outside))
  counted : ∀ s : State σ,
    R s { s with session.oracleCalls := s.session.oracleCalls + 1 }

/-- Asking brings the relation about, if its pieces do. -/
theorem Listens.ask {t : Tracer σ} {R : State σ → State σ → Prop}
    (h : Listens t R) (prompt : Prompt) (key : MethodKey) :
    (t.ask prompt key).Changes R := by
  refine Action.changes_bind h.trans h.counted fun _ s => ?_
  have hfollow := h.follow key s.session.limits.timeout
    (s.now + s.session.limits.timeout) []
    (t.answerTo s.session.identity prompt s.world.outside).value
    (s.heard (t.answerTo s.session.identity prompt s.world.outside))
  exact h.trans _ _ _ (h.answered prompt s) hfollow

-- ===================================================== fixed sources

/-- The sources are what `sourceOf` says, whenever they are looked up. -/
def Tracer.Reads (t : Tracer σ)
    (sourceOf : String → Except Failure (Option Source.SourceFile)) : Prop :=
  ∀ name files o, (t.sourceOf name files o).value = sourceOf name

/-- A method is resolved to the same source everywhere. -/
theorem Tracer.Reads.resolve {t : Tracer σ}
    {sourceOf : String → Except Failure (Option Source.SourceFile)}
    (h : t.Reads sourceOf) (depth : Nat) (typeName method : String)
    (s : State σ) :
    (Source.resolve t.lookup depth typeName method s).1 =
      Source.resolved sourceOf depth typeName method := by
  have hlookup : ∀ name, Mirrors (fun (_ : State σ) (_ : Unit) => True)
      (t.lookup name) fun u => (sourceOf name, u) :=
    fun name s _ _ => ⟨h name _ _, trivial⟩
  exact (Source.mirrors_resolve hlookup _ _ _ s () trivial).1

end CallTrace.Run
