/-
Two runs that go abreast.

A run decides by its session which methods to enter and when to stop, and
it reads the time for the leaves it makes. So where two runs keep the same
session and read the same time, and describe every method and tell their
listeners alike, they do the same from beginning to end. What else there is
in the states, a layer over the surroundings or a cache that is not used,
may differ.
-/
import CallTrace.Proofs.Action
import CallTrace.Run.Expand

namespace CallTrace.Run

variable {σ τ : Type}

/-- In related states two runs have the same session and the same time.
Changing the session, telling the listener and describing a method go alike
in both and lead to related states. A run never changes its limits. -/
structure Abreast (t : Tracer σ) (u : Tracer τ)
    (R : State σ → State τ → Prop) : Prop where
  session : ∀ {s s'}, R s s' → s'.session = s.session
  timeOfDay : ∀ {s s'}, R s s' → s'.timeOfDay = s.timeOfDay
  changed : ∀ {g : Session → Session}, (∀ b, (g b).limits = b.limits) →
    Mirrors R (Tracer.onSession g) (Tracer.onSession g)
  told : ∀ e, Mirrors R (t.tell e) (u.tell e)
  described : ∀ key, Mirrors R (t.base key) (u.base key)

namespace Abreast

open Tracer

variable {t : Tracer σ} {u : Tracer τ} {R : State σ → State τ → Prop}
  (h : Abreast t u R)

include h

theorem leaf (key : MethodKey) (status : Status) (reason : String) :
    Mirrors R (leaf key status reason) (leaf key status reason) := by
  refine mirrors_get fun s s' hs => ?_
  rw [h.timeOfDay hs]
  exact mirrors_pure _

theorem complete (f : Frame) (a : Analysis) :
    Mirrors R (t.complete f a) (u.complete f a) :=
  mirrors_bind (h.changed fun _ => rfl) fun _ => h.told _

section

variable {expand : Analysis → StateM (State σ) Analysis}
  {expand' : Analysis → StateM (State τ) Analysis}
  (hexpand : ∀ a, Mirrors R (expand a) (expand' a))

include hexpand

/-- What becomes of a description is the same in both runs. -/
theorem settle (f : Frame) (r : Except Failure Analysis) :
    Mirrors R (t.settle f expand r) (u.settle f expand' r) := by
  rcases r with e | a
  · cases e with
    | unresolved missing =>
      exact mirrors_bind (h.leaf _ _ _) fun _ =>
        mirrors_bind (h.changed fun _ => rfl) fun _ => mirrors_pure _
    | _ =>
      exact mirrors_bind (h.leaf _ _ _) fun _ =>
        mirrors_bind (h.complete f _) fun _ => mirrors_pure _
  · rw [Tracer.settle, Tracer.settle]
    split
    · exact mirrors_bind (hexpand a) fun _ =>
        mirrors_bind (h.complete f _) fun _ => mirrors_pure _
    · exact mirrors_bind (mirrors_pure a) fun _ =>
        mirrors_bind (h.complete f _) fun _ => mirrors_pure _

theorem enter (f : Frame) :
    Mirrors R (t.enter f expand) (u.enter f expand') :=
  mirrors_bind (h.changed fun _ => rfl) fun _ =>
    mirrors_bind (h.told _) fun _ =>
      mirrors_bind (h.described f.key) fun _ =>
        mirrors_bind (h.settle hexpand f _) fun _ =>
          mirrors_bind (h.changed fun _ => rfl) fun _ => mirrors_pure _

end

section

variable {trace : CallSite → StateM (State σ) Analysis}
  {trace' : CallSite → StateM (State τ) Analysis}
  (htrace : ∀ c, Mirrors R (trace c) (trace' c))

include htrace

/-- Tracing calls keeps the runs abreast, if tracing one call does. -/
theorem traceCalls (cs : List CallSite) :
    Mirrors R (traceCalls trace cs) (traceCalls trace' cs) := by
  induction cs with
  | nil => exact mirrors_pure _
  | cons c rest ih =>
    refine mirrors_get fun s s' hs => ?_
    rw [h.session hs]
    split
    · exact mirrors_bind ih fun _ => mirrors_pure _
    · exact mirrors_bind (htrace c) fun _ =>
        mirrors_bind ih fun _ => mirrors_pure _

theorem traceBlocks (bs : List Block) :
    Mirrors R (traceBlocks trace bs) (traceBlocks trace' bs) := by
  induction bs with
  | nil => exact mirrors_pure _
  | cons b rest ih =>
    exact mirrors_bind (h.traceCalls htrace b.calls) fun _ =>
      mirrors_bind ih fun _ => mirrors_pure _

end

theorem orLeaf (key : MethodKey) (r : Except Unresolved Analysis) :
    Mirrors R (orLeaf key r) (orLeaf key r) := by
  cases r with
  | ok a => exact mirrors_pure a
  | error missing => exact h.leaf _ _ _

/-- The runs stay abreast in tracing a method, at any depth. -/
theorem trace (levels : Nat) (f : Frame) :
    Mirrors R (t.trace levels f) (u.trace levels f) := by
  induction levels generalizing f with
  | zero => exact mirrors_bind (h.leaf _ _ _) fun _ => mirrors_pure _
  | succ levels ih =>
    rw [Tracer.trace, Tracer.trace]
    refine mirrors_get fun s s' hs => ?_
    rw [h.session hs, h.timeOfDay hs]
    dsimp only
    generalize known? s.session f.key _ = known
    rcases known with _ | a
    · refine h.enter (fun a => ?_) f
      refine mirrors_bind (h.traceBlocks (fun c => ?_) a.blocks)
        fun _ => mirrors_pure _
      exact mirrors_bind (ih _) fun _ => h.orLeaf _ _
    · exact mirrors_pure _

/-- The runs mirror each other. -/
theorem run : Mirrors R t.run u.run := by
  refine mirrors_get fun s s' hs => ?_
  rw [h.session hs]
  refine mirrors_bind (mirrors_get fun s₁ s₁' hs₁ => ?_) fun r =>
    mirrors_bind (h.changed fun _ => rfl) fun _ => ?_
  · rw [h.session hs₁]
    exact h.trace _ _
  · cases r with
    | ok root =>
      exact mirrors_bind (h.changed fun _ => rfl) fun _ => mirrors_pure _
    | error missing => exact mirrors_pure _

end Abreast

end CallTrace.Run
