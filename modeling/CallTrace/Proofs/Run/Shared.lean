/-
The stores that runs of a certain kind can come to share.

What can be said of a store depends on the runs that used it: on what they
read and on what answered them. A store is shared by runs of a kind when
runs of this kind are all that has used it. It is also cleared, cleaned and
started anew, and the files come and go, as for any store a program can
come to have.

If such runs keep a rule for the entries of the cache, then the entries of
every store that they share obey it.
-/
import CallTrace.Proofs.Run.Reachable

namespace CallTrace.Run

open Cache (Store)

/-- A kind of runs: which tracers may start in which states. -/
abbrev Kind := (σ : Type) → Tracer σ → State σ → Prop

/-- The stores that runs of a kind and the handling of the cache lead
to. -/
inductive Shared (may : Kind) : Store → Prop where
  | fresh {s : Store} (h : Empty s) (hfiles : s.files.AllFiles KeepsNone) :
    Shared may s
  | run {σ : Type} (t : Tracer σ) (s : State σ) (hmay : may σ t s)
      (h : Shared may s.world.store) : Shared may (t.run s).2.world.store
  | cleared {s : Store} (h : Shared may s) (clock : Clock) :
    Shared may (s.clear clock).2
  | invalidated {s : Store} (h : Shared may s) (clock : Clock)
      (typeName : String) (methodName : Option String) :
    Shared may (Store.invalidate clock typeName methodName s).2
  | cleaned {s : Store} (h : Shared may s) (clock : Clock) :
    Shared may { s with session := (s.session.cleanup clock.elapsed).2 }
  | restarted {s s' : Store} (h : Shared may s) (hempty : Empty s')
      (hfiles : s'.files = s.files) : Shared may s'
  | edited {s : Store} (h : Shared may s) (files : Files.Tree)
      (hfiles : files.AllFiles fun bytes =>
        KeepsNone bytes ∨ ∃ e ∈ s.files.nodes, e.2 = .file bytes) :
    Shared may { s with files := files }

namespace Shared

variable {may : Kind} {s : Store}

/-- Whatever kind of runs it is, these are stores that a program can come
to have. -/
theorem reachable (h : Shared may s) : Reachable s := by
  induction h with
  | fresh h hfiles => exact .fresh h hfiles
  | run t s _ _ ih => exact .run t s ih
  | cleared _ clock ih => exact ih.cleared clock
  | invalidated _ clock typeName methodName ih =>
    exact ih.invalidated clock typeName methodName
  | cleaned _ clock ih => exact ih.cleaned clock
  | restarted _ hempty hfiles ih => exact ih.restarted hempty hfiles
  | edited _ files hfiles ih => exact ih.edited files hfiles

/-- A rule that every run of the kind keeps, the store obeys. -/
theorem obeys {P : Cache.Rule} (hP : P.Timeless)
    (hrun : ∀ {σ : Type} (t : Tracer σ) (s : State σ), may σ t s →
      s.world.store.Obeys P → (t.run s).2.world.store.Obeys P)
    (h : Shared may s) : s.Obeys P := by
  induction h with
  | fresh h hfiles =>
    exact h.obeys fun e he bytes hb => (hfiles e he bytes hb).obeys _
  | run t s hmay _ ih => exact hrun t s hmay ih
  | cleared _ clock ih => exact ih.clear hP clock
  | invalidated _ clock typeName methodName ih =>
    exact ih.invalidate hP clock typeName methodName
  | cleaned _ clock ih => exact ⟨ih.session.keep _, ih.durable, ih.files⟩
  | restarted _ hempty hfiles ih => exact hempty.obeys (hfiles ▸ ih.files)
  | edited _ files hfiles ih =>
    refine ⟨ih.session, ih.durable, fun e he bytes hb => ?_⟩
    rcases hfiles e he bytes hb with h | ⟨f, hf, hfb⟩
    · exact h.obeys _
    · exact ih.files f hf bytes hfb

end Shared

end CallTrace.Run
