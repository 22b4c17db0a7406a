/-
Layers over the surroundings of a run.

A layer adds something to the state outside and answers from it; all else
goes to the surroundings below. One layer finds sources in a folder,
another keeps what the listener was told.
-/
import CallTrace.Run.Surroundings
import CallTrace.Source.Workspace

namespace CallTrace.Run

variable {σ : Type}

-- ============================================================= folders

/-- A state outside with a folder of sources. -/
structure Housed (σ : Type) where
  workspace : Source.Workspace
  below : σ

namespace Surroundings

/-- The answer of the surroundings below, with their state put back into
the state of a layer. -/
def raise {τ α : Type} (put : σ → τ) (a : Answer σ α) : Answer τ α :=
  ⟨a.value, a.cancels, put a.outside⟩

/-- Finds sources in a folder. -/
def housed (below : Surroundings σ) : Surroundings (Housed σ) where
  sourceOf name files o :=
    let (file, workspace) := o.workspace.lookup files name
    { value := .ok file, outside := { o with workspace } }
  answerTo identity prompt o :=
    raise (fun b => { o with below := b })
      (below.answerTo identity prompt o.below)
  inform e o :=
    raise (fun b => { o with below := b }) (below.inform e o.below)

end Surroundings

-- ============================================================= records

/-- A state outside with the events so far, the last one first. -/
structure Recorded (σ : Type) where
  events : List Event := []
  below : σ

namespace Surroundings

/-- Keeps what the listener is told. -/
def recorded (below : Surroundings σ) : Surroundings (Recorded σ) where
  sourceOf name files o :=
    raise (fun b => { o with below := b })
      (below.sourceOf name files o.below)
  answerTo identity prompt o :=
    raise (fun b => { o with below := b })
      (below.answerTo identity prompt o.below)
  inform e o :=
    raise (fun b => ⟨e :: o.events, b⟩) (below.inform e o.below)

end Surroundings

end CallTrace.Run
