/-
The stores that a program can come to have.

A store starts empty, over files in which no analyses are kept. Runs use
it, whatever they meet outside; it is cleared, in part or as a whole; what
has expired is dropped. A program that is started anew has empty tiers
over the files that were left by the one before. Between programs, and
while one waits, files come and go, as long as nobody but the program
writes analyses into them.

Whatever has happened, the entries of such a store are bare descriptions
of the methods they are filed under.
-/
import CallTrace.Proofs.Run.Tour

namespace CallTrace.Run

open Cache (BytesObey Store bareRule)

/-- No analysis is kept in the bytes, whenever they are read. -/
def KeepsNone (bytes : List UInt8) : Prop :=
  ∀ cs document now, Text.Utf8.decode bytes = .ok cs →
    Json.read cs = .ok document →
    (Cache.entriesOf now document).entries = []

/-- The store has no entries in memory. -/
structure Empty (s : Store) : Prop where
  session : s.session.entries.size = 0
  durable : ∀ d, s.durable = some d → d.entries.size = 0

/-- The stores that runs and the handling of the cache lead to. -/
inductive Reachable : Store → Prop where
  | fresh {s : Store} (h : Empty s) (hfiles : s.files.AllFiles KeepsNone) :
    Reachable s
  | run {σ : Type} (t : Tracer σ) (s : State σ)
      (h : Reachable s.world.store) : Reachable (t.run s).2.world.store
  | cleared {s : Store} (h : Reachable s) (clock : Clock) :
    Reachable (s.clear clock).2
  | invalidated {s : Store} (h : Reachable s) (clock : Clock)
      (typeName : String) (methodName : Option String) :
    Reachable (Store.invalidate clock typeName methodName s).2
  | cleaned {s : Store} (h : Reachable s) (clock : Clock) :
    Reachable { s with session := (s.session.cleanup clock.elapsed).2 }
  | restarted {s s' : Store} (h : Reachable s) (hempty : Empty s')
      (hfiles : s'.files = s.files) : Reachable s'
  | edited {s : Store} (h : Reachable s) (files : Files.Tree)
      (hfiles : files.AllFiles fun bytes =>
        KeepsNone bytes ∨ ∃ e ∈ s.files.nodes, e.2 = .file bytes) :
    Reachable { s with files := files }

theorem KeepsNone.obeys {bytes : List UInt8} (h : KeepsNone bytes)
    (P : Cache.Rule) : BytesObey P bytes := by
  intro cs document now hd hr e he
  rw [h cs document now hd hr] at he
  exact absurd he List.not_mem_nil

theorem Empty.obeys {s : Store} (h : Empty s) {P : Cache.Rule}
    (hfiles : s.files.AllFiles (BytesObey P)) : s.Obeys P where
  session := Cache.SessionTier.obeys_empty h.session
  durable d hd e he := by
    rw [List.eq_nil_of_length_eq_zero (h.durable d hd)] at he
    exact absurd he List.not_mem_nil
  files := hfiles

/-- Every entry of a reachable store is a bare description of the method
it is filed under. -/
theorem Reachable.obeys {s : Store} (h : Reachable s) :
    s.Obeys bareRule := by
  induction h with
  | fresh h hfiles =>
    exact h.obeys fun e he bytes hb => (hfiles e he bytes hb).obeys _
  | run t s _ ih =>
    obtain ⟨T, a, s', -, -, -, hobeys, hrun⟩ := t.run_toured ih
    rw [hrun]
    rcases (t.run s).1 with u | root <;> exact hobeys
  | cleared _ clock ih => exact ih.clear Cache.bareRule_timeless clock
  | invalidated _ clock typeName methodName ih =>
    exact ih.invalidate Cache.bareRule_timeless clock typeName methodName
  | cleaned _ clock ih =>
    exact ⟨ih.session.keep _, ih.durable, ih.files⟩
  | restarted _ hempty hfiles ih => exact hempty.obeys (hfiles ▸ ih.files)
  | edited _ files hfiles ih =>
    refine ⟨ih.session, ih.durable, fun e he bytes hb => ?_⟩
    rcases hfiles e he bytes hb with h | ⟨f, hf, hfb⟩
    · exact h.obeys _
    · exact ih.files f hf bytes hfb

end CallTrace.Run
