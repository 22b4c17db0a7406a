/-
What becomes of a run that is cancelled, and what is reported of it.

A run is cancelled from outside, while a source is looked up, an answer
comes in or the listener is told, or before it starts. From there on it
spends nothing, and what it has not begun stays undone. It comes to its
end all the same, and what is reported is not a complete walkthrough.

A method that is not described because the run is cancelled has a leaf that
says so. It does not count as found nowhere, but for the one case in which
the last of its suggestions was about to be tried.
-/
import CallTrace.Proofs.Analyst.Contained
import CallTrace.Proofs.Run.Calm
import CallTrace.Proofs.Run.Cancelled

namespace CallTrace

open Run

variable {σ : Type}

-- ============================================================= spending

/-- A run goes in strides from its start, or from where it has entered its
root. Wherever it is cancelled on the way, no question is put to the oracle
after that and no method is entered. The calls of a method that are left
where the run is cancelled stay as they were reported. No method is under
analysis in the end, and the report of a cancelled run is not a complete
one. A run that is cancelled before it starts enters its root, if it may,
and comes to a leaf for it and to nothing else. -/
theorem cancelled_run_spends_nothing (t : Tracer σ) (s : State σ)
    (hfresh : s.session.Fresh) (hstore : Reachable s.world.store) :
    (∃ begun points, (begun = s ∨ begun = s.rooted) ∧
      (begun :: points).IsChain (Stride t) ∧
      (begun :: points).getLast (List.cons_ne_nil begun points) =
        (t.run s).2 ∧
      ∀ before p after, begun :: points = before ++ p :: after →
        p.session.cancelled = true → ∀ q ∈ after, Spent p q) ∧
    (∀ g s' b s₁,
      t.Visits (s.session.limits.maxDepth + 1) ⟨s.session.root, 0, false⟩ s
        g s' →
      t.base g.key (t.opened g s') = (.ok b, s₁) → b.status = .complete →
      ∃ a, (t.run s).2.session.registry.get? g.key = some a ∧
        ∀ cs bs p, Reaches
            (t.answer (Tracer.levelsAt s.session.limits (g.depth + 1)) g)
            [] b.blocks s₁ cs bs p →
          p.session.cancelled = true →
          LeftAlone a.calls b.calls (cs ++ bs.flatMap (·.calls))) ∧
    (t.run s).2.session.stack = [] ∧
    ((t.run s).2.session.cancelled = true → ∀ name now,
      (Analyst.report name (t.run s).2.session now (t.run s).1).status ≠
        .complete) ∧
    (s.session.cancelled = true → Enterable s.session s.session.root →
      ∃ now,
        let leaf : Analysis :=
          .placeholder s.session.root .truncated cancelledReason now
        (t.run s).1 = .ok leaf ∧ (t.run s).2.session.registry = [leaf] ∧
        (t.run s).2.session.visited = [s.session.root] ∧
        (t.run s).2.session.analyzed = 1 ∧
        (t.run s).2.session.oracleCalls = 0) := by
  refine ⟨?_, ?_, ?_, ?_, Tracer.run_of_cancelled hfresh⟩
  · obtain ⟨begun, hbegun, hstrides⟩ := t.run_strides s
    obtain ⟨points, hchain, hlast⟩ :=
      List.exists_isChain_cons_of_relationReflTransGen hstrides
    refine ⟨begun, points, hbegun, hchain, hlast, ?_⟩
    intro before p after hsplit hc
    rw [hsplit] at hchain
    exact spent_of_isChain (List.isChain_append.1 hchain).2.1 hc
  · intro g s' b s₁ hvisit hb hcomplete
    exact Tracer.run_leavesAlone hfresh hstore.obeys hvisit hb hcomplete
  · obtain ⟨-, -, -, -, hstack, -⟩ := run_sound t s hfresh hstore
    exact hstack
  · intro hc name now hstatus
    obtain ⟨hlive, -⟩ := (Analyst.status_report name _ now _).2.1.1 hstatus
    exact absurd (hc.symm.trans hlive) (by decide)

/-- Describes two methods, one of which calls the other, and is cancelled
when the listener is told that the other one is entered. -/
def interruptedTracer : Tracer Unit :=
  { pairTracer with
    inform := fun e _ =>
      ⟨.ok (), e = .started ⟨"A", "n"⟩ 1, ()⟩ }

/-- The run is cancelled when the second method is entered: it has asked
once, about the first, and asks no more. -/
theorem cancelled_run_spends_nothing_interrupted :
    (interruptedTracer.run pairStart).2.session.cancelled = true ∧
    (interruptedTracer.run pairStart).2.session.oracleCalls = 1 ∧
    (interruptedTracer.run pairStart).2.session.stack = [] ∧
    ∀ name now, (Analyst.report name (interruptedTracer.run pairStart).2.session
      now (interruptedTracer.run pairStart).1).status ≠ .complete := by
  obtain ⟨hcancelled, hcalls⟩ :
      (interruptedTracer.run pairStart).2.session.cancelled = true ∧
      (interruptedTracer.run pairStart).2.session.oracleCalls = 1 := by
    decide +kernel
  obtain ⟨-, -, hstack, hstatus, -⟩ := cancelled_run_spends_nothing
    interruptedTracer pairStart pairStart_fresh pairStart_reachable
  exact ⟨hcancelled, hcalls, hstack, hstatus hcancelled⟩

/-- A run that is cancelled before it starts enters its root. -/
theorem cancelled_start_enters_root :
    let s := { pairStart with session := pairStart.session.cancel }
    s.session.Fresh ∧ s.session.cancelled = true ∧
      (pairTracer.run s).2.session.visited = [⟨"A", "m"⟩] ∧
      (pairTracer.run s).2.session.analyzed = 1 :=
  ⟨⟨rfl, rfl, rfl, rfl, rfl⟩, rfl, by decide +kernel⟩

-- ============================================================== absence

/-- Where a question about a method is not put because the run is
cancelled, the method has the leaf of a cancelled run, unless it is the
only one that is not put and others were put before: then it counts as
found nowhere. A report fails for a root about which a question was not put
in that one case only. -/
theorem cancelled_is_not_absent (t : Tracer σ) :
    (∀ levels f s, Enterable s.session f.key →
      t.HeldBack f.key (t.opened f s) →
      (∃ now, (t.trace (levels + 1) f s).1 =
        .ok (.placeholder f.key .truncated cancelledReason now)) ∨
      t.LastHeldBack f.key (t.opened f s)) ∧
    ∀ (s : State σ) name now,
      (Analyst.report name (t.run s).2.session now (t.run s).1).status =
        .failed →
      t.HeldBack s.session.root (t.opened ⟨s.session.root, 0, false⟩ s) →
      t.LastHeldBack s.session.root
        (t.opened ⟨s.session.root, 0, false⟩ s) := by
  constructor
  · intro levels f s hnew hheld
    rcases hheld.cases with ⟨now, hleaf⟩ | hlast
    · refine .inl ⟨now, ?_⟩
      rw [t.trace_enterable hnew, Tracer.enter_run]
      rcases hr : t.base f.key (t.opened f s) with ⟨r, s₁⟩
      obtain rfl : r = _ := (congrArg Prod.fst hr).symm.trans hleaf
      dsimp only
      rw [if_neg (by simp [Analysis.placeholder])]
    · exact .inr hlast
  · intro s name now hfailed hheld
    obtain ⟨u, hu⟩ := (Analyst.status_report name _ now _).1.1 hfailed
    obtain ⟨-, habsent⟩ := (t.run_error_iff s u).1 hu
    rcases hheld.cases with ⟨now, hleaf⟩ | hlast
    · cases hleaf.symm.trans habsent
    · exact hlast

/-- Is referred from the first type to the second, and cancelled while the
source of the type `halt` is looked up. -/
def haltingTracer (halt : String) : Tracer Unit where
  sourceOf name _ _ :=
    ⟨.ok (if name = "A" ∨ name = "E" then
        some { pairSource with typeName := name, content := "def m(): 0" }
      else none), name = halt, ()⟩
  answerTo _ prompt _ :=
    let answer :=
      if prompt.typeName = "A" then
        "### Method Not Found\n\n#### Check Parent Types:\n" ++
          "- **Extends**: `E`\n"
      else "#### Block 1: work"
    ⟨[.say answer], false, ()⟩
  inform _ _ := ⟨.ok (), false, ()⟩

/-- The run is cancelled while the type itself is looked up. -/
theorem cancelled_is_not_absent_halted :
    ∃ now, ((haltingTracer "A").trace 1 ⟨⟨"A", "m"⟩, 0, false⟩
        pairStart).1 =
      .ok (.placeholder ⟨"A", "m"⟩ .truncated cancelledReason now) := by
  have hnew : Enterable pairStart.session ⟨"A", "m"⟩ :=
    ⟨by simp [pairStart], by decide, by decide⟩
  have hheld : (haltingTracer "A").HeldBack ⟨"A", "m"⟩
      ((haltingTracer "A").opened ⟨⟨"A", "m"⟩, 0, false⟩ pairStart) := by
    unfold Tracer.HeldBack
    decide +kernel
  rcases (cancelled_is_not_absent (haltingTracer "A")).1 0
    ⟨⟨"A", "m"⟩, 0, false⟩ pairStart hnew hheld with hleaf | ⟨-, -, hlater⟩
  · exact hleaf
  · exact absurd hlater (by decide +kernel)

/-- The run is cancelled while the last suggested type is looked up. The
type would have been asked about, and the method is reported as found
nowhere. -/
theorem cancelled_counts_as_absent :
    (haltingTracer "E").HeldBack ⟨"A", "m"⟩
      ((haltingTracer "E").opened ⟨⟨"A", "m"⟩, 0, false⟩ pairStart) ∧
    ((haltingTracer "E").run pairStart).2.session.cancelled = true ∧
    ((haltingTracer "E").run pairStart).1.toOption = none := by
  unfold Tracer.HeldBack
  decide +kernel

end CallTrace
