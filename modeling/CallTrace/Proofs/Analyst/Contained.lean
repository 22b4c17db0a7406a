/-
What a failure can do to a run, and to the report of it.

Nothing outside has to be relied on for this: sources, oracle and listener
may fail wherever they like. A run fails only with its root, and a report
is a failed one only then; it is a complete one if the run was let go on to
its end and the root is complete, and a truncated one otherwise.
-/
import CallTrace.Analyst
import CallTrace.Proofs.Run.Contained

namespace CallTrace

open Run (Conveys Earned Enterable Reachable State Surroundings Tracer
  pairStart pairStart_fresh pairStart_reachable pairTracer)

variable {σ : Type}

namespace Analyst

/-- The status of a report, from the outcome of the run. -/
theorem status_report (name : String) (s : Run.Session)
    (now : Number.Double) (r : Run.Outcome) :
    ((report name s now r).status = .failed ↔ ∃ u, r = .error u) ∧
    ((report name s now r).status = .complete ↔
      s.cancelled = false ∧ ∃ root, r = .ok root ∧ root.status = .complete) ∧
    ((report name s now r).status = .truncated ↔
      ∃ root, r = .ok root ∧
        ¬(s.cancelled = false ∧ root.status = .complete)) := by
  cases r with
  | error u => simp [report]
  | ok root =>
    cases hcancel : s.cancelled <;>
      by_cases hroot : root.status = .complete <;>
        simp [report, hcancel, hroot]

end Analyst

/-- Whatever fails outside, a run fails only if its root may be entered and
describing the root by itself finds it nowhere. Every other method has what
its own description earned it, whatever becomes of the methods it calls: as
a caller is told, and as it is registered in the end. The report of a run
is a failed one just if the run failed. -/
theorem failures_contained (σ : Type) :
    (∀ (t : Tracer σ) (s : State σ),
      (∀ u, (t.run s).1 = .error u ↔
        Enterable s.session s.session.root ∧
        (t.base s.session.root (t.opened ⟨s.session.root, 0, false⟩ s)).1 =
          .error (.unresolved u)) ∧
      (∀ levels f s, Enterable s.session f.key →
        Conveys (t.base f.key (t.opened f s)).1
          (t.trace (levels + 1) f s).1) ∧
      (s.session.Fresh → Reachable s.world.store →
        (∀ a ∈ (t.run s).2.session.registry, ∃ g s',
          t.Visits (s.session.limits.maxDepth + 1)
            ⟨s.session.root, 0, false⟩ s g s' ∧
          a.key = g.key ∧ Earned (t.base g.key (t.opened g s')).1 a) ∧
        ∀ g s', t.Visits (s.session.limits.maxDepth + 1)
            ⟨s.session.root, 0, false⟩ s g s' →
          ∃ a, (t.run s).2.session.registry.get? g.key = some a ∧
            Earned (t.base g.key (t.opened g s')).1 a)) ∧
    ∀ (around : Surroundings σ) (name : String) (key : MethodKey)
      (limits : Limits) (a : Analyst σ),
      let run := (Analyst.tracer a.settings around).run
        ⟨a.sessionFor key limits, a.world⟩
      let report := (Analyst.trace around name key limits a).1
      (report.status = .failed ↔ ∃ u, run.1 = .error u) ∧
      (report.status = .complete ↔ run.2.session.cancelled = false ∧
        ∃ root, run.1 = .ok root ∧ root.status = .complete) ∧
      (report.status = .truncated ↔ ∃ root, run.1 = .ok root ∧
        ¬(run.2.session.cancelled = false ∧ root.status = .complete)) := by
  refine ⟨fun t s => ⟨t.run_error_iff s, t.trace_conveys, ?_⟩, ?_⟩
  · exact fun hfresh hstore => t.run_visits hfresh hstore.obeys
  · intro around name key limits a
    exact Analyst.status_report name _ _ _

/-- Describes a method whose call comes to nothing, before a listener that
fails. -/
def brittleTracer : Tracer Unit :=
  { pairTracer with
    answerTo := fun identity prompt u =>
      if prompt.methodName = "m" then pairTracer.answerTo identity prompt u
      else ⟨[.fail (.foreign "ValueError" "boom")], false, ()⟩
    inform := fun _ _ => ⟨.error (.foreign "OSError" ""), false, ()⟩ }

/-- The oracle fails about the method that is called, and the caller is
complete all the same. -/
theorem failures_contained_brittle :
    (∃ a, (brittleTracer.run pairStart).2.session.registry.get? ⟨"A", "m"⟩ =
      some a ∧ a.status = .complete) ∧
    ((brittleTracer.run pairStart).2.session.registry.get? ⟨"A", "n"⟩).map
      (·.status) = some .failed := by
  have hnew : Enterable pairStart.session ⟨"A", "m"⟩ :=
    ⟨by simp [pairStart], by decide, by decide⟩
  have hroot : ∀ t : Tracer Unit,
      (t.base ⟨"A", "m"⟩ (t.opened ⟨⟨"A", "m"⟩, 0, false⟩
        pairStart)).1.toOption.map (·.status) = some .complete →
      ∃ a, (t.run pairStart).2.session.registry.get? ⟨"A", "m"⟩ = some a ∧
        a.status = .complete := by
    intro t hbase
    obtain ⟨a, ha, hearned⟩ :=
      (((failures_contained Unit).1 t pairStart).2.2 pairStart_fresh
        pairStart_reachable).2 _ _ (.here hnew)
    exact ⟨a, ha, hearned.status_eq hbase⟩
  exact ⟨hroot brittleTracer (by decide +kernel), by decide +kernel⟩

end CallTrace
