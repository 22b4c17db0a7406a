/-
A walkthrough does not tell when its methods were analyzed.

The time of an analysis goes along into registries, marks and lines, and is
read nowhere on the way to the steps. So analyses that differ in nothing
else make the same walkthrough.
-/
import CallTrace.Proofs.Cache.Document
import CallTrace.Trace.Assembly

namespace CallTrace.Trace

open Number (Double)

variable {time : Double}

-- ========================================================= registries

namespace Registry

/-- The registry with all analyses as of one time. -/
def stamped (r : Registry) (time : Double) : Registry :=
  r.map (·.stamped time)

theorem get?_stamped (r : Registry) (key : MethodKey) :
    (r.stamped time).get? key = (r.get? key).map (·.stamped time) := by
  rw [get?, get?, stamped, List.find?_map]
  rfl

/-- Times play no part in registering. -/
theorem stamped_register (r : Registry) (a : Analysis) :
    (r.register a).stamped time =
      (r.stamped time).register (a.stamped time) := by
  have hcontains : (r.stamped time).contains (a.stamped time).key =
      r.contains a.key := by
    rw [contains, contains, get?_stamped, Option.isSome_map]
    rfl
  rw [register, register, hcontains]
  split
  · rw [stamped, stamped, List.map_map, List.map_map]
    refine List.map_congr_left fun b _ => ?_
    show (if b.key = a.key then a else b).stamped time =
      if b.key = a.key then a.stamped time else b.stamped time
    split <;> rfl
  · exact List.map_append ..

end Registry

-- ============================================================== lines

/-- The mark with its analyses as of one time. -/
def Mark.stamped (time : Double) : Mark → Mark
  | enter a => enter (a.stamped time)
  | block a b => block (a.stamped time) b
  | condition a b text => condition (a.stamped time) b text
  | call a b c => call (a.stamped time) b c
  | back a inner => back (a.stamped time) (inner.stamped time)
  | again a inner n => again (a.stamped time) (inner.stamped time) n
  | exit a => exit (a.stamped time)
  | skipEnter c => skipEnter c
  | skip c status => skip c status
  | skipExit c => skipExit c
  | skipBack a c => skipBack (a.stamped time) c

theorem Mark.toStep_stamped (m : Mark) (depth number : Nat) :
    (m.stamped time).toStep depth number = m.toStep depth number := by
  cases m <;> rfl

/-- The line with its analyses as of one time. -/
def Line.stamped (time : Double) (l : Line) : Line :=
  ⟨l.depth, l.mark.stamped time⟩

theorem writeLines_stamped (ls : List Line) :
    writeLines (ls.map (.stamped time)) = writeLines ls := by
  rw [writeLines, writeLines, List.zipIdx_map, List.map_map]
  exact List.map_congr_left fun _ _ => Mark.toStep_stamped _ _ _

namespace Emission

/-- The emission with its analyses as of one time. -/
def stamped (time : Double) (e : Emission) : Emission :=
  ⟨e.lines.map (.stamped time), e.started⟩

theorem stamped_add (e : Emission) (depth : Nat) (mark : Mark) :
    (e.add depth mark).stamped time =
      (e.stamped time).add depth (mark.stamped time) := by
  simp only [add, stamped, Array.map_push]
  rfl

theorem stamped_enter (e : Emission) (a : Analysis) (depth : Nat) :
    (e.enter a depth).stamped time =
      (e.stamped time).enter (a.stamped time) depth := by
  simp only [enter, stamped, add, Array.map_push, Array.size_push,
    Array.size_map]
  rfl

section

variable {trace : Analysis → Nat → Emission → Emission}
  {trace' : Analysis → Nat → Emission → Emission}
  (htrace : ∀ a depth e, (trace a depth e).stamped time =
    trace' (a.stamped time) depth (e.stamped time))

include htrace

/-- Times play no part in looking into a call, if they play none in tracing
its method. -/
theorem stamped_enterCall (r : Registry) (e : Emission) (a : Analysis)
    (c : CallSite) (status : Status) (depth : Nat) :
    (enterCall trace r e a c status depth).stamped time =
      enterCall trace' (r.stamped time) (e.stamped time) (a.stamped time) c
        status depth := by
  have hskip : (e.skip a c status depth).stamped time =
      (e.stamped time).skip (a.stamped time) c status depth := by
    simp only [skip, stamped_add]
    rfl
  rw [enterCall.eq_def, enterCall.eq_def trace', Registry.get?_stamped]
  rcases r.get? c.key with _ | inner
  · cases status <;> exact hskip
  · cases status with
    | complete =>
      have hstart : (e.stamped time).startOf? (inner.stamped time).key =
          e.startOf? inner.key := rfl
      simp only [Option.map_some, hstart]
      rcases e.startOf? inner.key with _ | n
      · refine (stamped_add _ _ _).trans ?_
        rw [htrace]
        rfl
      · exact stamped_add _ _ _
    | _ => exact hskip

/-- Times play no part in tracing a call. -/
theorem stamped_traceCall (r : Registry) (a : Analysis) (b : Block)
    (depth : Nat) (e : Emission) (c : CallSite) :
    (traceCall trace r a b depth e c).stamped time =
      traceCall trace' (r.stamped time) (a.stamped time) b depth
        (e.stamped time) c := by
  have hannounce : (e.announce a b c depth).stamped time =
      (e.stamped time).announce (a.stamped time) b c depth := by
    rw [announce, announce]
    rcases conditionOf? c with _ | text
    · exact stamped_add _ _ _
    · simp only [stamped_add]
      rfl
  rw [traceCall, traceCall, ← hannounce]
  rcases c.decision
  · rcases c.innerStatus with _ | status
    · rfl
    · exact stamped_enterCall htrace r _ a c status depth
  all_goals rfl

/-- Times play no part in tracing a block. -/
theorem stamped_traceBlock (r : Registry) (a : Analysis) (depth : Nat)
    (e : Emission) (b : Block) :
    (traceBlock trace r a depth e b).stamped time =
      traceBlock trace' (r.stamped time) (a.stamped time) depth
        (e.stamped time) b := by
  rw [traceBlock, traceBlock]
  have hadd : (e.add depth (.block a b)).stamped time =
      (e.stamped time).add depth (.block (a.stamped time) b) :=
    stamped_add _ _ _
  rw [← hadd]
  generalize e.add depth (.block a b) = e'
  induction b.calls generalizing e' with
  | nil => rfl
  | cons c rest ih =>
    rw [List.foldl_cons, List.foldl_cons, ih,
      stamped_traceCall htrace]

end

/-- Times play no part in the walkthrough: with other times it is the same,
but for the times. -/
theorem stamped_traceMethod (time : Double) (r : Registry) (fuel : Nat) :
    ∀ (a : Analysis) (depth : Nat) (e : Emission),
      (traceMethod r fuel a depth e).stamped time =
        traceMethod (r.stamped time) fuel (a.stamped time) depth
          (e.stamped time) := by
  induction fuel with
  | zero => exact fun _ _ _ => rfl
  | succ fuel ih =>
    intro a depth e
    have hblocks : ∀ (bs : List Block) (e : Emission),
        (bs.foldl (traceBlock (traceMethod r fuel) r a depth) e).stamped
            time =
          bs.foldl (traceBlock (traceMethod (r.stamped time) fuel)
            (r.stamped time) (a.stamped time) depth) (e.stamped time) := by
      intro bs
      induction bs with
      | nil => exact fun _ => rfl
      | cons b rest ihb =>
        intro e
        rw [List.foldl_cons, List.foldl_cons, ihb, stamped_traceBlock ih]
    rw [traceMethod, traceMethod, ← stamped_enter]
    refine (stamped_add _ _ _).trans ?_
    rw [hblocks]
    rfl

end Emission

/-- Analyses that differ in their times only make the same walkthrough. -/
theorem assemble_stamped (r : Registry) (root : Analysis) (time : Double) :
    assemble (r.stamped time) (root.stamped time) = assemble r root := by
  have hempty : Emission.stamped time {} = {} := by simp [Emission.stamped]
  have hmethod := Emission.stamped_traceMethod time r (r.length + 1) root 0 {}
  rw [hempty] at hmethod
  have hlines : outline (r.stamped time) (root.stamped time) =
      (outline r root).map (.stamped time) := by
    have hlength : (r.stamped time).length = r.length := List.length_map ..
    rw [outline, outline, hlength]
    exact (congrArg (fun e : Emission => e.lines.toList) hmethod).symm.trans
      (Array.toList_map ..)
  rw [assemble, assemble, hlines, writeLines_stamped]

end CallTrace.Trace
