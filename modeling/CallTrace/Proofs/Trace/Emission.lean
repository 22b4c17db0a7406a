/-
What emitting the lines of a walkthrough does.

Lines are only ever put at the end, and the step at which a method was
started is noted once. A line that refers to an earlier step is right when
the lines before it hold the whole method: its start at that step, and its
end. Lines that come later do not change that.
-/
import CallTrace.Trace.Assembly

namespace CallTrace.Trace

-- ======================================================= pieces of lines

/-- The lines before a call is looked into. -/
def announceLines (a : Analysis) (b : Block) (c : CallSite) (depth : Nat) :
    List Line :=
  (conditionOf? c).toList.map (fun text => ⟨depth, .condition a b text⟩) ++
    [⟨depth, .call a b c⟩]

/-- The lines of a call that was not expanded. -/
def skipLines (a : Analysis) (c : CallSite) (status : Status)
    (depth : Nat) : List Line :=
  [⟨depth + 1, .skipEnter c⟩, ⟨depth + 1, .skip c status⟩,
    ⟨depth + 1, .skipExit c⟩, ⟨depth, .skipBack a c⟩]

namespace Emission

variable (e : Emission) (a : Analysis) (b : Block) (c : CallSite)
  (depth : Nat)

@[simp] theorem lines_add (m : Mark) :
    (e.add depth m).lines.toList = e.lines.toList ++ [⟨depth, m⟩] := by
  simp [add]

@[simp] theorem started_add (m : Mark) :
    (e.add depth m).started = e.started := rfl

@[simp] theorem lines_enter : (e.enter a depth).lines.toList =
    e.lines.toList ++ [⟨depth, .enter a⟩] := by
  simp [enter, add]

@[simp] theorem lines_announce : (e.announce a b c depth).lines.toList =
    e.lines.toList ++ announceLines a b c depth := by
  rw [announce, announceLines]
  cases conditionOf? c <;> simp

@[simp] theorem started_announce :
    (e.announce a b c depth).started = e.started := by
  rw [announce]
  cases conditionOf? c <;> rfl

@[simp] theorem lines_skip (status : Status) :
    (e.skip a c status depth).lines.toList =
      e.lines.toList ++ skipLines a c status depth := by
  simp [skip, skipLines]

@[simp] theorem started_skip (status : Status) :
    (e.skip a c status depth).started = e.started := rfl

/-- The step of a start is the number of lines with it. -/
theorem startOf?_enter_self :
    (e.enter a depth).startOf? a.key = some (e.lines.toList.length + 1) := by
  simp [startOf?, enter, add]

theorem startOf?_enter_of_ne {key : MethodKey} (h : a.key ≠ key) :
    (e.enter a depth).startOf? key = e.startOf? key := by
  simp [startOf?, enter, add, h]

end Emission

-- ========================================================== references

/-- The lines hold a whole method, from its start at a step to its end. -/
def TracedAt (lines : List Line) (a : Analysis) (step : Nat) : Prop :=
  ∃ before inside after depth,
    lines = before ++ ⟨depth, .enter a⟩ ::
      (inside ++ ⟨depth, .exit a⟩ :: after) ∧
    before.length + 1 = step

theorem TracedAt.append {lines : List Line} {a : Analysis} {step : Nat}
    (h : TracedAt lines a step) (more : List Line) :
    TracedAt (lines ++ more) a step := by
  obtain ⟨before, inside, after, depth, rfl, hstep⟩ := h
  exact ⟨before, inside, after ++ more, depth, by simp, hstep⟩

/-- Every line that refers to an earlier step comes after the whole method
that was started there. -/
def References (lines : List Line) : Prop :=
  ∀ before depth a inner step after,
    lines = before ++ ⟨depth, .again a inner step⟩ :: after →
    TracedAt before inner step

theorem references_nil : References [] :=
  fun _ _ _ _ _ _ h => absurd h (by simp)

/-- A line more refers only to what was traced, if that line does. -/
theorem References.snoc {lines : List Line} (h : References lines)
    {l : Line} (hl : ∀ a inner step, l.mark = .again a inner step →
      TracedAt lines inner step) : References (lines ++ [l]) := by
  intro before depth a inner step after heq
  rcases List.eq_nil_or_concat after with rfl | ⟨after', last, rfl⟩
  · obtain ⟨rfl, hlast⟩ := List.append_inj' heq rfl
    refine hl a inner step ?_
    rw [(List.cons.inj hlast).1]
  · have heq' : lines ++ [l] =
        (before ++ ⟨depth, .again a inner step⟩ :: after') ++ [last] := by
      simpa using heq
    exact h before depth a inner step after' (List.append_inj' heq' rfl).1

/-- Lines that refer to nothing may be put at the end. -/
theorem References.append {lines : List Line} (h : References lines)
    (more : List Line)
    (hmore : ∀ l ∈ more, ∀ a inner step, l.mark ≠ .again a inner step) :
    References (lines ++ more) := by
  induction more generalizing lines with
  | nil => simpa using h
  | cons l more ih =>
    have hl := h.snoc (l := l) fun a inner step hmark =>
      absurd hmark (hmore l (List.mem_cons_self ..) a inner step)
    simpa using ih hl fun l' hl' => hmore l' (List.mem_cons_of_mem _ hl')

theorem not_again_of_mem_announceLines {a : Analysis} {b : Block}
    {c : CallSite} {depth : Nat} {l : Line}
    (h : l ∈ announceLines a b c depth) (a' inner : Analysis) (step : Nat) :
    l.mark ≠ .again a' inner step := by
  simp only [announceLines, List.mem_append, List.mem_map,
    List.mem_singleton] at h
  rcases h with ⟨text, -, rfl⟩ | rfl <;> simp

theorem not_again_of_mem_skipLines {a : Analysis} {c : CallSite}
    {status : Status} {depth : Nat} {l : Line}
    (h : l ∈ skipLines a c status depth) (a' inner : Analysis)
    (step : Nat) : l.mark ≠ .again a' inner step := by
  simp only [skipLines, List.mem_cons, List.not_mem_nil, or_false] at h
  rcases h with rfl | rfl | rfl | rfl <;> simp

end CallTrace.Trace
