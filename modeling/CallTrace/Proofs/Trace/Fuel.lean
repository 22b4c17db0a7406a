/-
Why the nesting of a walkthrough ends by itself.

The registry may hold analyses that call each other in circles. But a
method that is traced inside another one is registered and was not started
before, and from then on it is started. So each level of nesting takes
away one of the registered methods that still wait, and when none waits
no further level is entered. As much fuel as there are methods that wait
is therefore enough, and more makes no difference.
-/
import CallTrace.Proofs.Trace.Emission
import CallTrace.Proofs.Trace.Registry

namespace CallTrace.Trace.Emission

variable {r : Registry} {e e' : Emission} {a : Analysis} {depth n : Nat}

/-- A registered method that was not started yet. -/
def waits (e : Emission) (a : Analysis) : Bool := (e.startOf? a.key).isNone

/-- How many registered methods were not started yet. -/
def waiting (r : Registry) (e : Emission) : Nat := r.countP e.waits

theorem waiting_le_length (r : Registry) (e : Emission) :
    waiting r e ≤ r.length := List.countP_le_length

@[simp] theorem waiting_add (m : Mark) :
    waiting r (e.add depth m) = waiting r e := rfl

@[simp] theorem waiting_announce (b : Block) (c : CallSite) :
    waiting r (e.announce a b c depth) = waiting r e := by
  rw [announce]
  cases conditionOf? c <;> rfl

@[simp] theorem waiting_skip (c : CallSite) (status : Status) :
    waiting r (e.skip a c status depth) = waiting r e := rfl

theorem waits_of_enter {b : Analysis} (h : (e.enter a depth).waits b = true) :
    e.waits b = true ∧ b.key ≠ a.key := by
  have hne : a.key ≠ b.key := by
    intro hkey
    rw [waits, ← hkey, startOf?_enter_self] at h
    cases h
  rw [waits, startOf?_enter_of_ne e a depth hne] at h
  exact ⟨h, hne.symm⟩

theorem waiting_enter_le : waiting r (e.enter a depth) ≤ waiting r e :=
  List.countP_mono_left fun _ _ hb => (waits_of_enter hb).1

/-- A registered method that is started no longer waits. -/
theorem waiting_enter_lt (hmem : a ∈ r) (hwaits : e.startOf? a.key = none) :
    waiting r (e.enter a depth) < waiting r e := by
  obtain ⟨before, after, rfl⟩ := List.append_of_mem hmem
  have hhere : e.waits a = true := by rw [waits, hwaits]; rfl
  have hgone : (e.enter a depth).waits a = false := by
    rw [waits, startOf?_enter_self]
    rfl
  have hmono : ∀ r' : Registry,
      waiting r' (e.enter a depth) ≤ waiting r' e := fun _ => waiting_enter_le
  have hbefore := hmono before
  have hafter := hmono after
  simp only [waiting, List.countP_append, List.countP_cons, hhere, hgone] at *
  simp only [Bool.false_eq_true, if_false, if_true]
  omega

-- ====================================================== same emissions

/-- Where at most `n` registered methods wait, the two emit the same, and no
more wait afterwards. -/
def Alike (r : Registry) (n : Nat) (f g : Emission → Emission) : Prop :=
  ∀ e, waiting r e ≤ n → f e = g e ∧ waiting r (f e) ≤ n

/-- Steps that are alike are alike one after another. -/
theorem Alike.foldl {α : Type} {step step' : Emission → α → Emission}
    (xs : List α) (h : ∀ x, Alike r n (step · x) (step' · x)) :
    Alike r n (xs.foldl step) (xs.foldl step') := by
  induction xs with
  | nil => exact fun e he => ⟨rfl, he⟩
  | cons x xs ih =>
    intro e he
    obtain ⟨hsame, hn⟩ := h x e he
    obtain ⟨hrest, hn'⟩ := ih _ hn
    exact ⟨hrest.trans (congrArg (xs.foldl step') hsame), hn'⟩

section

variable {trace trace' : Analysis → Nat → Emission → Emission}
  (htrace : ∀ inner ∈ r, ∀ depth e, e.startOf? inner.key = none →
    waiting r e ≤ n →
      trace inner depth e = trace' inner depth e ∧
        waiting r (trace inner depth e) ≤ n)

include htrace

/-- Looking into a call is alike, if tracing its method is. -/
theorem alike_enterCall (c : CallSite) (status : Status) :
    Alike r n (enterCall trace r · a c status depth)
      (enterCall trace' r · a c status depth) := by
  intro e he
  simp only [enterCall]
  split
  case h_1 inner hget =>
    cases hstart : e.startOf? inner.key with
    | some step => exact ⟨rfl, he⟩
    | none =>
      obtain ⟨hsame, hn⟩ :=
        htrace inner (Registry.mem_of_get? hget) (depth + 1) e hstart he
      exact ⟨congrArg (·.add depth (.back a inner)) hsame, hn⟩
  case h_2 => exact ⟨rfl, he⟩

/-- A call is traced alike, if its method is. -/
theorem alike_traceCall (b : Block) (c : CallSite) :
    Alike r n (traceCall trace r a b depth · c)
      (traceCall trace' r a b depth · c) := by
  intro e he
  simp only [traceCall]
  have he' : waiting r (e.announce a b c depth) ≤ n := by
    rwa [waiting_announce]
  split
  · exact alike_enterCall htrace c _ _ he'
  · exact ⟨rfl, he'⟩

theorem alike_traceBlock (b : Block) :
    Alike r n (traceBlock trace r a depth · b)
      (traceBlock trace' r a depth · b) :=
  fun _ he => Alike.foldl b.calls (alike_traceCall htrace b) _ he

end

/-- With more fuel than there are methods that wait, the fuel does not
matter. -/
theorem traceMethod_congr (r : Registry) (fuel : Nat) :
    ∀ (fuel' : Nat) (a : Analysis) (depth : Nat) (e : Emission),
      waiting r (e.enter a depth) < fuel →
      waiting r (e.enter a depth) < fuel' →
        traceMethod r fuel a depth e = traceMethod r fuel' a depth e ∧
          waiting r (traceMethod r fuel a depth e) ≤
            waiting r (e.enter a depth) := by
  induction fuel with
  | zero => exact fun _ _ _ _ h => absurd h (Nat.not_lt_zero _)
  | succ fuel ih =>
    intro fuel' a depth e hfuel hfuel'
    cases fuel' with
    | zero => exact absurd hfuel' (Nat.not_lt_zero _)
    | succ fuel' =>
      have htrace : ∀ inner ∈ r, ∀ d e', e'.startOf? inner.key = none →
          waiting r e' ≤ waiting r (e.enter a depth) →
            traceMethod r fuel inner d e' = traceMethod r fuel' inner d e' ∧
              waiting r (traceMethod r fuel inner d e') ≤
                waiting r (e.enter a depth) := by
        intro inner hmem d e' hwaits hle
        have hlt : waiting r (e'.enter inner d) < waiting r e' :=
          waiting_enter_lt hmem hwaits
        obtain ⟨hsame, hn⟩ :=
          ih fuel' inner d e' (by omega) (by omega)
        exact ⟨hsame, by omega⟩
      have hblock : ∀ b, Alike r (waiting r (e.enter a depth))
          (traceBlock (traceMethod r fuel) r a depth · b)
          (traceBlock (traceMethod r fuel') r a depth · b) :=
        alike_traceBlock htrace
      obtain ⟨hsame, hn⟩ :=
        Alike.foldl a.blocks hblock (e.enter a depth) (Nat.le_refl _)
      exact ⟨congrArg (·.add depth (.exit a)) hsame, hn⟩

/-- The walkthrough is the same with any fuel above the number of registered
methods. -/
theorem outline_eq_of_fuel (r : Registry) (root : Analysis) {fuel : Nat}
    (h : r.length < fuel) :
    (traceMethod r fuel root 0 {}).lines.toList = outline r root := by
  have hle := waiting_le_length r (Emission.enter {} root 0)
  rw [outline, (traceMethod_congr r fuel (r.length + 1) root 0 {}
    (by omega) (by omega)).1]

end CallTrace.Trace.Emission
