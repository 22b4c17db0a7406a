/-
What is true of every walkthrough.

The registry may hold any analyses: they may call each other in circles,
calls may be marked as expanded whose methods are not registered, and the
root need not be registered, or be another analysis than the registered
one. Nothing of this shows in the shape of the walkthrough.

A piece of a walkthrough is orderly when it opens and closes methods like
brackets, each of its lines at the depth of the method it is about and
under its name, and when what a method or a call in it needs stands beside
it. Orderly pieces one after the other are orderly. So it is enough to see
what a single call emits, whatever the tracing of a method emits that was
not started before; the methods follow by the recursion.

The notes about starts go along. A method is noted when it is started, is
not started again, and a line that refers to its start names the step that
was noted.
-/
import CallTrace.Proofs.Trace.Fuel
import CallTrace.Proofs.Trace.Walkthrough
import Mathlib.Data.List.Nodup

namespace CallTrace.Trace

-- ============================================================= nesting

/-- The methods that are open after a step, the innermost first; nothing if
the step is not about the innermost method, at the depth of that method. -/
def Step.nest (s : Step) (opened : List String) : Option (List String) :=
  if s.kind = .methodStart then
    if s.depth = opened.length then some (s.source :: opened) else none
  else
    match opened with
    | [] => none
    | top :: rest =>
      if s.source = top ∧ s.depth = rest.length then
        if s.kind = .methodEnd then some rest else some (top :: rest)
      else none

/-- The methods that are open after some steps. -/
def nesting (steps : List Step) (opened : List String) :
    Option (List String) :=
  steps.foldlM (fun opened s => s.nest opened) opened

/-- The methods that are open after some lines. -/
def Line.nesting (lines : List Line) (opened : List String) :
    Option (List String) :=
  lines.foldlM (fun opened l => (l.mark.toStep l.depth 0).nest opened) opened

/-- The nesting of the steps is that of the lines. -/
theorem nesting_writeLines (lines : List Line) (opened : List String) :
    nesting (writeLines lines) opened = Line.nesting lines opened := by
  have hfrom : ∀ n, nesting ((lines.zipIdx n).map
      fun p => p.1.mark.toStep p.1.depth p.2) opened =
        Line.nesting lines opened := by
    induction lines generalizing opened with
    | nil => exact fun _ => rfl
    | cons l lines ih =>
      intro n
      -- The number of a step does not matter.
      have hstep : (l.mark.toStep l.depth n).nest opened =
          (l.mark.toStep l.depth 0).nest opened := rfl
      rw [List.zipIdx_cons, List.map_cons, nesting, Line.nesting,
        List.foldlM_cons, List.foldlM_cons]
      dsimp only
      rw [hstep]
      cases (l.mark.toStep l.depth 0).nest opened with
      | none => rfl
      | some opened' => exact ih opened' (n + 1)
  exact hfrom 1

theorem Line.nesting_append {lines more : List Line}
    {opened opened' : List String}
    (h : Line.nesting lines opened = some opened') :
    Line.nesting (lines ++ more) opened = Line.nesting more opened' := by
  rw [Line.nesting, List.foldlM_append]
  show Line.nesting lines opened >>= _ = _
  rw [h]
  rfl

-- ============================================================== tales

/-- What a mark says about the method it is in: itself or, if it is a
return, the method from which it returns. -/
def Mark.said : Mark → Mark ⊕ MethodKey
  | .back _ inner => .inr inner.key
  | .again _ inner _ => .inr inner.key
  | .skipBack _ c => .inr c.key
  | m => .inl m

/-- The call was stepped into, and it is known what came of it. -/
def isAnswered (c : CallSite) : Bool :=
  c.decision = .stepInto && c.innerStatus.isSome

/-- What is told of a call: its condition, the call itself, and the return
from it if it was stepped into. -/
def callTale (a : Analysis) (b : Block) (c : CallSite) :
    List (Mark ⊕ MethodKey) :=
  (callScript a b c).map .inl ++ if isAnswered c then [.inr c.key] else []

/-- What is told of a block: the block itself, and each of its calls. -/
def blockTale (a : Analysis) (b : Block) : List (Mark ⊕ MethodKey) :=
  .inl (.block a b) :: b.calls.flatMap (callTale a b)

/-- What is told of a method between its start and its end. -/
def tale (a : Analysis) : List (Mark ⊕ MethodKey) :=
  a.blocks.flatMap (blockTale a)

/-- What the lines say at a depth. -/
def saidAt (depth : Nat) (lines : List Line) : List (Mark ⊕ MethodKey) :=
  (lines.filter (·.depth = depth)).map (·.mark.said)

@[simp] theorem saidAt_append (depth : Nat) (lines more : List Line) :
    saidAt depth (lines ++ more) = saidAt depth lines ++ saidAt depth more := by
  simp [saidAt]

/-- The lines say `tale` at a depth, and all else deeper down. -/
structure Tells (depth : Nat) (tale : List (Mark ⊕ MethodKey))
    (lines : List Line) : Prop where
  deep : ∀ l ∈ lines, depth ≤ l.depth
  said : saidAt depth lines = tale

theorem Tells.append {depth : Nat} {tale tale' : List (Mark ⊕ MethodKey)}
    {lines more : List Line} (h : Tells depth tale lines)
    (h' : Tells depth tale' more) :
    Tells depth (tale ++ tale') (lines ++ more) where
  deep := List.forall_mem_append.2 ⟨h.deep, h'.deep⟩
  said := by rw [saidAt_append, h.said, h'.said]

theorem tells_one (depth : Nat) (m : Mark) :
    Tells depth [m.said] [⟨depth, m⟩] :=
  ⟨by simp, by simp [saidAt]⟩

/-- Lines that lie deeper tell nothing at a depth. -/
theorem tells_deeper {depth : Nat} {lines : List Line}
    (h : ∀ l ∈ lines, depth + 1 ≤ l.depth) : Tells depth [] lines where
  deep := fun l hl => Nat.le_of_succ_le (h l hl)
  said := by
    rw [saidAt, List.map_eq_nil_iff, List.filter_eq_nil_iff]
    intro l hl
    have hdeep := h l hl
    simp only [decide_eq_true_eq]
    omega

-- ============================================================= places

/-- What stands before and after a line. -/
structure Placed (before : List Line) (l : Line) (after : List Line) :
    Prop where
  /-- A method that is started is told, and then ends. -/
  ended : ∀ a, l.mark = .enter a → ∃ inside after',
    after = inside ++ ⟨l.depth, .exit a⟩ :: after' ∧
      Tells l.depth (tale a) inside
  /-- Right before a call stands its condition. -/
  conditioned : ∀ a b c text, l.mark = .call a b c →
    conditionOf? c = some text → ∃ before',
      before = before' ++ [⟨l.depth, .condition a b text⟩]

/-- A line that is placed is so among more lines. -/
theorem Placed.within {before after : List Line} {l : Line}
    (h : Placed before l after) (front behind : List Line) :
    Placed (front ++ before) l (after ++ behind) where
  ended := by
    intro a ha
    obtain ⟨inside, after', rfl, htells⟩ := h.ended a ha
    exact ⟨inside, after' ++ behind, by simp, htells⟩
  conditioned := by
    intro a b c text hcall hcond
    obtain ⟨before', rfl⟩ := h.conditioned a b c text hcall hcond
    exact ⟨front ++ before', by simp⟩

/-- A line that neither starts a method nor calls one may stand anywhere. -/
theorem placed_anywhere {before after : List Line} {l : Line}
    (henter : ∀ a, l.mark ≠ .enter a)
    (hcall : ∀ a b c, l.mark ≠ .call a b c) : Placed before l after where
  ended := fun a ha => absurd ha (henter a)
  conditioned := fun a b c _ h => absurd h (hcall a b c)

/-- A piece of a walkthrough inside the open methods. -/
structure Orderly (opened : List String) (lines : List Line) : Prop where
  nested : Line.nesting lines opened = some opened
  placed : ∀ before l after, lines = before ++ l :: after →
    Placed before l after

theorem orderly_nil (opened : List String) : Orderly opened [] where
  nested := rfl
  placed := fun before l after h => by simp at h

/-- The lines of two pieces are placed, if they are so in their pieces. -/
theorem placed_append {lines more : List Line}
    (h : ∀ before l after, lines = before ++ l :: after →
      Placed before l after)
    (h' : ∀ before l after, more = before ++ l :: after →
      Placed before l after) (before : List Line) (l : Line)
    (after : List Line) (heq : lines ++ more = before ++ l :: after) :
    Placed before l after := by
  rcases List.append_eq_append_iff.1 heq with
    ⟨middle, rfl, hmore⟩ | ⟨middle, hlines, hmore⟩
  · -- The line is in the second piece.
    simpa using (h' middle l after hmore).within lines []
  · cases middle with
    | nil => simpa [hlines] using (h' [] l after hmore.symm).within lines []
    | cons l' middle =>
      obtain ⟨rfl, rfl⟩ := List.cons.inj hmore
      simpa using (h before l middle hlines).within [] more

theorem Orderly.append {opened : List String} {lines more : List Line}
    (h : Orderly opened lines) (h' : Orderly opened more) :
    Orderly opened (lines ++ more) where
  nested := (Line.nesting_append h.nested).trans h'.nested
  placed := placed_append h.placed h'.placed

/-- A line about the innermost method, which needs nothing before it. -/
theorem orderly_one {top : String} {rest : List String} {m : Mark}
    (hsource : m.source = top) (hstart : m.kind ≠ .methodStart)
    (hend : m.kind ≠ .methodEnd)
    (hcall : ∀ a b c, m = .call a b c → conditionOf? c = none) :
    Orderly (top :: rest) [⟨rest.length, m⟩] where
  nested := by
    have hnest : (m.toStep rest.length 0).nest (top :: rest) =
        some (top :: rest) := by
      simp [Step.nest, Mark.toStep, hsource, hstart, hend]
    rw [Line.nesting, List.foldlM_cons, hnest]
    rfl
  placed := by
    intro before l after h
    have hl : l ∈ [(⟨rest.length, m⟩ : Line)] := h ▸ by simp
    obtain rfl := List.mem_singleton.1 hl
    exact {
      ended := by
        rintro a rfl
        exact absurd rfl hstart
      conditioned := by
        intro a b c text hc hcond
        rw [hcall a b c hc] at hcond
        cases hcond }

/-- A method as a whole, from its start to its end. -/
theorem Orderly.enclose {a : Analysis} {opened : List String}
    {inside : List Line} (h : Orderly (a.display :: opened) inside)
    (htells : Tells opened.length (tale a) inside) :
    Orderly opened (⟨opened.length, .enter a⟩ ::
      (inside ++ [⟨opened.length, .exit a⟩])) where
  nested := by
    have henter : (Mark.toStep (.enter a) opened.length 0).nest opened =
        some (a.display :: opened) := by
      simp [Step.nest, Mark.toStep, Mark.kind, Mark.source]
    have hexit : (Mark.toStep (.exit a) opened.length 0).nest
        (a.display :: opened) = some opened := by
      simp [Step.nest, Mark.toStep, Mark.kind, Mark.source]
    rw [Line.nesting, List.foldlM_cons, henter]
    refine (Line.nesting_append h.nested).trans ?_
    rw [Line.nesting, List.foldlM_cons, hexit]
    rfl
  placed := by
    have hexit : ∀ before l after,
        [⟨opened.length, .exit a⟩] = before ++ l :: after →
          Placed before l after := by
      intro before l after heq
      have hl : l ∈ [(⟨opened.length, .exit a⟩ : Line)] := heq ▸ by simp
      obtain rfl := List.mem_singleton.1 hl
      exact placed_anywhere (by simp) (by simp)
    intro before l after heq
    cases before with
    | nil =>
      obtain ⟨rfl, rfl⟩ := List.cons.inj heq
      exact {
        ended := by
          rintro _ ⟨⟩
          exact ⟨inside, [], rfl, htells⟩
        conditioned := by rintro _ _ _ _ ⟨⟩ }
    | cons l' before =>
      obtain ⟨rfl, hrest⟩ := List.cons.inj heq
      have hplaced := placed_append h.placed hexit before l after hrest
      simpa using hplaced.within [⟨opened.length, .enter a⟩] []

-- ========================================================= pieces

/-- Announcing a call is orderly: no method is started or ended. -/
theorem orderly_announceLines (a : Analysis) (b : Block) (c : CallSite)
    (rest : List String) :
    Orderly (a.display :: rest) (announceLines a b c rest.length) := by
  rw [announceLines]
  cases hcond : conditionOf? c with
  | none =>
    refine orderly_one rfl (by simp [Mark.kind]) (by simp [Mark.kind]) ?_
    rintro _ _ _ ⟨⟩
    exact hcond
  | some text =>
    have hfirst : Orderly (a.display :: rest)
        [⟨rest.length, .condition a b text⟩] :=
      orderly_one rfl (by simp [Mark.kind]) (by simp [Mark.kind]) (by simp)
    have hcall : Line.nesting [⟨rest.length, .call a b c⟩]
        (a.display :: rest) = some (a.display :: rest) := by
      simp [Line.nesting, Step.nest, Mark.toStep, Mark.kind, Mark.source]
    refine ⟨(Line.nesting_append hfirst.nested).trans hcall, ?_⟩
    intro before l after heq
    cases before with
    | nil =>
      obtain ⟨rfl, -⟩ := List.cons.inj heq
      exact placed_anywhere (by simp) (by simp)
    | cons l' before =>
      obtain ⟨rfl, hrest⟩ := List.cons.inj heq
      have hrest : [(⟨rest.length, .call a b c⟩ : Line)] =
        before ++ l :: after := hrest
      have hl : l ∈ [(⟨rest.length, .call a b c⟩ : Line)] := hrest ▸ by simp
      obtain rfl := List.mem_singleton.1 hl
      obtain rfl : before = [] := by
        cases before with
        | nil => rfl
        | cons l' before => simp at hrest
      exact {
        ended := by simp
        conditioned := by
          rintro _ _ _ text' ⟨⟩ hcond'
          obtain rfl := Option.some.inj (hcond.symm.trans hcond')
          exact ⟨[], rfl⟩ }

/-- Announcing a call tells its script. -/
theorem tells_announceLines (a : Analysis) (b : Block) (c : CallSite)
    (depth : Nat) :
    Tells depth ((callScript a b c).map .inl) (announceLines a b c depth) := by
  have hsaid : ∀ m ∈ callScript a b c, m.said = .inl m := by
    intro m hm
    rcases List.mem_append.1 hm with hm | hm
    · obtain ⟨text, -, rfl⟩ := List.mem_map.1 hm
      rfl
    · rw [List.mem_singleton.1 hm]
      rfl
  rw [announceLines_eq]
  refine ⟨?_, ?_⟩
  · intro l hl
    obtain ⟨m, -, rfl⟩ := List.mem_map.1 hl
    exact Nat.le_refl depth
  · rw [saidAt, List.filter_eq_self.2, List.map_map]
    · exact List.map_congr_left hsaid
    · intro l hl
      obtain ⟨m, -, rfl⟩ := List.mem_map.1 hl
      exact decide_eq_true rfl

/-- What is skipped is orderly: no method is started or ended. -/
theorem orderly_skipLines (a : Analysis) (c : CallSite) (status : Status)
    (rest : List String) :
    Orderly (a.display :: rest) (skipLines a c status rest.length) where
  nested := by
    simp [Line.nesting, skipLines, Step.nest, Mark.toStep, Mark.kind,
      Mark.source]
  placed := by
    intro before l after heq
    have hl : l ∈ skipLines a c status rest.length := heq ▸ by simp
    refine placed_anywhere (fun a' ha => ?_)
      fun _ _ _ => not_call_of_mem_skipLines hl
    obtain ⟨depth, m⟩ := l
    obtain rfl : m = .enter a' := ha
    exact not_enter_skipLines depth a' hl

theorem tells_skipLines (a : Analysis) (c : CallSite) (status : Status)
    (depth : Nat) :
    Tells depth [.inr c.key] (skipLines a c status depth) :=
  ⟨by simp [skipLines], by simp [saidAt, skipLines, Mark.said]⟩

-- ============================================================== starts

/-- The methods that are started in the lines, in order. -/
def entered (lines : List Line) : List MethodKey :=
  lines.filterMap fun l =>
    match l.mark with
    | .enter a => some a.key
    | _ => none

@[simp] theorem entered_append (lines more : List Line) :
    entered (lines ++ more) = entered lines ++ entered more :=
  List.filterMap_append

theorem entered_one {depth : Nat} {m : Mark} (h : ∀ a, m ≠ .enter a) :
    entered [⟨depth, m⟩] = [] := by
  cases m with
  | enter a => exact absurd rfl (h a)
  | _ => rfl

/-- The method is started in the lines at this step. -/
def StartedAt (lines : List Line) (key : MethodKey) (step : Nat) : Prop :=
  ∃ before depth a after, lines = before ++ ⟨depth, .enter a⟩ :: after ∧
    before.length + 1 = step ∧ a.key = key

theorem StartedAt.append {lines : List Line} {key : MethodKey} {step : Nat}
    (h : StartedAt lines key step) (more : List Line) :
    StartedAt (lines ++ more) key step := by
  obtain ⟨before, depth, a, after, rfl, hstep, hkey⟩ := h
  exact ⟨before, depth, a, after ++ more, by simp, hstep, hkey⟩

/-- Every line that refers to an earlier step comes after the start, at that
step, of the method from which it returns. -/
def Refers (lines : List Line) : Prop :=
  ∀ before depth a inner step after,
    lines = before ++ ⟨depth, .again a inner step⟩ :: after →
      StartedAt before inner.key step

/-- A line more refers only to what was started, if that line does. -/
theorem Refers.snoc {lines : List Line} (h : Refers lines) {l : Line}
    (hl : ∀ a inner step, l.mark = .again a inner step →
      StartedAt lines inner.key step) : Refers (lines ++ [l]) := by
  intro before depth a inner step after heq
  rcases List.eq_nil_or_concat after with rfl | ⟨after', last, rfl⟩
  · obtain ⟨rfl, hlast⟩ := List.append_inj' heq rfl
    refine hl a inner step ?_
    rw [(List.cons.inj hlast).1]
  · have heq' : lines ++ [l] =
        (before ++ ⟨depth, .again a inner step⟩ :: after') ++ [last] := by
      simpa using heq
    exact h before depth a inner step after' (List.append_inj' heq' rfl).1

namespace Emission

/-- The notes about starts are right: the noted methods are those that were
started, each of them once, at the step that is noted. -/
structure Tracks (e : Emission) : Prop where
  noted : ∀ key, e.startOf? key = none ↔ key ∉ entered e.lines.toList
  once : (entered e.lines.toList).Nodup
  starts : ∀ key step, e.startOf? key = some step →
    StartedAt e.lines.toList key step
  refers : Refers e.lines.toList

theorem tracks_empty : Tracks {} where
  noted := fun _ => ⟨fun _ => List.not_mem_nil, fun _ => rfl⟩
  once := List.nodup_nil
  starts := fun _ _ h => by cases h
  refers := fun _ _ _ _ _ _ h => absurd h (by simp)

variable {e e' e'' : Emission} {a : Analysis} {depth : Nat}

/-- A line that starts nothing keeps the notes right, if it refers to a
start that is noted. -/
theorem Tracks.add (h : e.Tracks) {m : Mark} (henter : ∀ a, m ≠ .enter a)
    (hagain : ∀ a inner step, m = .again a inner step →
      e.startOf? inner.key = some step) : (e.add depth m).Tracks := by
  have hentered : entered (e.add depth m).lines.toList =
      entered e.lines.toList := by
    rw [lines_add, entered_append, entered_one henter, List.append_nil]
  refine ⟨fun key => ?_, hentered ▸ h.once, fun key step hkey => ?_, ?_⟩
  · rw [hentered]
    exact h.noted key
  · rw [lines_add]
    exact (h.starts key step hkey).append _
  · rw [lines_add]
    exact h.refers.snoc fun a inner step hm =>
      h.starts inner.key step (hagain a inner step hm)

/-- The start of a method that is new is noted at its step. -/
theorem Tracks.enter (h : e.Tracks) (hnew : e.startOf? a.key = none) :
    (e.enter a depth).Tracks := by
  have hentered : entered (e.enter a depth).lines.toList =
      entered e.lines.toList ++ [a.key] := by
    rw [lines_enter, entered_append]
    rfl
  have hfresh := (h.noted a.key).1 hnew
  refine ⟨fun key => ?_, ?_, fun key step hkey => ?_, ?_⟩
  · rw [hentered, List.mem_append, List.mem_singleton]
    by_cases hkey : a.key = key
    · subst hkey
      simp [startOf?_enter_self]
    · rw [startOf?_enter_of_ne e a depth hkey, h.noted]
      simp [Ne.symm hkey]
  · rw [hentered, ← List.concat_eq_append]
    exact List.Nodup.concat hfresh h.once
  · rw [lines_enter]
    by_cases hsame : a.key = key
    · subst hsame
      rw [startOf?_enter_self] at hkey
      exact ⟨e.lines.toList, depth, a, [], rfl, Option.some.inj hkey, rfl⟩
    · rw [startOf?_enter_of_ne e a depth hsame] at hkey
      exact (h.starts key step hkey).append _
  · rw [lines_enter]
    exact h.refers.snoc (by simp)

theorem Tracks.announce (h : e.Tracks) (b : Block) (c : CallSite) :
    (e.announce a b c depth).Tracks := by
  rw [Emission.announce]
  cases conditionOf? c with
  | none => exact h.add (by simp) (by simp)
  | some text => exact (h.add (by simp) (by simp)).add (by simp) (by simp)

theorem Tracks.skip (h : e.Tracks) (c : CallSite) (status : Status) :
    (e.skip a c status depth).Tracks :=
  (((h.add (by simp) (by simp)).add (by simp) (by simp)).add (by simp)
    (by simp)).add (by simp) (by simp)

-- ============================================================ emission

/-- Inside the open methods an orderly piece is emitted, which tells `tale`
at a depth. -/
structure Adds (opened : List String) (depth : Nat)
    (tale : List (Mark ⊕ MethodKey)) (e e' : Emission) : Prop where
  tracks : e.Tracks → e'.Tracks
  emits : ∃ more, e'.lines.toList = e.lines.toList ++ more ∧
    Orderly opened more ∧ Tells depth tale more

variable {opened rest : List String} {tale tale' : List (Mark ⊕ MethodKey)}

theorem Adds.refl (opened : List String) (depth : Nat) (e : Emission) :
    Adds opened depth [] e e where
  tracks := id
  emits := ⟨[], by simp, orderly_nil opened, by simp, rfl⟩

/-- Two pieces that are added one after the other tell both tales. -/
theorem Adds.trans (h : Adds opened depth tale e e')
    (h' : Adds opened depth tale' e' e'') :
    Adds opened depth (tale ++ tale') e e'' where
  tracks := fun hpre => h'.tracks (h.tracks hpre)
  emits := by
    obtain ⟨more, hmore, horderly, htells⟩ := h.emits
    obtain ⟨more', hmore', horderly', htells'⟩ := h'.emits
    exact ⟨more ++ more', by rw [hmore', hmore, List.append_assoc],
      horderly.append horderly', htells.append htells'⟩

theorem Adds.foldl {α : Type} {step : Emission → α → Emission}
    {taleOf : α → List (Mark ⊕ MethodKey)} (xs : List α)
    (h : ∀ x e, Adds opened depth (taleOf x) e (step e x)) (e : Emission) :
    Adds opened depth (xs.flatMap taleOf) e (xs.foldl step e) := by
  induction xs generalizing e with
  | nil => exact Adds.refl opened depth e
  | cons x xs ih => exact (h x e).trans (ih (step e x))

/-- One more line about the innermost method. -/
theorem adds_one {m : Mark} (hsource : m.source = a.display)
    (hkind : m.kind = .execution ∨ m.kind = .methodReturn)
    (hagain : ∀ a inner step, m = .again a inner step →
      e.startOf? inner.key = some step) :
    Adds (a.display :: rest) rest.length [m.said] e (e.add rest.length m) where
  tracks := by
    refine fun h => h.add ?_ hagain
    rintro a rfl
    simp [Mark.kind] at hkind
  emits := by
    refine ⟨_, lines_add .., orderly_one hsource ?_ ?_ ?_, tells_one ..⟩
    · rcases hkind with h | h <;> rw [h] <;> simp
    · rcases hkind with h | h <;> rw [h] <;> simp
    · rintro a b c rfl
      simp [Mark.kind] at hkind

section

variable (r : Registry) {trace : Analysis → Nat → Emission → Emission}
  (htrace : ∀ inner depth opened e, opened.length = depth + 1 →
    e.startOf? inner.key = none →
      Adds opened depth [] e (trace inner (depth + 1) e))

include htrace

/-- Looking into a call adds a piece that tells of its method. -/
theorem adds_enterCall (a : Analysis) (c : CallSite) (status : Status)
    (rest : List String) (e : Emission) :
    Adds (a.display :: rest) rest.length [.inr c.key] e
      (enterCall trace r e a c status rest.length) := by
  simp only [enterCall]
  split
  case h_1 inner hget =>
    have hkey : inner.key = c.key := Registry.get?_eq_some_key hget
    cases hstart : e.startOf? inner.key with
    | some step =>
      have hsaid : (Mark.again a inner step).said = .inr c.key :=
        congrArg Sum.inr hkey
      rw [← hsaid]
      refine adds_one rfl (.inr rfl) ?_
      rintro _ _ _ ⟨⟩
      exact hstart
    | none =>
      have hsaid : (Mark.back a inner).said = .inr c.key :=
        congrArg Sum.inr hkey
      rw [← hsaid]
      exact (htrace inner rest.length (a.display :: rest) e rfl hstart).trans
        (adds_one rfl (.inr rfl) (by simp))
  case h_2 =>
    exact ⟨fun h => h.skip c _, _, lines_skip .., orderly_skipLines ..,
      tells_skipLines ..⟩

/-- A call adds a piece that announces it and tells of its method. -/
theorem adds_traceCall (a : Analysis) (b : Block) (rest : List String)
    (c : CallSite) (e : Emission) :
    Adds (a.display :: rest) rest.length (callTale a b c) e
      (traceCall trace r a b rest.length e c) := by
  have hannounce : Adds (a.display :: rest) rest.length
      ((callScript a b c).map .inl) e (e.announce a b c rest.length) :=
    ⟨fun h => h.announce b c, _, lines_announce ..,
      orderly_announceLines .., tells_announceLines ..⟩
  simp only [traceCall]
  split
  case h_1 status hinto hstatus =>
    have hanswered : isAnswered c = true := by
      simp [isAnswered, hinto, hstatus]
    rw [callTale, if_pos hanswered]
    exact hannounce.trans (adds_enterCall r htrace a c status rest _)
  case h_2 hnot =>
    have hanswered : ¬ isAnswered c = true := by
      rw [isAnswered, Bool.and_eq_true, decide_eq_true_eq,
        Option.isSome_iff_exists]
      rintro ⟨hinto, status, hstatus⟩
      exact hnot status hinto hstatus
    rw [callTale, if_neg hanswered, List.append_nil]
    exact hannounce

theorem adds_traceBlock (a : Analysis) (rest : List String) (b : Block)
    (e : Emission) :
    Adds (a.display :: rest) rest.length (blockTale a b) e
      (traceBlock trace r a rest.length e b) := by
  have hblock : Adds (a.display :: rest) rest.length [.inl (.block a b)] e
      (e.add rest.length (.block a b)) :=
    adds_one (m := .block a b) rfl (.inl rfl) (by simp)
  exact hblock.trans (Adds.foldl b.calls (adds_traceCall r htrace a b rest) _)

/-- What is emitted between the start of a method and its end. -/
theorem adds_blocks (a : Analysis) (rest : List String) (e : Emission) :
    Adds (a.display :: rest) rest.length (Trace.tale a) e
      (a.blocks.foldl (traceBlock trace r a rest.length) e) :=
  Adds.foldl a.blocks (adds_traceBlock r htrace a rest) e

/-- A method as a whole, where it was not started before. -/
theorem adds_whole (hnew : e.startOf? a.key = none) (opened : List String) :
    let e' := a.blocks.foldl (traceBlock trace r a opened.length)
      (e.enter a opened.length) |>.add opened.length (.exit a)
    (e.Tracks → e'.Tracks) ∧ ∃ more,
      e'.lines.toList = e.lines.toList ++ more ∧ Orderly opened more ∧
        ∀ l ∈ more, opened.length ≤ l.depth := by
  have hinside := adds_blocks r htrace a opened (e.enter a opened.length)
  obtain ⟨inside, hlines, horderly, htells⟩ := hinside.emits
  refine ⟨fun h => ?_, _, ?_, horderly.enclose htells, ?_⟩
  · exact (hinside.tracks (h.enter hnew)).add (by simp) (by simp)
  · rw [lines_add, hlines, lines_enter]
    simp
  · intro l hl
    rcases List.mem_cons.1 hl with rfl | hl
    · exact Nat.le_refl _
    rcases List.mem_append.1 hl with hl | hl
    · exact htells.deep l hl
    · obtain rfl := List.mem_singleton.1 hl
      exact Nat.le_refl _

end

/-- Whatever fuel is left, the tracing of a method inside another one keeps
the order, and tells nothing at the depth of the other. -/
theorem adds_traceMethod (r : Registry) (fuel : Nat) :
    ∀ (inner : Analysis) (depth : Nat) (opened : List String)
      (e : Emission), opened.length = depth + 1 →
      e.startOf? inner.key = none →
        Adds opened depth [] e (traceMethod r fuel inner (depth + 1) e) := by
  induction fuel with
  | zero => exact fun _ depth opened e _ _ => Adds.refl opened depth e
  | succ fuel ih =>
    intro inner depth opened e hdepth hnew
    obtain ⟨htracks, more, hlines, horderly, hdeep⟩ :=
      adds_whole r ih hnew opened
    rw [hdepth] at htracks hlines hdeep
    exact ⟨htracks, more, hlines, horderly, tells_deeper hdeep⟩

end Emission

/-- The whole walkthrough is orderly, starts no method twice, and refers to
starts before. -/
theorem outline_orderly (r : Registry) (root : Analysis) :
    Orderly [] (outline r root) ∧ (entered (outline r root)).Nodup ∧
      Refers (outline r root) := by
  obtain ⟨htracks, more, hlines, horderly, -⟩ :=
    Emission.adds_whole (a := root) (e := {}) r
      (Emission.adds_traceMethod r r.length) rfl []
  have htracks := htracks Emission.tracks_empty
  have hmore : outline r root = more := hlines
  exact ⟨hmore ▸ horderly, htracks.once, htracks.refers⟩

-- ======================================================== walkthroughs

theorem numbers_writeLines (lines : List Line) :
    (writeLines lines).map (·.number) =
      (List.range' 1 lines.length).map Int.ofNat := by
  rw [← List.zipIdx_map_snd 1 lines, writeLines, List.map_map, List.map_map]
  rfl

/-- A line in the middle is the step of its number. -/
theorem writeLines_append (front : List Line) (l : Line)
    (behind : List Line) :
    writeLines (front ++ l :: behind) = writeLines front ++
      l.mark.toStep l.depth (front.length + 1) ::
        (behind.zipIdx (front.length + 2)).map
          fun (l, n) => l.mark.toStep l.depth n := by
  rw [writeLines, List.zipIdx_append, Nat.add_comm 1, List.zipIdx_cons,
    List.map_append, List.map_cons]
  rfl

/-- Where a step stands, its line stands. -/
theorem exists_of_writeLines {lines : List Line} {before after : List Step}
    {s : Step} (heq : writeLines lines = before ++ s :: after) :
    ∃ front l behind, lines = front ++ l :: behind ∧
      before = writeLines front ∧
        s = l.mark.toStep l.depth (front.length + 1) := by
  have hlength : lines.length = before.length + (after.length + 1) := by
    simpa [writeLines] using congrArg List.length heq
  have hlt : before.length < lines.length := by omega
  have hlines : lines = lines.take before.length ++
      lines[before.length] :: lines.drop (before.length + 1) := by
    rw [← List.drop_eq_getElem_cons hlt, List.take_append_drop]
  have hfront : (writeLines (lines.take before.length)).length =
      before.length := by
    simp only [writeLines, List.length_map, List.length_zipIdx,
      List.length_take]
    omega
  rw [hlines, writeLines_append] at heq
  obtain ⟨hbefore, hs⟩ := List.append_inj heq hfront
  exact ⟨_, _, _, hlines, hbefore.symm, (List.cons.inj hs).1.symm⟩

/-- A step of a walkthrough that depends on another one is a call, and the
other one, which stands right before it, states its condition. -/
theorem dependsOn_writeLines {lines : List Line} (h : Orderly [] lines)
    {before after : List Step} {s : Step} {step : Int}
    (heq : writeLines lines = before ++ s :: after)
    (hdepends : s.dependsOn = some step) :
    ∃ before' n depth a b c text,
      before = before' ++ [(Mark.condition a b text).toStep depth n] ∧
        s = (Mark.call a b c).toStep depth (n + 1) ∧ step = n := by
  obtain ⟨front, ⟨depth, m⟩, behind, rfl, rfl, rfl⟩ :=
    exists_of_writeLines heq
  simp only [Mark.toStep, Option.map_eq_some_iff] at hdepends
  obtain ⟨text, hcond, hstep⟩ := hdepends
  obtain ⟨c, hc, hcond⟩ := Option.bind_eq_some_iff.1 hcond
  cases m with
  | call a b c' =>
    obtain rfl := Option.some.inj hc
    obtain ⟨front', rfl⟩ :=
      (h.placed front _ behind rfl).conditioned a b c' text rfl hcond
    refine ⟨writeLines front', front'.length + 1, depth, a, b, c', text,
      writeLines_append front' _ [], ?_, ?_⟩
    · simp
    · simp at hstep
      omega
  | _ => cases hc

/-- Every walkthrough ends, and is well formed, whatever is registered. -/
theorem assemble_wellFormed (r : Registry) (root : Analysis) :
    (∀ fuel, r.length < fuel →
      (Emission.traceMethod r fuel root 0 {}).lines.toList =
        outline r root) ∧
    (assemble r root).map (·.number) =
      (List.range' 1 (assemble r root).length).map Int.ofNat ∧
    nesting (assemble r root) [] = some [] ∧
    (entered (outline r root)).Nodup ∧
    (∀ before depth a after,
      outline r root = before ++ ⟨depth, .enter a⟩ :: after →
        ∃ inside after', after = inside ++ ⟨depth, .exit a⟩ :: after' ∧
          (∀ l ∈ inside, depth ≤ l.depth) ∧ saidAt depth inside = tale a) ∧
    (∀ before s after (step : Int), assemble r root = before ++ s :: after →
      s.dependsOn = some step → ∃ before' n depth a b c text,
        before = before' ++ [(Mark.condition a b text).toStep depth n] ∧
          s = (Mark.call a b c).toStep depth (n + 1) ∧ step = n) ∧
    (∀ before depth a inner step after,
      outline r root = before ++ ⟨depth, .again a inner step⟩ :: after →
        ∃ before' depth' a' after',
          before = before' ++ ⟨depth', .enter a'⟩ :: after' ∧
            before'.length + 1 = step ∧ a'.key = inner.key) := by
  obtain ⟨horderly, honce, hrefers⟩ := outline_orderly r root
  refine ⟨fun fuel hfuel => Emission.outline_eq_of_fuel r root hfuel, ?_, ?_,
    honce, ?_, ?_, hrefers⟩
  · rw [assemble, numbers_writeLines, writeLines, List.length_map,
      List.length_zipIdx]
  · exact (nesting_writeLines _ _).trans horderly.nested
  · intro before depth a after heq
    obtain ⟨inside, after', hafter, hdeep, hsaid⟩ :=
      (horderly.placed before _ after heq).ended a rfl
    exact ⟨inside, after', hafter, hdeep, hsaid⟩
  · intro before s after step heq hdepends
    exact dependsOn_writeLines horderly heq hdepends

-- ============================================================ a circle

/-- A call that was expanded. -/
def expandedCall (target : MethodKey) (condition : Option String) :
    CallSite where
  targetType := target.typeName
  targetMethod := target.methodName
  decision := .stepInto
  condition := condition
  innerStatus := some .complete

def callBlock (c : CallSite) : Block where
  id := "block-1"
  description := "hands on"
  calls := [c]

/-- A method with one call. -/
def caller (key : MethodKey) (c : CallSite) : Analysis where
  typeName := key.typeName
  methodName := key.methodName
  status := .complete
  blocks := [callBlock c]
  createdAt := .zero

def pingCall : CallSite := expandedCall ⟨"B", "pong"⟩ (some "ready")
def ping : Analysis := caller ⟨"A", "ping"⟩ pingCall
def pong : Analysis := caller ⟨"B", "pong"⟩ (expandedCall ⟨"A", "ping"⟩ none)

/-- Two methods that call each other. -/
def circle : Registry := [ping, pong]

/-- Two methods that call each other: the walkthrough nests the second in
the first and refers back to it. -/
theorem assemble_wellFormed_circle :
    (Emission.traceMethod circle 5 ping 0 {}).lines.toList =
      outline circle ping ∧
    (∃ inside after',
      (outline circle ping).drop 1 =
        inside ++ ⟨0, .exit ping⟩ :: after' ∧
      (∀ l ∈ inside, 0 ≤ l.depth) ∧ saidAt 0 inside = tale ping) ∧
    (∃ before' n depth a b c text,
      (assemble circle ping).take 3 =
        before' ++ [(Mark.condition a b text).toStep depth n] ∧
      (Mark.call ping (callBlock pingCall) pingCall).toStep 0 4 =
        (Mark.call a b c).toStep depth (n + 1) ∧ (3 : Int) = n) ∧
    ∃ before' depth' a' after',
      (outline circle ping).take 7 =
        before' ++ ⟨depth', .enter a'⟩ :: after' ∧
      before'.length + 1 = 1 ∧ a'.key = ping.key := by
  obtain ⟨hfuel, -, -, -, hended, hdepends, hagain⟩ :=
    assemble_wellFormed circle ping
  refine ⟨hfuel 5 (by decide), hended [] 0 ping _ (by decide +kernel), ?_, ?_⟩
  · exact hdepends _ _ ((assemble circle ping).drop 4) 3 (by decide +kernel)
      (by decide +kernel)
  · exact hagain _ 1 pong ping 1 ((outline circle ping).drop 8)
      (by decide +kernel)

end CallTrace.Trace
