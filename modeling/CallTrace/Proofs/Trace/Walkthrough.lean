/-
What the lines of a walkthrough tell about methods.

A method that is traced in full has a stretch of lines, from its start to
its end. At its own depth the stretch holds, besides the returns from the
methods it calls, what the method itself has to say: each of its blocks,
followed by the calls in it. Everything else in the stretch lies deeper.

The order in which a run entered methods, each with its depth, tells which
method called which: the caller of a method is the last one before it that
is one level up.
-/
import CallTrace.Proofs.Trace.Emission

namespace CallTrace.Trace

-- ============================================================= scripts

/-- What is said at a call before it is looked into. -/
def callScript (a : Analysis) (b : Block) (c : CallSite) : List Mark :=
  (conditionOf? c).toList.map (.condition a b) ++ [.call a b c]

/-- What is said in a block, the methods it calls left out. -/
def blockScript (a : Analysis) (b : Block) : List Mark :=
  .block a b :: b.calls.flatMap (callScript a b)

/-- What is said in a method, the methods it calls left out. -/
def script (a : Analysis) : List Mark := a.blocks.flatMap (blockScript a)

theorem announceLines_eq (a : Analysis) (b : Block) (c : CallSite)
    (depth : Nat) :
    announceLines a b c depth = (callScript a b c).map (⟨depth, ·⟩) := by
  rw [announceLines, callScript, List.map_append, List.map_map]
  rfl

/-- The return from a call. -/
def Mark.isReturn : Mark → Bool
  | back .. | again .. | skipBack .. => true
  | _ => false

/-- What the lines say at a depth, but for returns. -/
def ownMarks (depth : Nat) (lines : List Line) : List Mark :=
  (lines.filter fun l => l.depth = depth && !l.mark.isReturn).map (·.mark)

@[simp] theorem ownMarks_append (depth : Nat) (lines more : List Line) :
    ownMarks depth (lines ++ more) =
      ownMarks depth lines ++ ownMarks depth more := by
  simp [ownMarks]

theorem ownMarks_deeper {depth : Nat} {lines : List Line}
    (h : ∀ l ∈ lines, depth < l.depth) : ownMarks depth lines = [] := by
  rw [ownMarks, List.map_eq_nil_iff, List.filter_eq_nil_iff]
  intro l hl
  have := h l hl
  simp only [Bool.and_eq_true, decide_eq_true_eq, not_and]
  omega

/-- Announcing a call says at its depth what the script of the call says.
-/
@[simp] theorem ownMarks_announceLines (a : Analysis) (b : Block)
    (c : CallSite) (depth : Nat) :
    ownMarks depth (announceLines a b c depth) = callScript a b c := by
  have hown : ∀ m ∈ callScript a b c, m.isReturn = false := by
    intro m hm
    rcases List.mem_append.1 hm with hm | hm
    · obtain ⟨text, -, rfl⟩ := List.mem_map.1 hm
      rfl
    · rw [List.mem_singleton.1 hm]
      rfl
  rw [announceLines_eq, ownMarks, List.filter_eq_self.2]
  · rw [List.map_map]
    exact List.map_id _
  · intro l hl
    obtain ⟨m, hm, rfl⟩ := List.mem_map.1 hl
    simp [hown m hm]

@[simp] theorem ownMarks_skipLines (a : Analysis) (c : CallSite)
    (status : Status) (depth : Nat) :
    ownMarks depth (skipLines a c status depth) = [] := by
  simp [skipLines, ownMarks, Mark.isReturn]

-- ============================================================= stretches

/-- The lines hold the whole of a method at a depth: its start, what it
says itself in order and the methods it calls deeper down, and its end. -/
def TracedInFull (lines : List Line) (a : Analysis) (depth : Nat) : Prop :=
  ∃ before inside after,
    lines = before ++ ⟨depth, .enter a⟩ ::
      (inside ++ ⟨depth, .exit a⟩ :: after) ∧
    (∀ l ∈ inside, depth ≤ l.depth) ∧ ownMarks depth inside = script a

theorem TracedInFull.within {lines : List Line} {a : Analysis} {depth : Nat}
    (h : TracedInFull lines a depth) (before after : List Line) :
    TracedInFull (before ++ (lines ++ after)) a depth := by
  obtain ⟨front, inside, behind, rfl, hdeep, hown⟩ := h
  exact ⟨before ++ front, inside, behind ++ after, by simp, hdeep, hown⟩

/-- The complete methods that are started in the lines, with the depths at
which they are. -/
def startsIn (lines : List Line) : List (MethodKey × Int) :=
  lines.filterMap fun l =>
    match l.mark with
    | .enter a =>
      if a.status = .complete then some (a.key, (l.depth : Int)) else none
    | _ => none

@[simp] theorem startsIn_append (lines more : List Line) :
    startsIn (lines ++ more) = startsIn lines ++ startsIn more :=
  List.filterMap_append

@[simp] theorem startsIn_announceLines (a : Analysis) (b : Block)
    (c : CallSite) (depth : Nat) :
    startsIn (announceLines a b c depth) = [] := by
  rw [announceLines]
  cases conditionOf? c <;> rfl

@[simp] theorem startsIn_skipLines (a : Analysis) (c : CallSite)
    (status : Status) (depth : Nat) :
    startsIn (skipLines a c status depth) = [] := rfl

/-- How many calls the lines skip because of a status. -/
def skips (status : Status) (lines : List Line) : Nat :=
  lines.countP fun l =>
    match l.mark with
    | .skip _ s => s = status
    | _ => false

@[simp] theorem skips_append (status : Status) (lines more : List Line) :
    skips status (lines ++ more) = skips status lines + skips status more :=
  List.countP_append

@[simp] theorem skips_announceLines (status : Status) (a : Analysis)
    (b : Block) (c : CallSite) (depth : Nat) :
    skips status (announceLines a b c depth) = 0 := by
  rw [announceLines]
  cases conditionOf? c <;> rfl

theorem skips_skipLines (status s : Status) (a : Analysis) (c : CallSite)
    (depth : Nat) :
    skips status (skipLines a c s depth) = if s = status then 1 else 0 := by
  by_cases h : s = status <;> simp [skips, skipLines, h]

-- ============================================================= callers

/-- In the order in which methods were entered with their depths, `p` at a
depth is the caller of `k`: it is the last one before it that is one level
up. -/
def Nested (starts : List (MethodKey × Int)) (p : MethodKey) (depth : Int)
    (k : MethodKey) : Prop :=
  ∃ before between after,
    starts = before ++ (p, depth) ::
      (between ++ (k, depth + 1) :: after) ∧
    ∀ e ∈ between, depth < e.2

theorem Nested.within {starts : List (MethodKey × Int)} {p k : MethodKey}
    {depth : Int} (h : Nested starts p depth k)
    (before after : List (MethodKey × Int)) :
    Nested (before ++ (starts ++ after)) p depth k := by
  obtain ⟨front, between, behind, rfl, hdeep⟩ := h
  exact ⟨before ++ front, between, behind ++ after, by simp, hdeep⟩

/-- In that order one method is entered from another. -/
def Enters (starts : List (MethodKey × Int)) (p k : MethodKey) : Prop :=
  ∃ depth, Nested starts p depth k

/-- A call that is entered in a stretch of the starts is entered in all of
them. -/
theorem Enters.within {starts starts' : List (MethodKey × Int)}
    {p k : MethodKey} (h : Enters starts p k) (hin : starts <:+: starts') :
    Enters starts' p k := by
  obtain ⟨depth, hnested⟩ := h
  obtain ⟨before, after, rfl⟩ := hin
  exact ⟨depth, List.append_assoc .. ▸ hnested.within before after⟩

/-- What a method calls in between does not change what it calls later. -/
theorem Nested.insert {q p k : MethodKey} {d depth : Int}
    {more starts : List (MethodKey × Int)}
    (h : Nested ((q, d) :: starts) p depth k)
    (hmore : ∀ e ∈ more, d < e.2) :
    Nested ((q, d) :: (more ++ starts)) p depth k := by
  obtain ⟨before, between, after, heq, hdeep⟩ := h
  cases before with
  | nil =>
    obtain ⟨hhead, rfl⟩ := List.cons.inj heq
    obtain ⟨rfl, rfl⟩ := Prod.mk.inj hhead
    refine ⟨[], more ++ between, after, by simp, fun e he => ?_⟩
    rcases List.mem_append.1 he with he | he
    · exact hmore e he
    · exact hdeep e he
  | cons f before =>
    obtain ⟨rfl, rfl⟩ := List.cons.inj heq
    exact ⟨(q, d) :: (more ++ before), between, after, by simp, hdeep⟩

/-- The start of `a` at a depth, with the lines before it: it stands right
after a call of it, by its caller, and of all calls in the caller to it
that are stepped into this is the first. -/
def EnteredBy (starts : List (MethodKey × Int)) (before : List Line)
    (a : Analysis) (depth : Nat) : Prop :=
  ∃ earlier p b c n,
    before = earlier ++ [⟨n, .call p b c⟩] ∧ depth = n + 1 ∧
    c.decision = .stepInto ∧ c.key = a.key ∧
    Nested starts p.key n a.key ∧
    ∀ l ∈ earlier, ∀ p' b' c', l.mark = .call p' b' c' →
      p'.key = p.key → c'.decision = .stepInto → c'.key ≠ a.key

section

variable {starts : List (MethodKey × Int)} {before : List Line}
  {a : Analysis} {n : Nat}

/-- The caller is among the methods that were entered. -/
theorem EnteredBy.caller_mem (h : EnteredBy starts before a n) :
    ∃ p, p ∈ starts.map (·.1) ∧ ∀ more : List Line,
      (∀ l ∈ more, ∀ p' b' c', l.mark = .call p' b' c' → p'.key = p →
        c'.decision = .stepInto → c'.key ≠ a.key) →
      EnteredBy starts (more ++ before) a n := by
  obtain ⟨earlier, p, b, c, m, rfl, hn, hinto, hkey, hnested, hfirst⟩ := h
  refine ⟨p.key, ?_, fun more hmore => ?_⟩
  · obtain ⟨front, between, behind, rfl, -⟩ := hnested
    simp
  · refine ⟨more ++ earlier, p, b, c, m, (List.append_assoc ..).symm, hn,
      hinto, hkey, hnested, fun l hl => ?_⟩
    rcases List.mem_append.1 hl with hl | hl
    · exact hmore l hl
    · exact hfirst l hl

/-- Lines may come before if no call in them, of a method that was entered
by then, is one of `a`. -/
theorem EnteredBy.after (h : EnteredBy starts before a n) (more : List Line)
    (hmore : ∀ l ∈ more, ∀ p' b' c', l.mark = .call p' b' c' →
      p'.key ∈ starts.map (·.1) → c'.decision = .stepInto →
      c'.key ≠ a.key) : EnteredBy starts (more ++ before) a n := by
  obtain ⟨p, hp, hafter⟩ := h.caller_mem
  refine hafter more fun l hl p' b' c' hmark hkey => ?_
  exact hmore l hl p' b' c' hmark (hkey ▸ hp)

theorem EnteredBy.mono {starts' : List (MethodKey × Int)}
    (h : EnteredBy starts before a n)
    (hnested : ∀ p depth, Nested starts p depth a.key →
      Nested starts' p depth a.key) : EnteredBy starts' before a n := by
  obtain ⟨earlier, p, b, c, m, hbefore, hn, hinto, hkey, hp, hfirst⟩ := h
  exact ⟨earlier, p, b, c, m, hbefore, hn, hinto, hkey, hnested _ _ hp,
    hfirst⟩

end

-- ============================================================ positions

/-- What is not among the first lines comes behind them. -/
theorem exists_of_append_eq {xs ys before after : List Line} {l : Line}
    (h : xs ++ ys = before ++ l :: after) (hl : l ∉ xs) :
    ∃ before', before = xs ++ before' ∧ ys = before' ++ l :: after := by
  rcases List.append_eq_append_iff.1 h with ⟨zs, rfl, hys⟩ | ⟨zs, rfl, hl'⟩
  · exact ⟨zs, rfl, hys⟩
  · cases zs with
    | nil => exact ⟨[], by simp, by simpa using hl'.symm⟩
    | cons z zs =>
      refine absurd ?_ hl
      rw [(List.cons.inj hl').1]
      simp

theorem not_enter_announceLines {p : Analysis} {b : Block} {c : CallSite}
    {d : Nat} (n : Nat) (a : Analysis) :
    (⟨n, .enter a⟩ : Line) ∉ announceLines p b c d := by
  rw [announceLines]
  cases conditionOf? c <;> simp

theorem not_enter_skipLines {p : Analysis} {c : CallSite} {status : Status}
    {d : Nat} (n : Nat) (a : Analysis) :
    (⟨n, .enter a⟩ : Line) ∉ skipLines p c status d := by
  simp [skipLines]

/-- The call that is announced is the only one. -/
theorem call_of_mem_announceLines {p p' : Analysis} {b b' : Block}
    {c c' : CallSite} {d : Nat} {l : Line} (h : l ∈ announceLines p b c d)
    (hmark : l.mark = .call p' b' c') : p' = p ∧ c' = c := by
  simp only [announceLines, List.mem_append, List.mem_map,
    List.mem_singleton] at h
  rcases h with ⟨text, -, rfl⟩ | rfl
  · cases hmark
  · cases hmark
    exact ⟨rfl, rfl⟩

theorem not_call_of_mem_skipLines {p p' : Analysis} {b' : Block}
    {c c' : CallSite} {status : Status} {d : Nat} {l : Line}
    (h : l ∈ skipLines p c status d) : l.mark ≠ .call p' b' c' := by
  simp only [skipLines, List.mem_cons, List.not_mem_nil, or_false] at h
  rcases h with rfl | rfl | rfl | rfl <;> simp

end CallTrace.Trace
