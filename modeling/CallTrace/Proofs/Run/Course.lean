/-
The course of tracing the calls of a description.

A tour records what became of each call, in the order in which the calls
were met: it was passed over, answered by a leaf, entered and not
described, or entered and described, and then it has a tour of its own
inside. What the walkthrough of a run will look like, which methods are
entered and in which order they are registered can be read off a tour, so
statements about a whole run are inductions over its tour.

`Course` says that a tour is just what a run does from one state to
another, whatever lies in the store. It holds calls that are left over in
the block under way and the blocks after it. The root of a run is toured as
the only call of nobody, one level above the outermost depth, so that
nothing has to be said about it twice.
-/
import CallTrace.Proofs.Run.Bare
import CallTrace.Run.Expand

namespace CallTrace.Run

open Number (Double)

variable {σ : Type}

-- =============================================================== tours

/-- What became of calls, in order. -/
inductive Tour where
  | done
  /-- The next block is taken up. -/
  | block (b : Block) (rest : Tour)
  /-- The call is not stepped into. -/
  | passed (c : CallSite) (rest : Tour)
  /-- The call is answered without entering the method. -/
  | leaf (c : CallSite) (a : Analysis) (rest : Tour)
  /-- The method is entered and no description comes of it. -/
  | failed (c : CallSite) (a : Analysis) (rest : Tour)
  /-- The method is entered and described by `b`, whose calls are toured
  in turn. -/
  | entered (c : CallSite) (b : Analysis) (inside rest : Tour)

/-- The note about an expanded call. -/
def notesOf (a : Analysis) : List String :=
  if a.status = .complete then [innerSummary a] else []

namespace Tour

/-- The calls left over in the block under way, the notes about them, and
the blocks after it, with what the tour has found out. -/
def results : Tour → List CallSite × List String × List Block
  | done => ([], [], [])
  | block b rest =>
    ([], [], enrichBlock b rest.results.1 rest.results.2.1 ::
      rest.results.2.2)
  | passed c rest => (c :: rest.results.1, rest.results.2)
  | leaf c a rest | failed c a rest =>
    (enrichCall c a :: rest.results.1, notesOf a ++ rest.results.2.1,
      rest.results.2.2)
  | entered c b inside rest =>
    let a := enrich b inside.results.2.2
    (enrichCall c a :: rest.results.1, notesOf a ++ rest.results.2.1,
      rest.results.2.2)

def calls (T : Tour) : List CallSite := T.results.1

def notes (T : Tour) : List String := T.results.2.1

def blocks (T : Tour) : List Block := T.results.2.2

end Tour

/-- The analysis of a method that was entered, from its description and
the tour of its calls. -/
def expanded (b : Analysis) (inside : Tour) : Analysis :=
  enrich b inside.blocks

theorem key_expanded {key : MethodKey} {b : Analysis} (hb : b.Bare key)
    (inside : Tour) : (expanded b inside).key = key := hb.key

theorem status_expanded {key : MethodKey} {b : Analysis} (hb : b.Bare key)
    (inside : Tour) : (expanded b inside).status = .complete := hb.status

namespace Tour

@[simp] theorem calls_done : done.calls = [] := rfl

@[simp] theorem calls_block (b : Block) (rest : Tour) :
    (block b rest).calls = [] := rfl

@[simp] theorem calls_passed (c : CallSite) (rest : Tour) :
    (passed c rest).calls = c :: rest.calls := rfl

@[simp] theorem calls_leaf (c : CallSite) (a : Analysis) (rest : Tour) :
    (leaf c a rest).calls = enrichCall c a :: rest.calls := rfl

@[simp] theorem calls_failed (c : CallSite) (a : Analysis) (rest : Tour) :
    (failed c a rest).calls = enrichCall c a :: rest.calls := rfl

@[simp] theorem calls_entered (c : CallSite) (b : Analysis)
    (inside rest : Tour) : (entered c b inside rest).calls =
      enrichCall c (expanded b inside) :: rest.calls := rfl

@[simp] theorem blocks_done : done.blocks = [] := rfl

@[simp] theorem blocks_block (b : Block) (rest : Tour) :
    (block b rest).blocks =
      enrichBlock b rest.calls rest.notes :: rest.blocks := rfl

@[simp] theorem blocks_passed (c : CallSite) (rest : Tour) :
    (passed c rest).blocks = rest.blocks := rfl

@[simp] theorem blocks_leaf (c : CallSite) (a : Analysis) (rest : Tour) :
    (leaf c a rest).blocks = rest.blocks := rfl

@[simp] theorem blocks_failed (c : CallSite) (a : Analysis) (rest : Tour) :
    (failed c a rest).blocks = rest.blocks := rfl

@[simp] theorem blocks_entered (c : CallSite) (b : Analysis)
    (inside rest : Tour) :
    (entered c b inside rest).blocks = rest.blocks := rfl

/-- All calls with what the tour has found out, those left over in the
block under way first. -/
def made (T : Tour) : List CallSite :=
  T.calls ++ T.blocks.flatMap (·.calls)

@[simp] theorem made_done : done.made = [] := rfl

/-- Notes about calls go into the narrative of a block. -/
@[simp] theorem calls_enrichBlock (b : Block) (calls : List CallSite)
    (notes : List String) : (enrichBlock b calls notes).calls = calls := by
  rw [enrichBlock]
  split <;> rfl

@[simp] theorem made_block (b : Block) (rest : Tour) :
    (block b rest).made = rest.made := by
  rw [made, calls_block, blocks_block, List.flatMap_cons, calls_enrichBlock,
    made]
  rfl

@[simp] theorem made_passed (c : CallSite) (rest : Tour) :
    (passed c rest).made = c :: rest.made := rfl

@[simp] theorem made_leaf (c : CallSite) (a : Analysis) (rest : Tour) :
    (leaf c a rest).made = enrichCall c a :: rest.made := rfl

@[simp] theorem made_failed (c : CallSite) (a : Analysis) (rest : Tour) :
    (failed c a rest).made = enrichCall c a :: rest.made := rfl

@[simp] theorem made_entered (c : CallSite) (b : Analysis)
    (inside rest : Tour) : (entered c b inside rest).made =
      enrichCall c (expanded b inside) :: rest.made := rfl

end Tour

-- ============================================================= states

namespace Tracer

/-- The state with a method entered, and the listener told. -/
def opened (t : Tracer σ) (f : Frame) (s : State σ) : State σ :=
  let s := { s with session := s.session.enter f }
  s.heard (t.inform (.started f.key f.depth) s.world.outside)

/-- The state with what has come of a method registered, the listener told
if it is to be, and the method left. -/
def closed (t : Tracer σ) (f : Frame) (a : Analysis) (told : Bool)
    (s : State σ) : State σ :=
  let s := { s with session := s.session.register a }
  let s := if told then
      s.heard (t.inform (.completed f.key f.depth a.status) s.world.outside)
    else s
  { s with session := s.session.pop }

section

variable (t : Tracer σ) (f : Frame) (a : Analysis) (told : Bool)
  (s : State σ)

@[simp] theorem opened_limits :
    (t.opened f s).session.limits = s.session.limits := rfl

@[simp] theorem opened_stack :
    (t.opened f s).session.stack = f :: s.session.stack := rfl

@[simp] theorem opened_visited :
    (t.opened f s).session.visited = f.key :: s.session.visited := rfl

@[simp] theorem opened_registry :
    (t.opened f s).session.registry = s.session.registry := rfl

@[simp] theorem opened_analyzed :
    (t.opened f s).session.analyzed = s.session.analyzed + 1 := rfl

@[simp] theorem opened_oracleCalls :
    (t.opened f s).session.oracleCalls = s.session.oracleCalls := rfl

@[simp] theorem opened_store :
    (t.opened f s).world.store = s.world.store := rfl

@[simp] theorem closed_limits :
    (t.closed f a told s).session.limits = s.session.limits := by
  cases told <;> rfl

@[simp] theorem closed_stack :
    (t.closed f a told s).session.stack = s.session.stack.tail := by
  cases told <;> rfl

@[simp] theorem closed_visited :
    (t.closed f a told s).session.visited = s.session.visited := by
  cases told <;> rfl

@[simp] theorem closed_registry :
    (t.closed f a told s).session.registry =
      s.session.registry.register a := by
  cases told <;> rfl

@[simp] theorem closed_analyzed :
    (t.closed f a told s).session.analyzed = s.session.analyzed := by
  cases told <;> rfl

@[simp] theorem closed_oracleCalls :
    (t.closed f a told s).session.oracleCalls = s.session.oracleCalls := by
  cases told <;> rfl

@[simp] theorem closed_store :
    (t.closed f a told s).world.store = s.world.store := by
  cases told <;> rfl

variable {t f a told s} in
theorem uncancelled_of_closed
    (h : (t.closed f a told s).session.cancelled = false) :
    s.session.cancelled = false := by
  cases told with
  | false => exact h
  | true => exact (Bool.or_eq_false_iff.1 h).1

end

end Tracer

/-- The method may be entered: it was not before, there are methods left
to spend, and its name can be looked for. -/
structure Enterable (s : Session) (key : MethodKey) : Prop where
  fresh : key ∉ s.visited
  room : s.analyzed < s.limits.maxMethods
  nameable : Source.isPlausible key.typeName key.methodName = true

/-- The answer for a method that is not entered: there is no level left, or
it is known without being entered. -/
def Unentered (levels : Nat) (s : State σ) (key : MethodKey)
    (a : Analysis) : Prop :=
  match levels with
  | 0 => a = .placeholder key .truncated depthReason s.timeOfDay
  | _ + 1 => Tracer.known? s.session key (fun status reason =>
      .placeholder key status reason s.timeOfDay) = some a

/-- The leaf of a method of which there is no description. -/
def IsLeaf (key : MethodKey) (a : Analysis) : Prop :=
  ∃ status reason now, status ≠ .complete ∧
    a = .placeholder key status reason now

theorem IsLeaf.key {key : MethodKey} {a : Analysis} (h : IsLeaf key a) :
    a.key = key := by
  obtain ⟨status, reason, now, -, rfl⟩ := h
  rfl

theorem IsLeaf.status {key : MethodKey} {a : Analysis} (h : IsLeaf key a) :
    a.status ≠ .complete := by
  obtain ⟨status, reason, now, hs, rfl⟩ := h
  exact hs

theorem IsLeaf.calls {key : MethodKey} {a : Analysis} (h : IsLeaf key a) :
    a.calls = [] := by
  obtain ⟨status, reason, now, -, rfl⟩ := h
  rfl

/-- The method that a call leads to. -/
def frameOf (c : CallSite) (depth : Int) : Frame :=
  ⟨c.key, depth + 1, c.condition.isSome⟩

/-- A cancelled run looks into no call. It was to trace its root all the
same. -/
def Live (depth : Int) (s : State σ) : Prop :=
  depth = -1 ∨ s.session.cancelled = false

-- ================================================= what is known before

namespace Tracer

/-- Either a method may be entered, or there is an answer without
entering. -/
theorem known?_eq_none {s : Session} {key : MethodKey}
    {placeholder : Status → String → Analysis} :
    known? s key placeholder = none ↔ Enterable s key := by
  rw [known?]
  by_cases hv : s.visited.contains key
  · rw [if_pos hv]
    constructor
    · intro h
      split at h <;> exact absurd h (by simp)
    · exact fun h => absurd (List.contains_iff_mem.1 hv) h.fresh
  rw [if_neg hv]
  by_cases hm : s.limits.maxMethods ≤ s.analyzed
  · rw [if_pos hm]
    exact ⟨fun h => absurd h (by simp), fun h => absurd h.room (by omega)⟩
  rw [if_neg hm]
  by_cases hp : Source.isPlausible key.typeName key.methodName
  · rw [if_neg (by simp [hp])]
    refine ⟨fun _ => ⟨?_, by omega, hp⟩, fun _ => rfl⟩
    exact fun h => hv (List.contains_iff_mem.2 h)
  · rw [if_pos (by simpa using hp)]
    exact ⟨fun h => absurd h (by simp), fun h => absurd h.nameable hp⟩

end Tracer

/-- A name has no mark in it. -/
private theorem not_mem_of_isIdent {cs : List Char}
    (h : Text.isIdent cs = true) : '#' ∉ cs := by
  cases cs with
  | nil => exact List.not_mem_nil
  | cons c rest =>
    have hno : Text.isIdentRest '#' = false := by decide
    simp only [Text.isIdent, Bool.and_eq_true, List.all_eq_true] at h
    intro hmem
    rcases List.mem_cons.1 hmem with rfl | hmem
    · rw [Text.isIdentRest_of_isIdentStart h.1] at hno
      exact absurd hno (by simp)
    · rw [h.2 _ hmem] at hno
      exact absurd hno (by simp)

/-- A method name that may be looked for has no `#`. -/
theorem Enterable.isPlain {s : Session} {key : MethodKey}
    (h : Enterable s key) : key.IsPlain := by
  have hp := h.nameable
  simp only [Source.isPlausible, Text.upToFinalBreak, Bool.and_eq_true,
    Bool.or_eq_true, beq_iff_eq] at hp
  rcases hp.2 with hm | ⟨hlast, hm⟩
  · exact not_mem_of_isIdent hm
  · obtain ⟨front, hf⟩ := List.getLast?_eq_some_iff.1 hlast
    rw [MethodKey.IsPlain, hf]
    rw [hf, List.dropLast_concat] at hm
    simp [not_mem_of_isIdent hm]

-- ====================================================== runs are tours

namespace Tracer

variable {t : Tracer σ} {s s' : State σ}

/-- What comes of entering a method, one case for each outcome of
describing it. -/
theorem enter_run (t : Tracer σ) (f : Frame)
    (expand : Analysis → StateM (State σ) Analysis) (s : State σ) :
    t.enter f expand s =
      match t.base f.key (t.opened f s) with
      | (.error (.unresolved u), s) =>
        (.error u, t.closed f
          (.placeholder f.key .failed u.message s.timeOfDay) false s)
      | (.error failure, s) =>
        let a := .placeholder f.key .failed failure.message s.timeOfDay
        (.ok a, t.closed f a true s)
      | (.ok a, s) =>
        if a.status = .complete then
          (.ok (expand a s).1,
            t.closed f (expand a s).1 true (expand a s).2)
        else (.ok a, t.closed f a true s) := by
  have hrun : t.enter f expand s =
      (fun r : Outcome × State σ =>
          (r.1, { r.2 with session := r.2.session.pop }))
        (t.settle f expand (t.base f.key (t.opened f s)).1
          (t.base f.key (t.opened f s)).2) := rfl
  rw [hrun]
  rcases t.base f.key (t.opened f s) with ⟨e | a, s'⟩
  · cases e <;> rfl
  · by_cases ha : a.status = .complete
    · simp only [settle, ha, if_true]
      rfl
    · simp only [settle, ha, if_false]
      rfl

theorem traceCalls_pass {trace : CallSite → StateM (State σ) Analysis}
    {c : CallSite} (h : c.decision ≠ .stepInto ∨ s.session.cancelled = true)
    (rest : List CallSite) :
    traceCalls trace (c :: rest) s =
      ((c :: (traceCalls trace rest s).1.1, (traceCalls trace rest s).1.2),
        (traceCalls trace rest s).2) := by
  rw [traceCalls, stateM_get_bind, if_pos h]
  rfl

/-- A call that is stepped into takes what is found of it, and the rest
goes on from there. -/
theorem traceCalls_step {trace : CallSite → StateM (State σ) Analysis}
    {c : CallSite}
    (h : ¬(c.decision ≠ .stepInto ∨ s.session.cancelled = true))
    {a : Analysis} (ha : trace c s = (a, s')) (rest : List CallSite) :
    traceCalls trace (c :: rest) s =
      ((enrichCall c a :: (traceCalls trace rest s').1.1,
        notesOf a ++ (traceCalls trace rest s').1.2),
        (traceCalls trace rest s').2) := by
  rw [traceCalls, stateM_get_bind, if_neg h, stateM_bind_run, ha,
    stateM_bind_run, notesOf]
  by_cases hs : a.status = .complete
  · simp only [if_pos hs]
    rfl
  · simp only [if_neg hs]
    rfl

/-- The tour `T'` starts with what became of the call `c`, answered by
`a`, and goes on as `T`. -/
inductive Starts (c : CallSite) (a : Analysis) (T : Tour) : Tour → Prop where
  | leaf : Starts c a T (.leaf c a T)
  | failed : Starts c a T (.failed c a T)
  | entered {b : Analysis} {I : Tour} (h : a = expanded b I) :
    Starts c a T (.entered c b I T)

theorem Starts.calls {c : CallSite} {a : Analysis} {T T' : Tour}
    (h : Starts c a T T') : T'.calls = enrichCall c a :: T.calls := by
  cases h with
  | leaf | failed => rfl
  | entered h => rw [h]; rfl

theorem Starts.notes {c : CallSite} {a : Analysis} {T T' : Tour}
    (h : Starts c a T T') : T'.notes = notesOf a ++ T.notes := by
  cases h with
  | leaf | failed => rfl
  | entered h => rw [h]; rfl

theorem Starts.blocks {c : CallSite} {a : Analysis} {T T' : Tour}
    (h : Starts c a T T') : T'.blocks = T.blocks := by
  cases h <;> rfl

end Tracer

-- ============================================================= courses

/-- What is registered at the time `now` for a method of which describing
it gave no description, and whether the listener is told. -/
inductive Barren (key : MethodKey) (now : Double) :
    Except Failure Analysis → Analysis → Bool → Prop where
  | missing (u : Unresolved) :
    Barren key now (.error (.unresolved u))
      (.placeholder key .failed u.message now) false
  | failed {e : Failure} (he : ∀ u, e ≠ .unresolved u) :
    Barren key now (.error e) (.placeholder key .failed e.message now) true
  | leaf {a : Analysis} (ha : a.status ≠ .complete) :
    Barren key now (.ok a) a true

/-- With `levels` levels left, a run that traces the calls `cs` and the
blocks `bs` of a method at a depth comes from one state to another, by way
of a tour. -/
inductive Course (t : Tracer σ) : Nat → Int → List CallSite → List Block →
    State σ → Tour → State σ → Prop where
  | done {levels : Nat} {depth : Int} {s : State σ} :
    Course t levels depth [] [] s .done s
  | block {levels : Nat} {depth : Int} {b : Block} {bs : List Block}
      {s s' : State σ} {T : Tour}
      (rest : Course t levels depth b.calls bs s T s') :
    Course t levels depth [] (b :: bs) s (.block b T) s'
  | passed {levels : Nat} {depth : Int} {c : CallSite}
      {cs : List CallSite} {bs : List Block} {s s' : State σ} {T : Tour}
      (h : c.decision ≠ .stepInto ∨ s.session.cancelled = true)
      (rest : Course t levels depth cs bs s T s') :
    Course t levels depth (c :: cs) bs s (.passed c T) s'
  | leaf {levels : Nat} {depth : Int} {c : CallSite}
      {cs : List CallSite} {bs : List Block} {s s' : State σ} {T : Tour}
      {a : Analysis} (hc : c.decision = .stepInto) (hlive : Live depth s)
      (ha : Unentered levels s c.key a)
      (rest : Course t levels depth cs bs s T s') :
    Course t levels depth (c :: cs) bs s (.leaf c a T) s'
  | failed {levels : Nat} {depth : Int} {c : CallSite}
      {cs : List CallSite} {bs : List Block} {s s₁ s' : State σ} {T : Tour}
      {r : Except Failure Analysis} {a : Analysis} {told : Bool}
      (hc : c.decision = .stepInto) (hlive : Live depth s)
      (hnew : Enterable s.session c.key)
      (hbase : t.base c.key (t.opened (frameOf c depth) s) = (r, s₁))
      (ha : Barren c.key s₁.timeOfDay r a told)
      (rest : Course t (levels + 1) depth cs bs
        (t.closed (frameOf c depth) a told s₁) T s') :
    Course t (levels + 1) depth (c :: cs) bs s (.failed c a T) s'
  | entered {levels : Nat} {depth : Int} {c : CallSite}
      {cs : List CallSite} {bs : List Block} {s s₁ s₂ s' : State σ}
      {I T : Tour} {b : Analysis}
      (hc : c.decision = .stepInto) (hlive : Live depth s)
      (hnew : Enterable s.session c.key)
      (hbase : t.base c.key (t.opened (frameOf c depth) s) = (.ok b, s₁))
      (hcomplete : b.status = .complete)
      (inside : Course t levels (depth + 1) [] b.blocks s₁ I s₂)
      (rest : Course t (levels + 1) depth cs bs
        (t.closed (frameOf c depth) (expanded b I) true s₂) T s') :
    Course t (levels + 1) depth (c :: cs) bs s (.entered c b I T) s'

namespace Tracer

variable {t : Tracer σ} {s s' : State σ}

/-- From `s` to `s'` the call `c` is answered by `a`: every course from
`s'` on is one from `s` on, with the call before it. -/
def Answers (t : Tracer σ) (levels : Nat) (depth : Int) (c : CallSite)
    (s : State σ) (a : Analysis) (s' : State σ) : Prop :=
  ∀ cs bs T s'', Course t levels depth cs bs s' T s'' →
    ∃ T', Course t levels depth (c :: cs) bs s T' s'' ∧ Starts c a T T'

section

variable {levels : Nat} {depth : Int}
  {trace : CallSite → StateM (State σ) Analysis}
  (htrace : ∀ c s, c.decision = .stepInto → Live depth s →
    Answers t levels depth c s (trace c s).1 (trace c s).2)

include htrace

/-- Tracing calls and then touring blocks is a course. -/
theorem traceCalls_course (cs : List CallSite) :
    ∀ (s : State σ) bs T s'', T.calls = [] → T.notes = [] →
      Course t levels depth [] bs (traceCalls trace cs s).2 T s'' →
      ∃ T', Course t levels depth cs bs s T' s'' ∧
        T'.calls = (traceCalls trace cs s).1.1 ∧
        T'.notes = (traceCalls trace cs s).1.2 ∧
        T'.blocks = T.blocks := by
  induction cs with
  | nil => exact fun s bs T s'' hc hn hT => ⟨T, hT, hc, hn, rfl⟩
  | cons c rest ih =>
    intro s bs T s'' hc hn hT
    by_cases hpass : c.decision ≠ .stepInto ∨ s.session.cancelled = true
    · rw [traceCalls_pass hpass] at hT ⊢
      obtain ⟨T', hT', hcalls, hnotes, hblocks⟩ := ih s bs T s'' hc hn hT
      refine ⟨.passed c T', .passed hpass hT', ?_, hnotes, hblocks⟩
      rw [Tour.calls_passed, hcalls]
    · have hinto : c.decision = .stepInto :=
        Decidable.not_not.1 (not_or.1 hpass).1
      have hlive : Live depth s := .inr (by simpa using (not_or.1 hpass).2)
      rw [traceCalls_step hpass rfl] at hT ⊢
      obtain ⟨T', hT', hcalls, hnotes, hblocks⟩ := ih _ bs T s'' hc hn hT
      obtain ⟨T'', hT'', hstarts⟩ :=
        htrace c s hinto hlive rest bs T' s'' hT'
      refine ⟨T'', hT'', ?_, ?_, ?_⟩
      · rw [hstarts.calls, hcalls]
      · rw [hstarts.notes, hnotes]
      · rw [hstarts.blocks, hblocks]

/-- Tracing blocks is a course. -/
theorem traceBlocks_course (bs : List Block) :
    ∀ s : State σ,
      ∃ T, Course t levels depth [] bs s T (traceBlocks trace bs s).2 ∧
        T.calls = [] ∧ T.notes = [] ∧
        T.blocks = (traceBlocks trace bs s).1 := by
  induction bs with
  | nil => exact fun s => ⟨.done, .done, rfl, rfl, rfl⟩
  | cons b rest ih =>
    intro s
    obtain ⟨T, hT, hc, hn, hb⟩ := ih (traceCalls trace b.calls s).2
    obtain ⟨T', hT', hc', hn', hb'⟩ :=
      traceCalls_course htrace b.calls s rest T _ hc hn hT
    refine ⟨.block b T', .block hT', rfl, rfl, ?_⟩
    rw [Tour.blocks_block, hc', hn', hb', hb]
    rfl

end

/-- The analysis that an outcome gives to a caller. -/
def Gives (key : MethodKey) (r : Outcome) (s : State σ) (a : Analysis) :
    Prop :=
  match r with
  | .ok b => b = a
  | .error u => a = .placeholder key .failed u.message s.timeOfDay

theorem Gives.orLeaf {key : MethodKey} {r : Outcome} {a : Analysis}
    (h : Gives key r s a) : orLeaf key r s = (a, s) := by
  cases r with
  | ok b => rw [← h]; rfl
  | error u => rw [h]; rfl

/-- Entering a called method answers the call, when tracing the calls of a
description is a course. -/
theorem enter_answers (t : Tracer σ) {levels : Nat} {depth : Int}
    {c : CallSite} (hc : c.decision = .stepInto) {s : State σ}
    (hlive : Live depth s) (hnew : Enterable s.session c.key)
    {expand : Analysis → StateM (State σ) Analysis}
    (hexpand : ∀ b s', ∃ I,
      Course t levels (depth + 1) [] b.blocks s' I (expand b s').2 ∧
        (expand b s').1 = expanded b I) :
    ∃ a, Gives c.key (t.enter (frameOf c depth) expand s).1
        (t.enter (frameOf c depth) expand s).2 a ∧
      Answers t (levels + 1) depth c s a
        (t.enter (frameOf c depth) expand s).2 := by
  have hfailed : ∀ {r : Except Failure Analysis} {a : Analysis}
      {told : Bool} {s₁ : State σ},
      t.base c.key (t.opened (frameOf c depth) s) = (r, s₁) →
      Barren c.key s₁.timeOfDay r a told →
      Answers t (levels + 1) depth c s a
        (t.closed (frameOf c depth) a told s₁) :=
    fun hbase ha cs bs T s'' hT =>
      ⟨_, .failed hc hlive hnew hbase ha hT, .failed⟩
  rw [enter_run]
  have hkey : (frameOf c depth).key = c.key := rfl
  rw [hkey]
  rcases hr : t.base c.key (t.opened (frameOf c depth) s) with
    ⟨e | b, s₁⟩
  · cases e with
    | unresolved u => exact ⟨_, rfl, hfailed hr (.missing u)⟩
    | _ => exact ⟨_, rfl, hfailed hr (.failed fun u => by simp)⟩
  · dsimp only
    by_cases hb : b.status = .complete
    · rw [if_pos hb]
      obtain ⟨I, hI, ha⟩ := hexpand b s₁
      refine ⟨_, rfl, fun cs bs T s'' hT => ?_⟩
      rw [ha] at hT
      exact ⟨_, .entered hc hlive hnew hr hb hI hT, .entered ha⟩
    · rw [if_neg hb]
      exact ⟨b, rfl, hfailed hr (.leaf hb)⟩

/-- Tracing a called method answers the call. -/
theorem trace_answers (t : Tracer σ) (levels : Nat) :
    ∀ (c : CallSite) (depth : Int) (s : State σ), c.decision = .stepInto →
      Live depth s →
      ∃ a, Gives c.key (t.trace levels (frameOf c depth) s).1
          (t.trace levels (frameOf c depth) s).2 a ∧
        Answers t levels depth c s a
          (t.trace levels (frameOf c depth) s).2 := by
  induction levels with
  | zero =>
    intro c depth s hc hlive
    exact ⟨_, rfl, fun cs bs T s'' hT =>
      ⟨.leaf c _ T, .leaf hc hlive rfl hT, .leaf⟩⟩
  | succ levels ih =>
    intro c depth s hc hlive
    rw [trace, stateM_get_bind]
    rcases hk : known? s.session (frameOf c depth).key fun st reason =>
      .placeholder (frameOf c depth).key st reason s.timeOfDay with _ | a
    · dsimp only
      refine t.enter_answers hc hlive (known?_eq_none.1 hk) ?_
      intro b s'
      have hcalls : ∀ (c : CallSite) (s : State σ),
          c.decision = .stepInto → Live (depth + 1) s →
          Answers t levels (depth + 1) c s
            ((t.trace levels (frameOf c (depth + 1)) >>=
              orLeaf c.key) s).1
            ((t.trace levels (frameOf c (depth + 1)) >>=
              orLeaf c.key) s).2 := by
        intro c s hc hlive
        obtain ⟨a, hgives, hans⟩ := ih c (depth + 1) s hc hlive
        rw [stateM_bind_run, hgives.orLeaf]
        exact hans
      obtain ⟨I, hI, -, -, hb⟩ := traceBlocks_course hcalls b.blocks s'
      exact ⟨I, hI, congrArg (enrich b) hb.symm⟩
    · exact ⟨a, rfl, fun cs bs T s'' hT =>
        ⟨.leaf c a T, .leaf hc hlive hk hT, .leaf⟩⟩

/-- Tracing a called method is the course of its call. -/
theorem trace_course (t : Tracer σ) (levels : Nat) {c : CallSite}
    {depth : Int} {s : State σ} (hc : c.decision = .stepInto)
    (hlive : Live depth s) :
    ∃ a T, Course t levels depth [c] [] s T
        (t.trace levels (frameOf c depth) s).2 ∧
      Starts c a .done T ∧
      Gives c.key (t.trace levels (frameOf c depth) s).1
        (t.trace levels (frameOf c depth) s).2 a := by
  obtain ⟨a, hgives, hans⟩ := t.trace_answers levels c depth s hc hlive
  obtain ⟨T, hT, hstarts⟩ := hans [] [] .done _ .done
  exact ⟨a, T, hT, hstarts, hgives⟩

/-- The call that stands for the request to trace the root. -/
def rootCall (key : MethodKey) : CallSite where
  targetType := key.typeName
  targetMethod := key.methodName
  decision := .stepInto

/-- The state at the end of a run, from the state after the root was
traced. -/
def concluded (r : Outcome) (s : State σ) : State σ :=
  let s := { s with session.finished := true }
  match r with
  | .ok root =>
    { s with session.steps := Trace.assemble s.session.registry root }
  | .error _ => s

/-- A run traces its root with all levels left, and concludes. -/
theorem run_eq (t : Tracer σ) (s : State σ) :
    t.run s =
      (fun r : Outcome × State σ => (r.1, concluded r.1 r.2))
        (t.trace (s.session.limits.maxDepth + 1)
          (frameOf (rootCall s.session.root) (-1)) s) := by
  have hlevels : levelsAt s.session.limits 0 =
      s.session.limits.maxDepth + 1 := by
    rw [levelsAt]
    omega
  rw [← hlevels, run, stateM_get_bind, stateM_bind_run, traceAt,
    stateM_get_bind]
  rcases ht : t.trace (levelsAt s.session.limits 0)
    (frameOf (rootCall s.session.root) (-1)) s with ⟨r, s'⟩
  have ht' : t.trace (levelsAt s.session.limits 0)
    ⟨s.session.root, 0, false⟩ s = (r, s') := ht
  rw [ht']
  cases r <;> rfl

/-- A run is the course of the call that stands for its root. -/
theorem run_course (t : Tracer σ) (s : State σ) :
    ∃ T a s', Course t (s.session.limits.maxDepth + 1) (-1)
        [rootCall s.session.root] [] s T s' ∧
      Starts (rootCall s.session.root) a .done T ∧
      Gives s.session.root (t.run s).1 s' a ∧
      (t.run s).2 = concluded (t.run s).1 s' := by
  obtain ⟨a, T, hT, hstarts, hgives⟩ :=
    t.trace_course (s.session.limits.maxDepth + 1)
      (c := rootCall s.session.root) (s := s) rfl (.inl rfl)
  rw [run_eq]
  exact ⟨T, a, _, hT, hstarts, hgives, rfl⟩

end Tracer

end CallTrace.Run
