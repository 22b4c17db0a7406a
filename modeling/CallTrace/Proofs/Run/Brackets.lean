/-
What a listener hears of a run is bracketed.

The listener is told when a method is entered and when it is left. In
between it is told the pieces of the answers that come in while the method
is described, and then it hears of the methods that are called, one level
deeper, in the same way. So all that it hears is a hearing: a forest of
methods, each with the pieces about it and the methods inside.

One kind of method is not heard of again after it was entered: a method
that is found nowhere. Nothing is inside such a method, and it is
registered and left in silence. Which methods these are is said of the
visits of the run, so the hearing is just as complete as the visits were
successful.
-/
import CallTrace.Proofs.Run.Contained
import CallTrace.Proofs.Run.Layers

namespace CallTrace.Run

open Number (Double)

variable {σ : Type}

-- ============================================================ hearings

/-- What is heard of methods that are entered one after the other. -/
inductive Hearing where
  | done
  /-- A method is entered. Pieces of answers come in while it is described,
  then the methods that it calls are entered, and it is left with a status,
  or in silence. -/
  | method (key : MethodKey) (pieces : List (MethodKey × String))
      (inside : Hearing) (status? : Option Status) (rest : Hearing)

namespace Hearing

/-- The events of methods at a depth, in order. -/
def events : Int → Hearing → List Event
  | _, done => []
  | d, method key pieces inside status? rest =>
    .started key d :: (pieces.map fun p => .fragment p.1 d p.2) ++
      inside.events (d + 1) ++ (status?.map (.completed key d)).toList ++
      rest.events d

/-- The methods, in the order in which they are entered. -/
def keys : Hearing → List MethodKey
  | done => []
  | method key _ inside _ rest => key :: inside.keys ++ rest.keys

/-- The methods that are heard of when they are left, each after the
methods inside it. -/
def closings : Hearing → List (MethodKey × Status)
  | done => []
  | method key _ inside status? rest =>
    inside.closings ++ (status?.map (key, ·)).toList ++ rest.closings

/-- The methods with their depths, and whether they are heard of again. -/
def entries : Int → Hearing → List (MethodKey × Int × Bool)
  | _, done => []
  | d, method key _ inside status? rest =>
    (key, d, status?.isSome) :: inside.entries (d + 1) ++ rest.entries d

/-- Every method is heard of again. -/
def Closed : Hearing → Prop
  | done => True
  | method _ _ inside status? rest =>
    status?.isSome ∧ inside.Closed ∧ rest.Closed

/-- One hearing after the other. -/
def followedBy : Hearing → Hearing → Hearing
  | done, later => later
  | method key pieces inside status? rest, later =>
    method key pieces inside status? (rest.followedBy later)

@[simp] theorem events_followedBy (H later : Hearing) (d : Int) :
    (H.followedBy later).events d = H.events d ++ later.events d := by
  induction H with
  | done => rfl
  | method key pieces inside status? rest _ ih =>
    simp [followedBy, events, ih]

@[simp] theorem keys_followedBy (H later : Hearing) :
    (H.followedBy later).keys = H.keys ++ later.keys := by
  induction H with
  | done => rfl
  | method key pieces inside status? rest _ ih => simp [followedBy, keys, ih]

@[simp] theorem entries_followedBy (H later : Hearing) (d : Int) :
    (H.followedBy later).entries d = H.entries d ++ later.entries d := by
  induction H with
  | done => rfl
  | method key pieces inside status? rest _ ih =>
    simp [followedBy, entries, ih]

/-- A hearing is closed if all its methods are heard of again. -/
theorem closed_iff (H : Hearing) (d : Int) :
    H.Closed ↔ ∀ x ∈ H.entries d, x.2.2 = true := by
  induction H generalizing d with
  | done => simp [Closed, entries]
  | method key pieces inside status? rest ihI ih =>
    rw [Closed, ihI (d + 1), ih d, entries]
    simp only [List.cons_append, List.forall_mem_cons, List.forall_mem_append]

end Hearing

/-- The method that is left, with what has come of it. -/
def Event.closing? : Event → Option (MethodKey × Status)
  | completed key _ status => some (key, status)
  | _ => none

/-- Methods are left after the methods inside them. -/
theorem Hearing.closings_events (H : Hearing) (d : Int) :
    (H.events d).filterMap Event.closing? = H.closings := by
  induction H generalizing d with
  | done => rfl
  | method key pieces inside status? rest ihI ih =>
    have hpieces : (pieces.map fun p => Event.fragment p.1 d p.2).filterMap
        Event.closing? = [] := by
      simp [List.filterMap_map, Function.comp_def, Event.closing?]
    have hclosing : (status?.map (Event.completed key d)).toList.filterMap
        Event.closing? = (status?.map (key, ·)).toList := by
      cases status? <;> rfl
    rw [events, closings, List.filterMap_append, List.filterMap_append,
      List.cons_append, List.filterMap_cons_none rfl, List.filterMap_append,
      hpieces, hclosing, ihI, ih]
    rfl

-- ======================================================= describing

/-- From one state to the other the listener was told pieces of answers, at
the depth of the innermost method, and no method was entered or left. -/
structure Murmurs (s s' : State (Recorded σ)) : Prop where
  stack : s'.session.stack = s.session.stack
  visited : s'.session.visited = s.session.visited
  events : ∃ pieces : List (MethodKey × String),
    s'.world.outside.events =
      (pieces.map fun p => .fragment p.1 s.session.depth p.2).reverse ++
        s.world.outside.events

namespace Murmurs

variable {s s' s'' : State (Recorded σ)}

theorem refl (s : State (Recorded σ)) : Murmurs s s := ⟨rfl, rfl, [], rfl⟩

/-- Pieces that are told in two stretches are told over both. -/
theorem trans (h : Murmurs s s') (h' : Murmurs s' s'') :
    Murmurs s s'' := by
  obtain ⟨pieces, hp⟩ := h.events
  obtain ⟨pieces', hp'⟩ := h'.events
  have hdepth : s'.session.depth = s.session.depth := by
    rw [Session.depth, h.stack, Session.depth]
  refine ⟨h'.stack.trans h.stack, h'.visited.trans h.visited,
    pieces ++ pieces', ?_⟩
  rw [hp', hp, hdepth, List.map_append, List.reverse_append,
    List.append_assoc]

/-- Nothing is heard where nothing is told. -/
theorem of_events (hstack : s'.session.stack = s.session.stack)
    (hvisited : s'.session.visited = s.session.visited)
    (hevents : s'.world.outside.events = s.world.outside.events) :
    Murmurs s s' := ⟨hstack, hvisited, [], hevents⟩

end Murmurs

namespace Tracer

variable (t : Tracer σ)

/-- Following an answer about a method tells its pieces. -/
theorem follow_murmurs (key : MethodKey) (limit deadline : Double)
    (said : List String) (beats : List Beat) :
    (t.watched.follow key limit deadline said beats).Changes Murmurs := by
  have htrans : ∀ s s' s'' : State (Recorded σ), Murmurs s s' →
      Murmurs s' s'' → Murmurs s s'' := fun _ _ _ => .trans
  have slept : ∀ now : Double, Action.Changes Murmurs
      (modify (·.setNow now) : Action (State (Recorded σ)) PUnit) :=
    fun now s => .of_events rfl rfl rfl
  induction beats generalizing said with
  | nil => exact Action.changes_pure .refl _
  | cons beat rest ih =>
    cases beat with
    | wait seconds =>
      refine Action.changes_bind htrans .refl fun s => ?_
      dsimp only
      split
      · exact Action.changes_bind htrans (slept _)
          fun _ => Action.changes_throw .refl _
      · exact Action.changes_bind htrans (slept _) fun _ => ih said
    | say text =>
      intro s
      have htold : Murmurs s (s.heard (t.watched.inform
          (.fragment key s.session.depth text) s.world.outside)) :=
        ⟨rfl, rfl, [(key, text)], rfl⟩
      rw [follow, Action.bind_ok (Action.get_run s)]
      exact htold.trans (ih _ _)
    | fail failure =>
      cases failure <;> exact Action.changes_throw .refl _

/-- Describing a method tells pieces of answers. -/
theorem base_murmurs (key : MethodKey) :
    (t.watched.base key).Changes Murmurs := by
  have hwary : Wary t.watched (Murmurs (σ := σ)) :=
    { refl := .refl
      trans _ _ _ := .trans
      stored _ _ := .of_events rfl rfl rfl
      hit _ := .of_events rfl rfl rfl
      missed _ := .of_events rfl rfl rfl
      looked _ _ := .of_events rfl rfl rfl
      asked prompt key s _ :=
        have hasked : Murmurs s (State.heard
            { s with session.oracleCalls := s.session.oracleCalls + 1 }
            (t.watched.answerTo s.session.identity prompt
              s.world.outside)) := .of_events rfl rfl rfl
        hasked.trans (t.follow_murmurs key s.session.limits.timeout
          (s.now + s.session.limits.timeout) [] _ _) }
  exact hwary.base key

/-- Describing a method that is entered does not come to the news that it
is found nowhere. -/
def finds (t : Tracer σ) (f : Frame) (s : State σ) : Bool :=
  match (t.base f.key (t.opened f s)).1 with
  | .error (.unresolved _) => false
  | _ => true

/-- The listener is told when a method is left, unless it is found
nowhere. -/
theorem trace_leaves (levels : Nat) {f : Frame} {s : State σ}
    (h : Enterable s.session f.key) :
    ∃ a, (t.trace (levels + 1) f s).2 =
      t.closed f a (t.finds f s) (t.leaving levels f s) := by
  rw [t.trace_enterable h, enter_run, leaving, finds]
  rcases t.base f.key (t.opened f s) with ⟨e | b, s₁⟩
  · cases e <;> exact ⟨_, rfl⟩
  · dsimp only
    split
    · exact ⟨_, rfl⟩
    · exact ⟨b, rfl⟩

end Tracer

-- ============================================================= reports

/-- From one state to another the listener hears `H`, of methods at a depth
and below. They were not entered before, and they are those of the visits
`V`, each heard of again if it is found somewhere. -/
structure Reports (t : Tracer σ) (V : Frame → State (Recorded σ) → Prop)
    (depth : Int) (H : Hearing) (s s' : State (Recorded σ)) : Prop where
  events : s'.world.outside.events =
    (H.events depth).reverse ++ s.world.outside.events
  visited : s'.session.visited = H.keys.reverse ++ s.session.visited
  once : H.keys.Nodup
  fresh : ∀ key ∈ H.keys, key ∉ s.session.visited
  entries : ∀ x, x ∈ H.entries depth ↔
    ∃ g q, V g q ∧ x = (g.key, g.depth, t.watched.finds g q)

namespace Reports

variable {t : Tracer σ} {V V' : Frame → State (Recorded σ) → Prop}
  {depth : Int} {H H' : Hearing} {s s' s'' : State (Recorded σ)}

theorem congr (h : Reports t V depth H s s')
    (hV : ∀ g q, V g q ↔ V' g q) : Reports t V' depth H s s' :=
  { h with entries := by simpa only [hV] using h.entries }

/-- Nothing is heard where nothing is visited. -/
theorem done (hV : ∀ g q, ¬V g q) (s : State (Recorded σ)) :
    Reports t V depth .done s s where
  events := rfl
  visited := rfl
  once := List.nodup_nil
  fresh := by simp [Hearing.keys]
  entries := by simp [Hearing.entries, hV]

/-- What is heard over two stretches is heard one after the other, of the
visits of either. -/
theorem followedBy (h : Reports t V depth H s s')
    (h' : Reports t V' depth H' s' s'') :
    Reports t (fun g q => V g q ∨ V' g q) depth (H.followedBy H') s s'' where
  events := by
    rw [h'.events, h.events, Hearing.events_followedBy, List.reverse_append,
      List.append_assoc]
  visited := by
    rw [h'.visited, h.visited, Hearing.keys_followedBy, List.reverse_append,
      List.append_assoc]
  once := by
    rw [Hearing.keys_followedBy, List.nodup_append]
    refine ⟨h.once, h'.once, ?_⟩
    rintro key hkey _ hkey' rfl
    refine h'.fresh key hkey' ?_
    rw [h.visited]
    exact List.mem_append_left _ (List.mem_reverse.2 hkey)
  fresh := by
    intro key hkey hvisited
    rw [Hearing.keys_followedBy, List.mem_append] at hkey
    refine hkey.elim (fun hkey => h.fresh key hkey hvisited)
      fun hkey => h'.fresh key hkey ?_
    rw [h.visited]
    exact List.mem_append_right _ hvisited
  entries x := by
    rw [Hearing.entries_followedBy, List.mem_append, h.entries, h'.entries]
    constructor
    · rintro (⟨g, q, hV, hx⟩ | ⟨g, q, hV, hx⟩)
      · exact ⟨g, q, .inl hV, hx⟩
      · exact ⟨g, q, .inr hV, hx⟩
    · rintro ⟨g, q, hV | hV, hx⟩
      · exact .inl ⟨g, q, hV, hx⟩
      · exact .inr ⟨g, q, hV, hx⟩

end Reports

namespace Tracer

variable {t : Tracer σ}

section

variable {step : CallSite → StateM (State (Recorded σ)) Analysis}
  {depth : Int} {V : CallSite → State (Recorded σ) → Frame →
    State (Recorded σ) → Prop}

/-- What is visited while the calls `cs` and then the blocks `bs` are
traced. -/
def VisitsAmong (step : CallSite → StateM (State (Recorded σ)) Analysis)
    (V : CallSite → State (Recorded σ) → Frame → State (Recorded σ) → Prop)
    (cs : List CallSite) (bs : List Block) (s : State (Recorded σ))
    (g : Frame) (q : State (Recorded σ)) : Prop :=
  ∃ c s', Meets step cs bs s c s' ∧ V c s' g q

variable (hstep : ∀ c s, c.decision = .stepInto →
  s.session.cancelled = false →
  ∃ H, Reports t (V c s) depth H s (step c s).2)

include hstep

/-- Calls are heard of one after another, and then what is heard in the
blocks after them. -/
private theorem calls_reported {bs : List Block}
    (hnil : ∀ s, ∃ H, Reports t (VisitsAmong step V [] bs s) depth H s
      (endOf step [] bs s)) (cs : List CallSite) :
    ∀ s, ∃ H, Reports t (VisitsAmong step V cs bs s) depth H s
      (endOf step cs bs s) := by
  induction cs with
  | nil => exact hnil
  | cons c rest ih =>
    intro s
    by_cases hpass : c.decision ≠ .stepInto ∨ s.session.cancelled = true
    · obtain ⟨H, hH⟩ := ih s
      rw [endOf_passed hpass]
      refine ⟨H, hH.congr fun g q => ?_⟩
      constructor
      · rintro ⟨d, s', hmeets, hV⟩
        exact ⟨d, s', .passed hpass hmeets, hV⟩
      · rintro ⟨d, s', hmeets, hV⟩
        cases hmeets with
        | passed _ hrest => exact ⟨d, s', hrest, hV⟩
        | here h | later h => exact absurd hpass h
    · have hinto : c.decision = .stepInto :=
        Decidable.not_not.1 (not_or.1 hpass).1
      obtain ⟨H, hH⟩ := hstep c s hinto (by simpa using (not_or.1 hpass).2)
      obtain ⟨H', hH'⟩ := ih (step c s).2
      rw [endOf_step hpass]
      refine ⟨_, (hH.followedBy hH').congr fun g q => ?_⟩
      constructor
      · rintro (hV | ⟨d, s', hmeets, hV⟩)
        · exact ⟨c, s, .here hpass, hV⟩
        · exact ⟨d, s', .later hpass hmeets, hV⟩
      · rintro ⟨d, s', hmeets, hV⟩
        cases hmeets with
        | passed h => exact absurd h hpass
        | here => exact .inl hV
        | later _ hrest => exact .inr ⟨d, s', hrest, hV⟩

/-- What is heard while calls and blocks are traced is what is heard of the
calls that are stepped into, in order. -/
theorem blocks_reported (bs : List Block) :
    ∀ cs s, ∃ H, Reports t (VisitsAmong step V cs bs s) depth H s
      (endOf step cs bs s) := by
  induction bs with
  | nil =>
    refine calls_reported hstep fun s => ⟨.done, .done ?_ s⟩
    rintro g q ⟨c, s', hmeets, -⟩
    cases hmeets
  | cons b rest ih =>
    refine calls_reported hstep fun s => ?_
    obtain ⟨H, hH⟩ := ih b.calls s
    refine ⟨H, hH.congr fun g q => ?_⟩
    constructor
    · rintro ⟨c, s', hmeets, hV⟩
      exact ⟨c, s', .block hmeets, hV⟩
    · rintro ⟨c, s', hmeets, hV⟩
      cases hmeets with
      | block hrest => exact ⟨c, s', hrest, hV⟩

end

/-- What is visited inside a method that is entered. -/
def VisitsInside (t : Tracer σ) (levels : Nat) (f : Frame) (s : State σ)
    (g : Frame) (q : State σ) : Prop :=
  ∃ b s₁ c s₂, t.base f.key (t.opened f s) = (.ok b, s₁) ∧
    b.status = .complete ∧ Meets (t.answer levels f) [] b.blocks s₁ c s₂ ∧
    Visits t levels (frameOf c f.depth) s₂ g q

/-- Inside a method that may be entered the visits are that of the method
itself and those of its calls. -/
theorem visits_succ {levels : Nat} {f g : Frame} {s q : State σ}
    (h : Enterable s.session f.key) :
    Visits t (levels + 1) f s g q ↔
      (g = f ∧ q = s) ∨ VisitsInside t levels f s g q := by
  constructor
  · rintro (⟨-⟩ | ⟨-, hb, hcomplete, hmeets, hrest⟩)
    · exact .inl ⟨rfl, rfl⟩
    · exact .inr ⟨_, _, _, _, hb, hcomplete, hmeets, hrest⟩
  · rintro (⟨rfl, rfl⟩ | ⟨b, s₁, c, s₂, hb, hcomplete, hmeets, hrest⟩)
    · exact .here h
    · exact .inside h hb hcomplete hmeets hrest

/-- While a method is described nothing is visited, and afterwards what its
calls lead to. -/
theorem leaving_reported {levels : Nat} {f : Frame}
    {s : State (Recorded σ)}
    (ih : ∀ c s, c.decision = .stepInto → s.session.cancelled = false →
      ∃ H, Reports t (Visits t.watched levels (frameOf c f.depth) s)
        (f.depth + 1) H s (t.watched.answer levels f c s).2) :
    ∃ H, Reports t (VisitsInside t.watched levels f s) (f.depth + 1) H
      (t.watched.base f.key (t.watched.opened f s)).2
      (t.watched.leaving levels f s) := by
  rw [leaving]
  rcases hr : t.watched.base f.key (t.watched.opened f s) with
    ⟨e | b, s₁⟩
  · refine ⟨.done, .done ?_ s₁⟩
    rintro g q ⟨b, s', c, s₂, hb, -⟩
    cases hr.symm.trans hb
  dsimp only
  split
  · rename_i hcomplete
    obtain ⟨H, hH⟩ := blocks_reported ih b.blocks [] s₁
    refine ⟨H, hH.congr fun g q => ?_⟩
    constructor
    · rintro ⟨c, s₂, hmeets, hvisits⟩
      exact ⟨b, s₁, c, s₂, hr, hcomplete, hmeets, hvisits⟩
    · rintro ⟨b', s', c, s₂, hb, -, hmeets, hvisits⟩
      cases hr.symm.trans hb
      exact ⟨c, s₂, hmeets, hvisits⟩
  · rename_i hincomplete
    refine ⟨.done, .done ?_ s₁⟩
    rintro g q ⟨b', s', c, s₂, hb, hcomplete, -⟩
    cases hr.symm.trans hb
    exact hincomplete hcomplete

/-- What is heard of a method that is entered. -/
theorem enter_reported {levels : Nat} {f : Frame} {s : State (Recorded σ)}
    (hnew : Enterable s.session f.key) {I : Hearing}
    (hI : Reports t (VisitsInside t.watched levels f s) (f.depth + 1) I
      (t.watched.base f.key (t.watched.opened f s)).2
      (t.watched.leaving levels f s)) :
    ∃ H, Reports t (Visits t.watched (levels + 1) f s) f.depth H s
      (t.watched.trace (levels + 1) f s).2 := by
  obtain ⟨a, ha⟩ := t.watched.trace_leaves levels hnew
  obtain ⟨-, hvisited, pieces, hpieces⟩ :=
    t.base_murmurs f.key (t.watched.opened f s)
  have hdepth : (t.watched.opened f s).session.depth = f.depth := rfl
  have hopened : (t.watched.opened f s).world.outside.events =
      .started f.key f.depth :: s.world.outside.events := rfl
  rw [hdepth, hopened] at hpieces
  rw [opened_visited] at hvisited
  have hinside := hI.visited
  rw [hvisited] at hinside
  let closing? : Option Status :=
    if t.watched.finds f s then some a.status else none
  have hclosed : (t.watched.closed f a (t.watched.finds f s)
      (t.watched.leaving levels f s)).world.outside.events =
      (closing?.map (.completed f.key f.depth)).toList ++
        (t.watched.leaving levels f s).world.outside.events := by
    cases hfinds : t.watched.finds f s <;> simp only [closing?, hfinds] <;>
      rfl
  refine ⟨.method f.key pieces I closing? .done, ?_, ?_, ?_, ?_, ?_⟩
  · rw [ha, hclosed, hI.events, hpieces]
    have hself : (closing?.map (Event.completed f.key f.depth)).toList =
        (closing?.map (Event.completed f.key f.depth)).toList.reverse := by
      cases closing? <;> rfl
    rw [hself]
    simp [Hearing.events]
  · rw [ha, closed_visited, hinside]
    simp [Hearing.keys]
  · rw [Hearing.keys, Hearing.keys, List.append_nil, List.nodup_cons]
    refine ⟨fun hkey => ?_, hI.once⟩
    refine hI.fresh _ hkey ?_
    rw [hvisited]
    exact List.mem_cons_self
  · rw [Hearing.keys, Hearing.keys, List.append_nil]
    refine List.forall_mem_cons.2 ⟨hnew.fresh, fun key hkey hbefore => ?_⟩
    refine hI.fresh key hkey ?_
    rw [hvisited]
    exact List.mem_cons_of_mem _ hbefore
  · intro x
    have hsome : closing?.isSome = t.watched.finds f s := by
      cases hfinds : t.watched.finds f s <;> simp [closing?, hfinds]
    rw [Hearing.entries, Hearing.entries, List.append_nil, List.mem_cons,
      hI.entries, hsome]
    simp only [visits_succ hnew]
    constructor
    · rintro (rfl | ⟨g, q, hvisits, hx⟩)
      · exact ⟨f, s, .inl ⟨rfl, rfl⟩, rfl⟩
      · exact ⟨g, q, .inr hvisits, hx⟩
    · rintro ⟨g, q, ⟨rfl, rfl⟩ | hvisits, hx⟩
      · exact .inl hx
      · exact .inr ⟨g, q, hvisits, hx⟩

/-- What is heard while a method is traced is what is visited. -/
theorem trace_reported (t : Tracer σ) (levels : Nat) :
    ∀ f s, ∃ H, Reports t (Visits t.watched levels f s) f.depth H s
      (t.watched.trace levels f s).2 := by
  induction levels with
  | zero =>
    intro f s
    refine ⟨.done, .done ?_ s⟩
    intro g q h
    cases h
  | succ levels ih =>
    intro f s
    by_cases hnew : Enterable s.session f.key
    · obtain ⟨I, hI⟩ := leaving_reported (t := t) (f := f) (s := s)
        fun c s _ _ => by
          rw [answer_state]
          exact ih (frameOf c f.depth) s
      exact enter_reported hnew hI
    · obtain ⟨a, ha⟩ := t.watched.trace_barred levels f hnew
      rw [ha]
      refine ⟨.done, .done ?_ s⟩
      rintro g q (h | h)
      · exact hnew h
      · exact hnew h

end Tracer

-- ============================================================== a run

/-- When its root was traced, a run tells the listener nothing more. -/
theorem Tracer.concluded_world (r : Outcome) (s : State σ) :
    (concluded r s).world = s.world := by
  cases r <;> rfl

/-- What a listener hears of a run is bracketed. Every method that is
visited is entered once and at its depth; then come pieces of answers, and
the methods that are entered inside it, one level deeper; and then it is
heard of again, unless it was found nowhere. So if no method was found
nowhere, the brackets are all closed, and in any case methods are left
after the methods inside them. -/
theorem run_bracketed (t : Tracer σ) (s : State σ) :
    let root : Frame := ⟨s.session.root, 0, false⟩
    let heard := (t.watched.run s.watched).2.world.outside.events.reverse
    let Visited := Tracer.Visits t.watched (s.session.limits.maxDepth + 1)
      root s.watched
    ∃ H : Hearing, heard = H.events 0 ∧ H.keys.Nodup ∧
      (∀ x, x ∈ H.entries 0 ↔
        ∃ g q, Visited g q ∧ x = (g.key, g.depth, t.watched.finds g q)) ∧
      (H.Closed ↔ ∀ g q, Visited g q → t.watched.finds g q = true) ∧
      heard.filterMap Event.closing? = H.closings := by
  intro root heard Visited
  obtain ⟨H, hH⟩ := t.trace_reported (s.session.limits.maxDepth + 1) root
    s.watched
  have hheard : heard = H.events 0 := by
    have hstart : s.watched.world.outside.events = [] := rfl
    have hend : (t.watched.run s.watched).2.world.outside.events =
        (t.watched.trace (s.session.limits.maxDepth + 1) root
          s.watched).2.world.outside.events := by
      rw [Tracer.run_eq, Tracer.concluded_world]
      rfl
    have hevents := hH.events
    rw [hstart, List.append_nil] at hevents
    rw [← List.reverse_reverse (H.events 0)]
    exact congrArg List.reverse (hend.trans hevents)
  refine ⟨H, hheard, hH.once, hH.entries, ?_, ?_⟩
  · rw [H.closed_iff 0]
    constructor
    · intro hclosed g q hvisited
      exact hclosed _ ((hH.entries _).2 ⟨g, q, hvisited, rfl⟩)
    · intro hfound x hx
      obtain ⟨g, q, hvisited, rfl⟩ := (hH.entries x).1 hx
      exact hfound g q hvisited
  · rw [hheard, H.closings_events]

/-- The listener hears that the root is entered and nothing else, for there
is no source of it. -/
theorem unfound_root_left_open :
    let s : State Unit :=
      { pairStart with session.root := ⟨"B", "m"⟩ }
    (pairTracer.watched.run s.watched).2.world.outside.events.reverse =
        [.started ⟨"B", "m"⟩ 0] ∧
      ¬∃ H : Hearing, H.Closed ∧ H.events 0 = [.started ⟨"B", "m"⟩ 0] := by
  refine ⟨by decide +kernel, ?_⟩
  rintro ⟨H, hclosed, hevents⟩
  cases H with
  | done => cases hevents
  | method key pieces inside status? rest =>
    obtain ⟨status, rfl⟩ := Option.isSome_iff_exists.1 hclosed.1
    simp [Hearing.events] at hevents

end CallTrace.Run
