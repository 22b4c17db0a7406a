/-
What describing a method does to a run.

Between entering a method and looking at the calls of its description, a
run does only small things: it asks outside for a source, follows an
answer, uses the cache, counts. Each is a move. None of them touches the
methods under analysis, the methods entered or what is registered, and a
cancelled run stays cancelled. Questions to the oracle are counted apart,
since there is a bound on them, and none is put to it once the run is
cancelled.

A move may file a description. What it files is bare and lies under the
key of the method it is about, so the rule of the cache is kept.
-/
import CallTrace.Proofs.Run.Bare

namespace CallTrace.Run

open Cache (bareRule)
open Number (Double)

variable {σ : Type}

-- ============================================================== moves

/-- A small thing that a run does while it describes a method, other than
counting a question to the oracle. -/
inductive Move (t : Tracer σ) : State σ → State σ → Prop where
  | told (s : State σ) (key : MethodKey) (depth : Int) (text : String) :
    Move t s (s.heard (t.inform (.fragment key depth text) s.world.outside))
  | looked (s : State σ) (name : String) :
    Move t s
      (s.heard (t.sourceOf name s.world.store.files s.world.outside))
  | answered (s : State σ) (prompt : Prompt) :
    Move t s
      (s.heard (t.answerTo s.session.identity prompt s.world.outside))
  | slept (s : State σ) (now : Double) : Move t s (s.setNow now)
  | hit (s : State σ) :
    Move t s { s with session.hits := s.session.hits + 1 }
  | missed (s : State σ) :
    Move t s { s with session.misses := s.session.misses + 1 }
  | consulted (s : State σ) (key : MethodKey) (fingerprint : String)
      (hkey : key.IsPlain) :
    Move t s { s with world.store := (Cache.Store.lookup s.world.clock key
      fingerprint s.session.identity s.world.store).2 }
  | filed (s : State σ) (key : MethodKey) (a : Analysis)
      (fingerprint path : String) (hkey : key.IsPlain) (ha : a.Bare key) :
    Move t s { s with world.store := (Cache.Store.store s.world.clock key a
      fingerprint s.session.identity path s.world.store).2 }
  | timed (s : State σ) (ms : Double) :
    Move t s { s with world.store := s.world.store.recordTime ms }

/-- Counting a question to the oracle, while the run is not cancelled. -/
inductive Asking : State σ → State σ → Prop where
  | mk (s : State σ) (h : s.session.cancelled = false) :
    Asking s
      { s with session.oracleCalls := s.session.oracleCalls + 1 }

/-- Any number of moves, with `n` questions among them. -/
inductive Moves (t : Tracer σ) : Nat → State σ → State σ → Prop where
  | refl (s : State σ) : Moves t 0 s s
  | move {n : Nat} {s s' s'' : State σ} (h : Moves t n s s')
      (hm : Move t s' s'') : Moves t n s s''
  | ask {n : Nat} {s s' s'' : State σ} (h : Moves t n s s')
      (ha : Asking s' s'') : Moves t (n + 1) s s''

namespace Moves

variable {t : Tracer σ} {n m : Nat} {s s' s'' : State σ}

theorem single (h : Move t s s') : Moves t 0 s s' := .move (.refl s) h

theorem trans (h : Moves t n s s') (h' : Moves t m s' s'') :
    Moves t (n + m) s s'' := by
  induction h' with
  | refl => exact h
  | move _ hm ih => exact (ih h).move hm
  | ask _ ha ih => exact (ih h).ask ha

theorem trans_zero (s s' s'' : State σ) (h : Moves t 0 s s')
    (h' : Moves t 0 s' s'') : Moves t 0 s s'' := h.trans h'

end Moves

-- ================================================== what they leave alone

/-- The session with its counts of questions and lookups, and its
cancellation, taken out. -/
def Session.books (s : Session) : Session :=
  { s with oracleCalls := 0, hits := 0, misses := 0, cancelled := false }

section

variable {t : Tracer σ} {n : Nat} {s s' : State σ}

theorem Move.books (h : Move t s s') :
    s'.session.books = s.session.books := by
  cases h <;> rfl

theorem Move.oracleCalls (h : Move t s s') :
    s'.session.oracleCalls = s.session.oracleCalls := by
  cases h <;> rfl

theorem Move.cancelled (h : Move t s s')
    (hc : s.session.cancelled = true) : s'.session.cancelled = true := by
  cases h <;> simp [State.heard, Session.cancelIf, State.setNow, hc]

/-- A move files nothing but bare descriptions. -/
theorem Move.obeys (h : Move t s s') (hs : s.world.store.Obeys bareRule) :
    s'.world.store.Obeys bareRule := by
  cases h with
  | told | looked | answered | slept | hit | missed => exact hs
  | consulted key f hkey =>
    exact (hs.lookup Cache.bareRule_timeless _ hkey f _).1
  | filed key a f path hkey ha =>
    exact hs.store Cache.bareRule_timeless _ hkey ha path
  | timed ms => exact hs.recordTime ms

namespace Moves

/-- Only counts and cancellation change in the session. -/
theorem books (h : Moves t n s s') :
    s'.session.books = s.session.books := by
  induction h with
  | refl => rfl
  | move _ hm ih => exact hm.books.trans ih
  | ask _ ha ih =>
    cases ha
    exact ih

theorem limits (h : Moves t n s s') :
    s'.session.limits = s.session.limits :=
  (congrArg Session.limits h.books :)

theorem stack (h : Moves t n s s') :
    s'.session.stack = s.session.stack :=
  (congrArg Session.stack h.books :)

theorem visited (h : Moves t n s s') :
    s'.session.visited = s.session.visited :=
  (congrArg Session.visited h.books :)

theorem registry (h : Moves t n s s') :
    s'.session.registry = s.session.registry :=
  (congrArg Session.registry h.books :)

theorem analyzed (h : Moves t n s s') :
    s'.session.analyzed = s.session.analyzed :=
  (congrArg Session.analyzed h.books :)

/-- Moves count their questions. -/
theorem oracleCalls (h : Moves t n s s') :
    s'.session.oracleCalls = s.session.oracleCalls + n := by
  induction h with
  | refl => rfl
  | move _ hm ih => exact hm.oracleCalls.trans ih
  | ask _ ha ih =>
    cases ha
    show _ + 1 = _
    omega

/-- Over a store of bare descriptions moves leave such a store. -/
theorem obeys (h : Moves t n s s')
    (hs : s.world.store.Obeys bareRule) :
    s'.world.store.Obeys bareRule := by
  induction h with
  | refl => exact hs
  | move _ hm ih => exact hm.obeys (ih hs)
  | ask _ ha ih =>
    cases ha
    exact ih hs

end Moves

end

end CallTrace.Run
