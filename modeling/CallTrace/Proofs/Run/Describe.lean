/-
What comes of describing a method.

Every function between a question about a method and its description is a
sequence of moves, with a bound on the questions put to the oracle: one in
each source that is looked into, so at most one for the source that the
method was resolved to and one for each suggestion that is tried. A
description that is given back is bare and about the method asked for, or
it is the leaf of a cancelled run, and then the run is cancelled.

One lemma for each function states this, by its own control flow; callers
use the lemma and do not look into the function again.
-/
import CallTrace.Proofs.Run.Moves
import CallTrace.Proofs.Source.Resolve

namespace CallTrace.Run

open Cache (bareRule)
open Number (Double)
open Source (Resolved)

variable {σ : Type} {α β : Type}

-- ============================================================ actions

/-- Started in `s`, the action makes moves with at most `n` questions among
them, and ends with a result and a state for which `Q` holds. -/
def Does (t : Tracer σ) (n : Nat) (a : Action (State σ) α) (s : State σ)
    (Q : Except Failure α → State σ → Prop) : Prop :=
  ∃ k ≤ n, Moves t k s (a s).2 ∧ Q (a s).1 (a s).2

namespace Does

variable {t : Tracer σ} {n m l : Nat} {a : Action (State σ) α}
  {s s' : State σ} {Q : Except Failure α → State σ → Prop}

theorem pure {x : α} (h : Q (.ok x) s) :
    Does t n (pure x : Action (State σ) α) s Q :=
  ⟨0, Nat.zero_le n, .refl s, h⟩

theorem throw {e : Failure} (h : Q (.error e) s) :
    Does t n (throw e : Action (State σ) α) s Q :=
  ⟨0, Nat.zero_le n, .refl s, h⟩

theorem mono (h : Does t n a s Q) (hnm : n ≤ m) : Does t m a s Q := by
  obtain ⟨k, hk, hm, hq⟩ := h
  exact ⟨k, Nat.le_trans hk hnm, hm, hq⟩

/-- The questions of two pieces add up. The second piece starts in a state
that moves of the first lead to. -/
theorem bind {f : α → Action (State σ) β}
    {Q' : Except Failure β → State σ → Prop} (h : Does t n a s Q)
    (hf : ∀ k x s', Moves t k s s' → Q (.ok x) s' → Does t m (f x) s' Q')
    (he : ∀ e s', Q (.error e) s' → Q' (.error e) s')
    (hl : n + m ≤ l) : Does t l (a >>= f) s Q' := by
  obtain ⟨k, hk, hm, hq⟩ := h
  rcases hr : a s with ⟨e | x, s'⟩ <;> rw [hr] at hm hq
  · rw [Does, Action.bind_error hr]
    exact ⟨k, by omega, hm, he e s' hq⟩
  · obtain ⟨j, hj, hm', hq'⟩ := hf k x s' hm hq
    rw [Does, Action.bind_ok hr]
    exact ⟨k + j, by omega, hm.trans hm', hq'⟩

/-- One move, and then the rest. -/
theorem step {f : α → Action (State σ) β} {x : α}
    {Q' : Except Failure β → State σ → Prop} (hr : a s = (.ok x, s'))
    (hm : Move t s s') (h : Does t n (f x) s' Q') :
    Does t n (a >>= f) s Q' := by
  obtain ⟨k, hk, hmoves, hq⟩ := h
  rw [Does, Action.bind_ok hr]
  exact ⟨k, hk, by simpa using (Moves.single hm).trans hmoves, hq⟩

/-- Looking at the state is no move. -/
theorem look {f : State σ → Action (State σ) β}
    {Q' : Except Failure β → State σ → Prop} (h : Does t n (f s) s Q') :
    Does t n (get >>= f) s Q' := by
  rw [Does, Action.bind_ok (Action.get_run s)]
  exact h

theorem attempt (h : Does t n a s Q) :
    Does t n (Tracer.attempt a) s fun r s' =>
      ∃ x, r = .ok x ∧ Q x s' := by
  obtain ⟨k, hk, hm, hq⟩ := h
  exact ⟨k, hk, hm, _, rfl, hq⟩

end Does

namespace Tracer

-- ========================================================== listening

theorem resolve_does (t : Tracer σ) (depth : Nat)
    (typeName method : String) (s : State σ) :
    Does t 0 (Source.resolve t.lookup depth typeName method) s
      fun _ _ => True :=
  ⟨0, Nat.le_refl 0,
    Source.changes_resolve Moves.refl Moves.trans_zero
      (fun name s => Moves.single (.looked s name))
      depth typeName method s, trivial⟩

/-- Listening to the oracle makes moves, and asks nothing. -/
theorem follow_does (t : Tracer σ) (key : MethodKey)
    (limit deadline : Double) (beats : List Beat) :
    ∀ (said : List String) (s : State σ),
      Does t 0 (t.follow key limit deadline said beats) s
        fun _ _ => True := by
  induction beats with
  | nil => exact fun said s => .pure trivial
  | cons beat rest ih =>
    intro said s
    cases beat with
    | wait seconds =>
      rw [follow]
      refine .look ?_
      dsimp only
      split
      · exact .step rfl (.slept s deadline) (.throw trivial)
      · exact .step rfl (.slept s _) (ih said _)
    | say text =>
      rw [follow]
      exact .look (.step rfl (.told s key _ text) (ih _ _))
    | fail f => cases f <;> exact .throw trivial

/-- An answer costs one question. -/
theorem ask_does (t : Tracer σ) (prompt : Prompt) (key : MethodKey)
    {s : State σ} (hc : s.session.cancelled = false) :
    Does t 1 (t.ask prompt key) s fun _ _ => True := by
  let asked : State σ :=
    { s with session.oracleCalls := s.session.oracleCalls + 1 }
  have hfollow : Does t 0 (t.follow key s.session.limits.timeout
      (asked.now + s.session.limits.timeout) []
      (t.answerTo s.session.identity prompt s.world.outside).value)
      (asked.heard (t.answerTo s.session.identity prompt s.world.outside))
      fun _ _ => True := follow_does ..
  obtain ⟨k, hk, hm, -⟩ := hfollow
  have hask : Moves t 1 s asked := .ask (.refl s) (.mk s hc)
  refine ⟨1 + k, by omega, ?_, trivial⟩
  exact (hask.move (.answered asked prompt)).trans hm

-- ============================================================== cache

/-- What is found in the cache is a bare description of the method. -/
theorem cached_does (t : Tracer σ) {key : MethodKey} (hkey : key.IsPlain)
    (fingerprint : String) {s : State σ}
    (hs : s.world.store.Obeys bareRule) :
    Does t 0 (t.cached key fingerprint) s
      fun r _ => ∀ a, r = .ok (some a) → a.Bare key := by
  have hfound := (hs.lookup Cache.bareRule_timeless s.world.clock hkey
    fingerprint s.session.identity).2
  have hconsult := Move.consulted (t := t) s key fingerprint hkey
  rw [cached]
  refine .look ?_
  split
  · rcases hr : Cache.Store.lookup s.world.clock key fingerprint
      s.session.identity s.world.store with ⟨e | found, store⟩ <;>
      rw [hr] at hfound hconsult
    · have hrun : onStore (fun clock => Cache.Store.lookup clock key
          fingerprint s.session.identity) s =
          (.error e, { s with world.store := store }) := by
        rw [onStore, hr]
      rw [Does, Action.bind_error hrun]
      exact ⟨0, Nat.le_refl 0, .single hconsult,
        fun a ha => absurd ha (by simp)⟩
    · refine .step (x := found) (by rw [onStore, hr]) hconsult ?_
      rcases found with _ | a
      · exact .step rfl (.missed _) (.pure fun a ha => absurd ha (by simp))
      · refine .step rfl (.hit _) (.pure fun b hb => ?_)
        cases hb
        exact hfound a rfl
  · exact .pure fun a ha => absurd ha (by simp)

/-- Filing a description makes moves, and asks nothing. -/
theorem file_does (t : Tracer σ) {key : MethodKey} (hkey : key.IsPlain)
    {a : Analysis} (ha : a.Bare key) (r : Resolved) (s : State σ) :
    Does t 0 (t.file key a r) s fun _ _ => True := by
  rw [file]
  refine .look ?_
  split
  · exact ⟨0, Nat.le_refl 0,
      .single (.filed s key a _ r.source.path hkey ha), trivial⟩
  · exact .pure trivial

/-- Noting how long an answer took is at most a move. -/
theorem recordTime_moves (t : Tracer σ) (ms : Double) (s : State σ) :
    Moves t 0 s (t.recordTime ms s).2 := by
  rw [recordTime]
  split
  · exact .single (.timed s ms)
  · exact .refl s

-- ============================================================ sources

/-- An analysis that describing a method gives: a bare description of it,
or the leaf of a run that is cancelled. -/
def Described (key : MethodKey) (a : Analysis) (s : State σ) : Prop :=
  a.Bare key ∨ (s.session.cancelled = true ∧
    ∃ now, a = .placeholder key .truncated cancelledReason now)

theorem cancelledLeaf_does (t : Tracer σ) {n : Nat} (key : MethodKey)
    {s : State σ} (hc : s.session.cancelled = true) :
    Does t n (cancelledLeaf key) s
      fun r s' => ∀ a, r = .ok a → Described key a s' := by
  refine ⟨0, Nat.zero_le n, .refl s, fun a ha => ?_⟩
  cases ha
  exact .inr ⟨hc, _, rfl⟩

/-- The analysis found, if there is one, is the description of a method
or the leaf of a cancelled run. -/
def Found (key : MethodKey) (r : Except Failure Finding) (s : State σ) :
    Prop :=
  ∀ a, r = .ok (.described a) → Described key a s

/-- Asking about a method puts one question at most, and finds something
out about the method. -/
theorem inquire_does (t : Tracer σ) {key : MethodKey} (hkey : key.IsPlain)
    (r : Resolved) {s : State σ} (hc : s.session.cancelled = false) :
    Does t 1 (t.inquire key r) s (Found key) := by
  rw [inquire]
  refine .look (.bind (m := 0) (ask_does t _ key hc) ?_
    (fun e s' _ a ha => absurd ha (by simp)) (by omega))
  intro k answer s' hm _
  refine .look ?_
  rcases hp : Reply.parse r.defining answer with suggestions | blocks | _
  · exact .pure fun a ha => absurd ha (by simp)
  · refine .look (.bind (n := 0) (m := 0) (Q := fun _ _ => True)
      ⟨0, Nat.le_refl 0, recordTime_moves t _ _, trivial⟩ ?_
      (fun e s' _ a ha => absurd ha (by simp)) (by omega))
    intro _ _ s'' _ _
    have hbare := bare_describe key r r.defining answer s'.timeOfDay
    rw [hp] at hbare
    refine .bind (n := 0) (m := 0) (file_does t hkey hbare r s'') ?_
      (fun e s' _ a ha => absurd ha (by simp)) (by omega)
    intro _ _ _ _ _
    refine .pure fun a ha => ?_
    cases ha
    exact .inl hbare
  · exact .throw fun a ha => absurd ha (by simp)

/-- Describing a method from one source puts at most one question. -/
theorem find_does (t : Tracer σ) {key : MethodKey} (hkey : key.IsPlain)
    (r : Resolved) {s : State σ} (hs : s.world.store.Obeys bareRule) :
    Does t 1 (t.find key r) s (Found key) := by
  rw [find]
  refine .bind (m := 1) (cached_does t hkey _ hs) ?_
    (fun e s' _ a ha => absurd ha (by simp)) (by omega)
  intro k found s' hm hfound
  rcases found with _ | a
  · refine .look ?_
    split
    · rename_i hc
      refine .bind (n := 0) (m := 0) (cancelledLeaf_does t key hc) ?_
        (fun e s' _ a ha => absurd ha (by simp)) (by omega)
      intro _ a s'' _ ha
      refine .pure fun b hb => ?_
      cases hb
      exact ha a rfl
    · rename_i hc
      exact inquire_does t hkey r (by simpa using hc)
  · refine .pure fun b hb => ?_
    cases hb
    exact .inl (hfound a rfl)

-- ======================================================== suggestions

/-- The analysis given, if there is one, is the description of the method
or the leaf of a cancelled run. -/
def Settled (key : MethodKey) (r : Except Failure Analysis) (s : State σ) :
    Prop :=
  ∀ a, r = .ok a → Described key a s

/-- What comes after is tried where the other type was of no use, so the
question that was put to it comes on top. -/
theorem tryOther_does (t : Tracer σ) {n : Nat} {key : MethodKey}
    (hkey : key.IsPlain) (r other : Resolved)
    {next : Action (State σ) Analysis} {s : State σ}
    (hs : s.world.store.Obeys bareRule)
    (hnext : ∀ s' : State σ, s'.world.store.Obeys bareRule →
      Does t n next s' (Settled key)) :
    Does t (n + 1) (t.tryOther key r other next) s (Settled key) := by
  have hother : (MethodKey.mk other.defining key.methodName).IsPlain := hkey
  have hnone : ∀ (e : Failure) (s' : State σ), Settled key (.error e) s' :=
    fun e s' a ha => absurd ha (by simp)
  refine .bind (n := 1) (m := n) (find_does t hother other hs).attempt ?_
    (fun e s' h => absurd h (by simp)) (by omega)
  rintro _ found s' hm ⟨_, ⟨⟩, hfound⟩
  have hs' := hm.obeys hs
  rcases found with e | a | suggestions
  · cases e with
    | unresolved u => exact .throw (hnone _ _)
    | _ =>
      dsimp only
      split
      · exact hnext s' hs'
      · exact .throw (hnone _ _)
  · dsimp only
    split
    · rename_i hstatus
      have hbare : a.Bare ⟨other.defining, key.methodName⟩ := by
        rcases hfound a rfl with h | ⟨-, now, rfl⟩
        · exact h
        · exact absurd hstatus (by simp [Analysis.placeholder])
      refine .bind (n := 0) (m := n)
        (file_does t hkey (hbare.readdress other.defining) r s') ?_
        (fun e s'' _ => hnone e s'') (by omega)
      refine fun _ _ s'' _ _ => .pure fun b hb => ?_
      cases hb
      exact .inl (hbare.readdress other.defining)
    · exact (hnext s' hs')
  · exact (hnext s' hs')

/-- Each suggestion that is tried costs at most one question. -/
theorem trySuggestions_does (t : Tracer σ) {key : MethodKey}
    (hkey : key.IsPlain) (r : Resolved) (names : List String) :
    ∀ (tried searched : List String) (s : State σ),
      s.world.store.Obeys bareRule →
      Does t names.length (t.trySuggestions key r tried searched names) s
        (Settled key) := by
  have hnone : ∀ (e : Failure) (s' : State σ), Settled key (.error e) s' :=
    fun e s' a ha => absurd ha (by simp)
  induction names with
  | nil => exact fun tried searched s _ => .throw (hnone _ _)
  | cons name rest ih =>
    intro tried searched s hs
    rw [trySuggestions]
    split
    · exact (ih tried searched s hs).mono (by simp)
    refine .look ?_
    split
    · rename_i hc
      exact cancelledLeaf_does t key hc
    refine .bind (n := 0) (m := rest.length + 1)
      (resolve_does t _ name key.methodName s).attempt ?_
      (fun e s' h => absurd h (by simp)) (by simp)
    intro _ resolved s' hm _
    have hs' := hm.obeys hs
    rcases resolved with (u | _ | _ | _ | _ | _ | _ | _ | _ | _) | other
    case error.unresolved =>
      exact (ih _ _ s' hs').mono (by omega)
    case ok =>
      exact tryOther_does t hkey r other hs' (ih _ _)
    all_goals exact .throw (hnone _ _)

/-- As many suggestions are tried as the limit says, when it says so. -/
theorem length_firstItems_le {limit : Int} (h : 0 ≤ limit) (xs : List α) :
    ((firstItems limit xs).length : Int) ≤ limit := by
  rw [firstItems, if_neg (by omega)]
  have := List.length_take_le limit.toNat xs
  omega

/-- Describing a method puts at most one question for the source that the
method was resolved to, and one for each suggestion that may be tried. -/
theorem base_moves (t : Tracer σ) {key : MethodKey} (hkey : key.IsPlain)
    {s : State σ} (hs : s.world.store.Obeys bareRule) :
    ∃ n, Moves t n s (t.base key s).2 ∧
      Settled key (t.base key s).1 (t.base key s).2 ∧
      (0 ≤ t.maxSuggestions → (n : Int) ≤ 1 + t.maxSuggestions) := by
  rw [base, Action.bind_ok (Action.get_run s)]
  split
  · rename_i hc
    obtain ⟨n, hn, hm, hq⟩ := cancelledLeaf_does (n := 0) t key hc
    exact ⟨n, hm, hq, fun _ => by omega⟩
  obtain ⟨n, hn, hm, -⟩ :=
    resolve_does t t.hierarchyDepth key.typeName key.methodName s
  rcases hr : Source.resolve t.lookup t.hierarchyDepth key.typeName
    key.methodName s with ⟨e | r, s₁⟩ <;> rw [hr] at hm
  · rw [Action.bind_error hr]
    exact ⟨n, hm, fun a ha => absurd ha (by simp), fun _ => by omega⟩
  rw [Action.bind_ok hr]
  obtain ⟨n', hn', hm', hfound⟩ := find_does t hkey r (hm.obeys hs)
  rcases hf : t.find key r s₁ with ⟨e | a | suggestions, s₂⟩ <;>
    rw [hf] at hm' hfound
  · rw [Action.bind_error hf]
    exact ⟨n + n', hm.trans hm', fun a ha => absurd ha (by simp),
      fun _ => by omega⟩
  · rw [Action.bind_ok hf]
    refine ⟨n + n', hm.trans hm', fun b hb => ?_, fun _ => by omega⟩
    cases hb
    exact hfound a rfl
  · rw [Action.bind_ok hf]
    obtain ⟨n'', hn'', hm'', hq⟩ := trySuggestions_does t hkey r
      (firstItems t.maxSuggestions suggestions) r.chain r.chain s₂
      (hm'.obeys (hm.obeys hs))
    refine ⟨n + n' + n'', (hm.trans hm').trans hm'', hq, fun h => ?_⟩
    have := length_firstItems_le h suggestions
    omega

end Tracer

end CallTrace.Run
