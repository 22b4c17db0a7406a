/-
Running actions one piece at a time.

An action is a function of a state, so a proof about a composed action
first takes it apart: the state after the first piece is where the second
one starts, and a failure of the first piece is that of the whole. The
equations here do this for the pieces of which all actions are made.
-/
import CallTrace.Failure

namespace CallTrace

variable {ω α β : Type}

namespace Action

theorem bind_run (a : Action ω α) (f : α → Action ω β) (s : ω) :
    (a >>= f) s =
      match a s with
      | (.ok x, s) => f x s
      | (.error e, s) => (.error e, s) := by
  show ((ExceptT.bind a f) : StateM ω _) s = _
  simp only [ExceptT.bind, ExceptT.mk, bind, StateT.bind]
  rcases a s with ⟨x | x, s⟩ <;> rfl

/-- After a piece that succeeds the rest goes on where it ended. -/
theorem bind_ok {a : Action ω α} {f : α → Action ω β} {s s' : ω} {x : α}
    (h : a s = (.ok x, s')) : (a >>= f) s = f x s' := by
  rw [bind_run, h]

/-- The failure of the first piece is that of the whole. -/
theorem bind_error {a : Action ω α} {f : α → Action ω β} {s s' : ω}
    {e : Failure} (h : a s = (.error e, s')) :
    (a >>= f) s = (.error e, s') := by
  rw [bind_run, h]

theorem pure_run (x : α) (s : ω) : (pure x : Action ω α) s = (.ok x, s) :=
  rfl

theorem throw_run (e : Failure) (s : ω) :
    (throw e : Action ω α) s = (.error e, s) := rfl

theorem get_run (s : ω) : (get : Action ω ω) s = (.ok s, s) := rfl

theorem set_run (s s' : ω) : (set s' : Action ω PUnit) s = (.ok ⟨⟩, s') :=
  rfl

theorem modify_run (f : ω → ω) (s : ω) :
    (modify f : Action ω PUnit) s = (.ok ⟨⟩, f s) := rfl

theorem lift_run (m : StateM ω α) (s : ω) :
    (liftM m : Action ω α) s = (.ok (m s).1, (m s).2) := rfl

theorem liftExcept_run (r : Except Failure α) (s : ω) :
    (liftM r : Action ω α) s = (r, s) := by
  cases r <;> rfl

-- ============================================================ changes

/-- Whatever state the action starts in, the state it ends in is related
to it. -/
def Changes (R : ω → ω → Prop) (a : Action ω α) : Prop :=
  ∀ s, R s (a s).2

section

variable {R : ω → ω → Prop} (hrefl : ∀ s, R s s)
  (htrans : ∀ s s' s'', R s s' → R s' s'' → R s s'')

include hrefl in
theorem changes_pure (x : α) : Changes R (pure x : Action ω α) := hrefl

include hrefl in
theorem changes_throw (e : Failure) : Changes R (throw e : Action ω α) :=
  hrefl

include htrans in
/-- What each of two actions keeps, their sequence keeps. -/
theorem changes_bind {a : Action ω α} {f : α → Action ω β}
    (ha : Changes R a) (hf : ∀ x, Changes R (f x)) :
    Changes R (a >>= f) := by
  intro s
  have h := ha s
  rcases hr : a s with ⟨e | x, s'⟩ <;> rw [hr] at h
  · rw [bind_error hr]
    exact h
  · rw [bind_ok hr]
    exact htrans _ _ _ h (hf x s')

end

-- ============================================================ failing

/-- Whatever state the action starts in, it fails with nothing but such a
failure. -/
def FailsWith (E : Failure → Prop) (a : Action ω α) : Prop :=
  ∀ s e, (a s).1 = .error e → E e

section

variable {E : Failure → Prop}

theorem failsWith_pure (x : α) : FailsWith E (pure x : Action ω α) :=
  fun _ _ h => absurd h (by simp [pure_run])

/-- A sequence fails only as one of its two actions does. -/
theorem failsWith_bind {a : Action ω α} {f : α → Action ω β}
    (ha : FailsWith E a) (hf : ∀ x, FailsWith E (f x)) :
    FailsWith E (a >>= f) := by
  intro s e h
  rcases hr : a s with ⟨e' | x, s'⟩
  · rw [bind_error hr] at h
    cases h
    exact ha s _ (by rw [hr])
  · rw [bind_ok hr] at h
    exact hf x s' e h

theorem failsWith_get {f : ω → Action ω β} (hf : ∀ s, FailsWith E (f s)) :
    FailsWith E (get >>= f) :=
  fun s e h => hf s s e h

theorem failsWith_modify (f : ω → ω) :
    FailsWith E (modify f : Action ω PUnit) :=
  fun _ _ h => absurd h (by simp [modify_run])

theorem failsWith_liftExcept {r : Except Failure α}
    (h : ∀ e, r = .error e → E e) :
    FailsWith E (liftM r : Action ω α) :=
  fun s e he => h e (by rw [liftExcept_run] at he; exact he)

end

-- ============================================================ leading

/-- Started in `s`, the action ends in a state related to `s`, with a
result and a state for which `Q` holds. -/
structure Leads (R : ω → ω → Prop) (a : Action ω α) (s : ω)
    (Q : Except Failure α → ω → Prop) : Prop where
  related : R s (a s).2
  result : Q (a s).1 (a s).2

namespace Leads

variable {R : ω → ω → Prop} {a : Action ω α} {s s' : ω}
  {Q : Except Failure α → ω → Prop}

section

variable (hrefl : ∀ s, R s s)

include hrefl in
theorem pure {x : α} (h : Q (.ok x) s) :
    Leads R (pure x : Action ω α) s Q := ⟨hrefl s, h⟩

include hrefl in
theorem throw {e : Failure} (h : Q (.error e) s) :
    Leads R (throw e : Action ω α) s Q := ⟨hrefl s, h⟩

end

theorem weaken {Q' : Except Failure α → ω → Prop} (h : Leads R a s Q)
    (hQ : ∀ r s', R s s' → Q r s' → Q' r s') : Leads R a s Q' :=
  ⟨h.related, hQ _ _ h.related h.result⟩

/-- Looking at the state changes nothing. -/
theorem look {f : ω → Action ω β} {Q' : Except Failure β → ω → Prop}
    (h : Leads R (f s) s Q') : Leads R (get >>= f) s Q' := by
  have hrun : (get >>= f) s = f s s := bind_ok (get_run s)
  exact ⟨hrun ▸ h.related, hrun ▸ h.result⟩

section

variable (htrans : ∀ s s' s'', R s s' → R s' s'' → R s s'')

include htrans in
/-- The second piece starts in a state that the first one led to. -/
theorem bind {f : α → Action ω β} {Q' : Except Failure β → ω → Prop}
    (h : Leads R a s Q)
    (hf : ∀ x s', R s s' → Q (.ok x) s' → Leads R (f x) s' Q')
    (he : ∀ e s', R s s' → Q (.error e) s' → Q' (.error e) s') :
    Leads R (a >>= f) s Q' := by
  obtain ⟨hR, hQ⟩ := h
  rcases hr : a s with ⟨e | x, s'⟩ <;> rw [hr] at hR hQ
  · have hrun : (a >>= f) s = (.error e, s') := bind_error hr
    exact ⟨hrun ▸ hR, hrun ▸ he e s' hR hQ⟩
  · obtain ⟨hR', hQ'⟩ := hf x s' hR hQ
    have hrun : (a >>= f) s = f x s' := bind_ok hr
    exact ⟨hrun ▸ htrans _ _ _ hR hR', hrun ▸ hQ'⟩

include htrans in
/-- A piece that succeeds, and then the rest. -/
theorem step {f : α → Action ω β} {x : α}
    {Q' : Except Failure β → ω → Prop} (hr : a s = (.ok x, s'))
    (hR : R s s') (h : Leads R (f x) s' Q') : Leads R (a >>= f) s Q' := by
  have hrun : (a >>= f) s = f x s' := bind_ok hr
  exact ⟨hrun ▸ htrans _ _ _ hR h.related, hrun ▸ h.result⟩

end

/-- A piece that fails, and with it the whole. -/
theorem failed {f : α → Action ω β} {e : Failure}
    {Q' : Except Failure β → ω → Prop} (hr : a s = (.error e, s'))
    (hR : R s s') (hQ : Q' (.error e) s') : Leads R (a >>= f) s Q' := by
  have hrun : (a >>= f) s = (.error e, s') := bind_error hr
  exact ⟨hrun ▸ hR, hrun ▸ hQ⟩

end Leads

end Action

/-- A computation without failures starts its second piece where the first
one ended. -/
theorem stateM_bind_run (m : StateM ω α) (f : α → StateM ω β) (s : ω) :
    (m >>= f) s = f (m s).1 (m s).2 := rfl

theorem stateM_get_bind (f : ω → StateM ω β) (s : ω) :
    ((get : StateM ω ω) >>= f) s = f s s := rfl

-- ============================================================= mirrors

/-- Started in related states, two computations give the same and end in
related states. An action is one whose result may be a failure. -/
def Mirrors {ω' : Type} (R : ω → ω' → Prop) (m : StateM ω α)
    (m' : StateM ω' α) : Prop :=
  ∀ s s', R s s' → (m s).1 = (m' s').1 ∧ R (m s).2 (m' s').2

section

variable {ω' : Type} {R : ω → ω' → Prop}

theorem mirrors_pure (x : α) :
    Mirrors R (pure x : StateM ω α) (pure x : StateM ω' α) :=
  fun _ _ h => ⟨rfl, h⟩

theorem mirrors_bind {m : StateM ω α} {m' : StateM ω' α}
    {k : α → StateM ω β} {k' : α → StateM ω' β} (hm : Mirrors R m m')
    (hk : ∀ x, Mirrors R (k x) (k' x)) :
    Mirrors R (m >>= k) (m' >>= k') := by
  intro s s' h
  obtain ⟨hvalue, hstate⟩ := hm s s' h
  rw [stateM_bind_run, stateM_bind_run, ← hvalue]
  exact hk _ _ _ hstate

theorem mirrors_get {k : ω → StateM ω β} {k' : ω' → StateM ω' β}
    (hk : ∀ s s', R s s' → Mirrors R (k s) (k' s')) :
    Mirrors R (get >>= k) (get >>= k') :=
  fun s s' h => hk s s' h s s' h

theorem mirrors_modify {g : ω → ω} {g' : ω' → ω'}
    (hg : ∀ s s', R s s' → R (g s) (g' s')) :
    Mirrors R (modify g : StateM ω PUnit) (modify g' : StateM ω' PUnit) :=
  fun s s' h => ⟨rfl, hg s s' h⟩

/-- Started in related states, two computations give results in which `e`
sees no difference, and end in related states. -/
def MirrorsUpTo {γ : Type} (e : α → γ) (R : ω → ω' → Prop)
    (m : StateM ω α) (m' : StateM ω' α) : Prop :=
  ∀ s s', R s s' → e (m s).1 = e (m' s').1 ∧ R (m s).2 (m' s').2

/-- Actions whose results agree up to a view stay in step when what follows
looks at the view alone. -/
theorem mirrorsUpTo_bind {γ δ : Type} {e : α → γ} {e' : β → δ}
    {m : StateM ω α} {m' : StateM ω' α} {k : α → StateM ω β}
    {k' : α → StateM ω' β} (hm : MirrorsUpTo e R m m')
    (hk : ∀ x x', e x = e x' → MirrorsUpTo e' R (k x) (k' x')) :
    MirrorsUpTo e' R (m >>= k) (m' >>= k') := by
  intro s s' h
  obtain ⟨hvalue, hstate⟩ := hm s s' h
  rw [stateM_bind_run, stateM_bind_run]
  exact hk _ _ hvalue _ _ hstate

/-- Where `e` sees everything, the computations mirror each other. -/
theorem MirrorsUpTo.bind_eq {δ : Type} {e' : β → δ} {m : StateM ω α}
    {m' : StateM ω' α} {k : α → StateM ω β} {k' : α → StateM ω' β}
    (hm : Mirrors R m m') (hk : ∀ x, MirrorsUpTo e' R (k x) (k' x)) :
    MirrorsUpTo e' R (m >>= k) (m' >>= k') := by
  refine mirrorsUpTo_bind (e := id) hm ?_
  rintro x _ rfl
  exact hk x

theorem Mirrors.bind_upTo {γ : Type} {e : α → γ} {m : StateM ω α}
    {m' : StateM ω' α} {k : α → StateM ω β} {k' : α → StateM ω' β}
    (hm : MirrorsUpTo e R m m')
    (hk : ∀ x x', e x = e x' → Mirrors R (k x) (k' x')) :
    Mirrors R (m >>= k) (m' >>= k') := by
  have h : MirrorsUpTo id R (m >>= k) (m' >>= k') := mirrorsUpTo_bind hm hk
  exact h

theorem mirrorsUpTo_pure {γ : Type} {e : α → γ} {x x' : α}
    (h : e x = e x') :
    MirrorsUpTo e R (pure x : StateM ω α) (pure x' : StateM ω' α) :=
  fun _ _ hs => ⟨h, hs⟩

theorem mirrorsUpTo_get {γ : Type} {e : β → γ} {k : ω → StateM ω β}
    {k' : ω' → StateM ω' β}
    (hk : ∀ s s', R s s' → MirrorsUpTo e R (k s) (k' s')) :
    MirrorsUpTo e R (get >>= k) (get >>= k') :=
  fun s s' h => hk s s' h s s' h

namespace Action

theorem mirrors_pure (x : α) :
    Mirrors R (pure x : Action ω α) (pure x : Action ω' α) :=
  fun _ _ h => ⟨rfl, h⟩

theorem mirrors_throw (e : Failure) :
    Mirrors R (throw e : Action ω α) (throw e : Action ω' α) :=
  fun _ _ h => ⟨rfl, h⟩

/-- Actions that mirror each other still do when they are followed by
actions that do. -/
theorem mirrors_bind {a : Action ω α} {a' : Action ω' α}
    {f : α → Action ω β} {f' : α → Action ω' β} (ha : Mirrors R a a')
    (hf : ∀ x, Mirrors R (f x) (f' x)) :
    Mirrors R (a >>= f : Action ω β) (a' >>= f' : Action ω' β) := by
  intro s s' h
  obtain ⟨hvalue, hstate⟩ := ha s s' h
  have hr : a s = ((a s).1, (a s).2) := rfl
  have hr' : a' s' = ((a s).1, (a' s').2) := Prod.ext hvalue.symm rfl
  rcases hx : (a s).1 with e | x <;> rw [hx] at hr hr'
  · rw [bind_error hr, bind_error hr']
    exact ⟨rfl, hstate⟩
  · rw [bind_ok hr, bind_ok hr']
    exact hf x _ _ hstate

theorem mirrors_get {f : ω → Action ω β} {f' : ω' → Action ω' β}
    (hf : ∀ s s', R s s' → Mirrors R (f s) (f' s')) :
    Mirrors R (get >>= f : Action ω β) (get >>= f' : Action ω' β) := by
  intro s s' h
  rw [bind_ok (get_run s), bind_ok (get_run s')]
  exact hf s s' h s s' h

theorem mirrors_modify {g : ω → ω} {g' : ω' → ω'}
    (hg : ∀ s s', R s s' → R (g s) (g' s')) :
    Mirrors R (modify g : Action ω PUnit) (modify g' : Action ω' PUnit) :=
  fun s s' h => ⟨rfl, hg s s' h⟩

theorem mirrors_lift {m : StateM ω α} {m' : StateM ω' α}
    (hm : Mirrors R m m') :
    Mirrors R (liftM m : Action ω α) (liftM m' : Action ω' α) := by
  intro s s' h
  obtain ⟨hvalue, hstate⟩ := hm s s' h
  rw [lift_run, lift_run, hvalue]
  exact ⟨rfl, hstate⟩

section

variable {γ δ : Type} {e : α → γ} {e' : β → δ}

theorem mirrorsUpTo_pure {x x' : α} (h : e x = e x') :
    MirrorsUpTo (Except.map e) R (pure x : Action ω α)
      (pure x' : Action ω' α) :=
  fun _ _ hs => ⟨congrArg Except.ok h, hs⟩

theorem mirrorsUpTo_throw (f : Failure) :
    MirrorsUpTo (Except.map e) R (throw f : Action ω α)
      (throw f : Action ω' α) :=
  fun _ _ hs => ⟨rfl, hs⟩

/-- The same for actions that can fail: a failure of one is the failure of
the other, and ends both. -/
theorem mirrorsUpTo_bind {a : Action ω α} {a' : Action ω' α}
    {f : α → Action ω β} {f' : α → Action ω' β}
    (ha : MirrorsUpTo (Except.map e) R a a')
    (hf : ∀ x x', e x = e x' →
      MirrorsUpTo (Except.map e') R (f x) (f' x')) :
    MirrorsUpTo (Except.map e') R (a >>= f : Action ω β)
      (a' >>= f' : Action ω' β) := by
  intro s s' h
  obtain ⟨hvalue, hstate⟩ := ha s s' h
  rcases hr : a s with ⟨failure | x, s₁⟩ <;>
    rcases hr' : a' s' with ⟨failure' | x', s₁'⟩ <;>
    rw [hr, hr'] at hvalue hstate <;>
    simp only [Except.map, reduceCtorEq, Except.error.injEq,
      Except.ok.injEq] at hvalue
  · rw [bind_error hr, bind_error hr', hvalue]
    exact ⟨rfl, hstate⟩
  · rw [bind_ok hr, bind_ok hr']
    exact hf x x' hvalue _ _ hstate

/-- Where the first pieces mirror each other in full. -/
theorem mirrorsUpTo_after {a : Action ω α} {a' : Action ω' α}
    {f : α → Action ω β} {f' : α → Action ω' β} (ha : Mirrors R a a')
    (hf : ∀ x, MirrorsUpTo (Except.map e') R (f x) (f' x)) :
    MirrorsUpTo (Except.map e') R (a >>= f : Action ω β)
      (a' >>= f' : Action ω' β) := by
  refine mirrorsUpTo_bind (e := id) (fun s s' h => ?_) ?_
  · obtain ⟨hvalue, hstate⟩ := ha s s' h
    exact ⟨congrArg _ hvalue, hstate⟩
  · rintro x _ rfl
    exact hf x

theorem mirrorsUpTo_look {k : ω → Action ω β} {k' : ω' → Action ω' β}
    (hk : ∀ s s', R s s' → MirrorsUpTo (Except.map e') R (k s) (k' s')) :
    MirrorsUpTo (Except.map e') R (get >>= k : Action ω β)
      (get >>= k' : Action ω' β) :=
  fun s s' h => hk s s' h s s' h

end

end Action

end

end CallTrace
