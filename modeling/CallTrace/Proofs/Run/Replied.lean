/-
Whatever a method is described by was read from a reply.

A description is made from the reply of an oracle or taken from the cache,
which holds nothing but such descriptions, or from the description of the
method in another type. So the blocks of every description are those of
some reply, and what is true of the blocks of all replies is true of them.
-/
import CallTrace.Proofs.Run.Holdings

namespace CallTrace.Run

open Source (Resolved)

variable {σ : Type}

/-- The blocks were read from a reply. -/
def Replied (blocks : List Block) : Prop :=
  ∃ owner text, Reply.parse owner text = .described blocks

/-- Nothing is known of what oracles said. -/
def anything : Said := fun _ _ _ => True

theorem Tracer.heeds_anything (t : Tracer σ) : t.Heeds anything :=
  fun _ _ _ _ => trivial

/-- Runs of whatever kind have used the store, if it is one that a program
can come to have. -/
theorem Reachable.shared {may : Kind} (hmay : ∀ σ t s, may σ t s)
    {s : Cache.Store} (h : Reachable s) : Shared may s := by
  induction h with
  | fresh h hfiles => exact .fresh h hfiles
  | run t s _ ih => exact .run t s (hmay _ t s) ih
  | cleared _ clock ih => exact ih.cleared clock
  | invalidated _ clock typeName methodName ih =>
    exact ih.invalidated clock typeName methodName
  | cleaned _ clock ih => exact ih.cleaned clock
  | restarted _ hempty hfiles ih => exact ih.restarted hempty hfiles
  | edited _ files hfiles ih => exact ih.edited files hfiles

theorem Reachable.obeys_made {s : Cache.Store} (h : Reachable s) :
    s.Obeys (Made anything) :=
  Informed.obeys (h.shared fun _ t _ => t.heeds_anything)

theorem Acts.obeys_made {t : Tracer σ} {s s' : State σ} (h : Acts t s s')
    (hs : s.world.store.Obeys (Made anything)) :
    s'.world.store.Obeys (Made anything) := by
  obtain ⟨log, hdeeds⟩ := h.deeds
  exact hdeeds.obeys_made t.heeds_anything hs

/-- Over a store of descriptions, whatever complete description the action
gives was read from a reply. -/
def Replies (x : Action (State σ) Analysis) : Prop :=
  ∀ s, s.world.store.Obeys (Made anything) → ∀ a, (x s).1 = .ok a →
    a.status = .complete → Replied a.blocks

namespace Tracer

variable (t : Tracer σ) {key : MethodKey} {r other : Resolved}
  {name : String}

/-- What is described on asking was read from a reply. -/
theorem inquire_replied {s : State σ} {a : Analysis}
    (h : (t.inquire key r s).1 = .ok (.described a)) :
    Replied a.blocks := by
  rw [inquire, Action.bind_ok (Action.get_run s)] at h
  rcases hask : t.ask (promptFor key r) key s with ⟨e | answer, s₁⟩
  · rw [Action.bind_error hask] at h
    cases h
  rw [Action.bind_ok hask, Action.bind_ok (Action.get_run s₁)] at h
  rcases hp : Reply.parse r.defining answer with suggestions | blocks | _
  · rw [hp] at h
    cases h
  · rw [hp] at h
    dsimp only [Reply.errorMessage?] at h
    rw [Action.bind_ok (Action.get_run s₁),
      Action.bind_ok (Action.lift_run _ s₁)] at h
    rcases hfile : t.file key
      (describe key r (.described blocks) s₁.timeOfDay) r
      (t.recordTime ((s₁.now - s.now) * .ofInt 1000) s₁).2 with ⟨e | _, s₂⟩
    · rw [Action.bind_error hfile] at h
      cases h
    · rw [Action.bind_ok hfile] at h
      cases h
      exact ⟨r.defining, answer, hp⟩
  · rw [hp] at h
    cases h

/-- What is found complete was read from a reply, though it may come from
the cache. -/
theorem find_replied (hkey : key.IsPlain) {s : State σ}
    (hs : s.world.store.Obeys (Made anything)) {a : Analysis}
    (h : (t.find key r s).1 = .ok (.described a))
    (hcomplete : a.status = .complete) : Replied a.blocks := by
  rw [find] at h
  rcases hc : t.cached key (Source.fingerprint r.source.content) s with
    ⟨e | found, s₁⟩
  · rw [Action.bind_error hc] at h
    cases h
  rw [Action.bind_ok hc] at h
  cases found with
  | some b =>
    cases h
    have hmade := t.cached_obeys (made_timeless anything) hkey hs (by rw [hc])
    obtain ⟨prompt, answer, -, -, hparse⟩ := hmade.pristine.told
    exact ⟨prompt.typeName, answer, hparse⟩
  | none =>
    dsimp only at h
    rw [Action.bind_ok (Action.get_run s₁)] at h
    split at h
    · cases h
      cases hcomplete
    · exact t.inquire_replied h

variable {t}

/-- What another type gives was read from a reply. -/
theorem tryOther_replied (hkey : key.IsPlain)
    (hother : t.Resolves name key.methodName other)
    {next : Action (State σ) Analysis} (hnext : Replies next) :
    Replies (t.tryOther key r other next) := by
  intro s hs x hx hcomplete
  have hother' : (MethodKey.mk other.defining key.methodName).IsPlain := hkey
  have hacts := (t.find_acts hother' hother s).related
  rw [tryOther] at hx
  rcases hf : t.find ⟨other.defining, key.methodName⟩ other s with
    ⟨found, s'⟩
  rw [hf] at hacts
  have hattempt : attempt (t.find ⟨other.defining, key.methodName⟩ other) s
      = (.ok found, s') := by rw [attempt, hf]
  rw [Action.bind_ok hattempt] at hx
  have hrest : (next s').1 = .ok x → Replied x.blocks := fun h =>
    hnext s' (hacts.obeys_made hs) x h hcomplete
  rcases found with e | a | suggestions
  · cases e with
    | unresolved u => cases hx
    | _ =>
      dsimp only at hx
      split at hx
      · exact hrest hx
      · cases hx
  · dsimp only at hx
    split at hx
    · rename_i hstatus
      rcases hfile : t.file key (readdress key a other.defining) r s' with
        ⟨e | _, s''⟩
      · rw [Action.bind_error hfile] at hx
        cases hx
      · rw [Action.bind_ok hfile] at hx
        cases hx
        have hblocks : Replied a.blocks :=
          t.find_replied hother' hs (by rw [hf]) hstatus
        exact hblocks
    · exact hrest hx
  · exact hrest hx

/-- What comes of suggestions was read from a reply. -/
theorem trySuggestions_replied (hkey : key.IsPlain) (names : List String) :
    ∀ tried searched,
      Replies (t.trySuggestions key r tried searched names) := by
  induction names with
  | nil =>
    intro _ _ s _ x hx
    cases hx
  | cons name rest ih =>
    intro tried searched s hs x hx hcomplete
    rw [trySuggestions] at hx
    split at hx
    · exact ih _ _ s hs x hx hcomplete
    rw [Action.bind_ok (Action.get_run s)] at hx
    split at hx
    · cases hx
      cases hcomplete
    obtain ⟨hacts, hresolves⟩ := t.resolve_acts name key.methodName s
    rcases hrun : Source.resolve t.lookup t.hierarchyDepth name
      key.methodName s with ⟨resolved, s'⟩
    rw [hrun] at hacts hresolves
    have hattempt : attempt (Source.resolve t.lookup t.hierarchyDepth name
        key.methodName) s = (.ok resolved, s') := by rw [attempt, hrun]
    rw [Action.bind_ok hattempt] at hx
    have hs' := hacts.obeys_made hs
    rcases resolved with e | other
    · cases e with
      | unresolved u => exact ih _ _ s' hs' x hx hcomplete
      | _ => cases hx
    · exact tryOther_replied hkey (hresolves other rfl) (ih _ _) s' hs' x hx
        hcomplete

/-- A complete description was read from a reply. -/
theorem base_replied (hkey : key.IsPlain) : Replies (t.base key) := by
  intro s hs x hx hcomplete
  rw [base, Action.bind_ok (Action.get_run s)] at hx
  split at hx
  · cases hx
    cases hcomplete
  obtain ⟨hacts, hresolves⟩ := t.resolve_acts key.typeName key.methodName s
  rcases hr : Source.resolve t.lookup t.hierarchyDepth key.typeName
    key.methodName s with ⟨e | r, s₁⟩
  · rw [Action.bind_error hr] at hx
    cases hx
  rw [Action.bind_ok hr] at hx
  rw [hr] at hacts hresolves
  have hs₁ := hacts.obeys_made hs
  have hacts₁ := (t.find_acts hkey (hresolves r rfl) s₁).related
  rcases hf : t.find key r s₁ with ⟨e | found, s₂⟩
  · rw [Action.bind_error hf] at hx
    cases hx
  rw [Action.bind_ok hf] at hx
  rw [hf] at hacts₁
  cases found with
  | described a =>
    cases hx
    exact t.find_replied hkey hs₁ (by rw [hf]) hcomplete
  | absent suggestions =>
    exact trySuggestions_replied hkey _ _ _ s₂ (hacts₁.obeys_made hs₁) x hx
      hcomplete

end Tracer

end CallTrace.Run
