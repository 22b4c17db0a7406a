/-
What a run does to the world.

Seen from the world, a run does few things: something changes outside, time
goes by, the cache is consulted, a duration is noted, and descriptions are
filed. A description is filed for one of two reasons. The oracle gave it
for the source that the method was resolved to; or it was found under
another type that the oracle suggested, where the cache holds it, and is
now filed under the method that was asked for as well. Each thing done is a
deed, and a description that is filed is logged with the time.

The log is no part of a run. It is there to say of an entry in the cache
where it came from and when, which the cache itself does not tell.
-/
import CallTrace.Proofs.Cache.SessionTier
import CallTrace.Proofs.Run.Carried
import CallTrace.Proofs.Run.Listen

namespace CallTrace.Run

open Number (Double)
open Source (Resolved)

variable {σ : Type} {α : Type}

-- ============================================================== deeds

/-- A description that was put into the cache. -/
structure Filing where
  key : MethodKey
  analysis : Analysis
  /-- The time, in seconds since the start of the clock. -/
  time : Double

namespace Tracer

/-- The source `r` is where a search for a method of the type can end. -/
def Resolves (t : Tracer σ) (typeName method : String) (r : Resolved) :
    Prop :=
  ∃ s, (Source.resolve t.lookup t.hierarchyDepth typeName method s).1 =
    .ok r

/-- The oracle of the identity can answer the prompt so. -/
def Tells (t : Tracer σ) (identity : String) (prompt : Prompt)
    (answer : String) : Prop :=
  ∃ key s, s.session.identity = identity ∧
    (t.ask prompt key s).1 = .ok answer

/-- The oracle of the identity, asked about the method in the source `r`,
can answer that it is not there, and suggest the type `name`. -/
def Suggests (t : Tracer σ) (identity : String) (key : MethodKey)
    (r : Resolved) (name : String) : Prop :=
  ∃ answer suggestions, t.Tells identity (promptFor key r) answer ∧
    Reply.parse r.defining answer = .absent suggestions ∧
    name ∈ suggestions

end Tracer

/-- The world after a description was filed under a key, as made from a
source. -/
def World.filed (w : World σ) (identity : String) (key : MethodKey)
    (a : Analysis) (r : Resolved) : World σ :=
  { w with
    store := (Cache.Store.store w.clock key a
      (Source.fingerprint r.source.content) identity r.source.path
      w.store).2 }

/-- From the world `w` a run that asks the oracle of the identity does
things that lead to another world. What it files is logged, the last one
first. -/
inductive Deeds (t : Tracer σ) (identity : String) (w : World σ) :
    List Filing → World σ → Prop where
  | none : Deeds t identity w [] w
  | met {log : List Filing} {w' : World σ}
      (h : Deeds t identity w log w') (outside : σ) :
    Deeds t identity w log { w' with outside := outside }
  | slept {log : List Filing} {w' : World σ}
      (h : Deeds t identity w log w') (now : Double) :
    Deeds t identity w log { w' with clock.elapsed := now }
  | consulted {log : List Filing} {w' : World σ}
      (h : Deeds t identity w log w') (key : MethodKey)
      (fingerprint : String) (hkey : key.IsPlain) :
    Deeds t identity w log { w' with
      store := (Cache.Store.lookup w'.clock key fingerprint identity
        w'.store).2 }
  | timed {log : List Filing} {w' : World σ}
      (h : Deeds t identity w log w') (ms : Double) :
    Deeds t identity w log { w' with store := w'.store.recordTime ms }
  | described {log : List Filing} {w' : World σ}
      (h : Deeds t identity w log w') {key : MethodKey} {name : String}
      {r : Resolved} {answer : String} {blocks : List Block}
      (hkey : key.IsPlain) (hr : t.Resolves name key.methodName r)
      (hanswer : t.Tells identity (Tracer.promptFor key r) answer)
      (hreply : Reply.parse r.defining answer = .described blocks)
      (now : Double) :
    Deeds t identity w
      (⟨key, Tracer.describe key r (.described blocks) now,
        w'.clock.elapsed⟩ :: log)
      (w'.filed identity key
        (Tracer.describe key r (.described blocks) now) r)
  | adopted {log : List Filing} {w' : World σ}
      (h : Deeds t identity w log w') {key : MethodKey} {name : String}
      {r other : Resolved} {a : Analysis} (hkey : key.IsPlain)
      (hsuggests : t.Suggests identity key r name)
      (hother : t.Resolves name key.methodName other)
      (hheld : w'.store.session.Holds ⟨other.defining, key.methodName⟩ a
        (Source.fingerprint other.source.content) identity) :
    Deeds t identity w
      (⟨key, Tracer.readdress key a other.defining,
        w'.clock.elapsed⟩ :: log)
      (w'.filed identity key (Tracer.readdress key a other.defining) r)

namespace Deeds

variable {t : Tracer σ} {identity : String} {w w' w'' : World σ}
  {log log' : List Filing}

/-- Deeds after deeds are deeds, and their logs are joined. -/
theorem trans (h : Deeds t identity w log w')
    (h' : Deeds t identity w' log' w'') :
    Deeds t identity w (log' ++ log) w'' := by
  induction h' with
  | none => exact h
  | met _ outside ih => exact ih.met outside
  | slept _ now ih => exact ih.slept now
  | consulted _ key f hkey ih => exact ih.consulted key f hkey
  | timed _ ms ih => exact ih.timed ms
  | described _ hkey hr hanswer hreply now ih =>
    exact ih.described hkey hr hanswer hreply now
  | adopted _ hkey hsuggests hother hheld ih =>
    exact ih.adopted hkey hsuggests hother hheld

end Deeds

/-- The run of `s` does things that lead to `s'`; its identity and limits
stay the same. -/
structure Acts (t : Tracer σ) (s s' : State σ) : Prop where
  identity : s'.session.identity = s.session.identity
  limits : s'.session.limits = s.session.limits
  deeds : ∃ log, Deeds t s.session.identity s.world log s'.world

namespace Acts

variable {t : Tracer σ}

theorem refl (s : State σ) : Acts t s s := ⟨rfl, rfl, [], .none⟩

theorem trans (s s' s'' : State σ) (h : Acts t s s')
    (h' : Acts t s' s'') : Acts t s s'' := by
  obtain ⟨hi, hl, log, hd⟩ := h
  obtain ⟨hi', hl', log', hd'⟩ := h'
  rw [hi] at hd'
  exact ⟨hi'.trans hi, hl'.trans hl, log' ++ log, hd.trans hd'⟩

/-- Something outside is asked or told. -/
theorem heard {β : Type} (s : State σ) (a : Answer σ β) :
    Acts t s (s.heard a) :=
  ⟨rfl, rfl, [], .met .none a.outside⟩

/-- Time goes by. -/
theorem slept (s : State σ) (now : Double) : Acts t s (s.setNow now) :=
  ⟨rfl, rfl, [], .slept .none now⟩

/-- What is done in the session alone leaves the world as it is. -/
theorem of_world {s s' : State σ} (hw : s'.world = s.world)
    (hi : s'.session.identity = s.session.identity)
    (hl : s'.session.limits = s.session.limits) : Acts t s s' :=
  ⟨hi, hl, [], hw ▸ .none⟩

end Acts

namespace Tracer

-- ========================================================== listening

theorem listens_acts (t : Tracer σ) : Listens t (Acts t) where
  refl := Acts.refl
  trans := Acts.trans
  looked _ _ := .heard _ _
  answered _ _ := .heard _ _
  told _ _ := .heard _ _
  counted _ := .of_world rfl rfl rfl
  slept _ _ := .slept _ _

theorem resolve_acts (t : Tracer σ) (typeName method : String)
    (s : State σ) :
    Action.Leads (Acts t)
      (Source.resolve t.lookup t.hierarchyDepth typeName method) s
      fun result _ => ∀ r, result = .ok r → t.Resolves typeName method r :=
  ⟨t.listens_acts.resolve _ _ _ s, fun _ hr => ⟨s, hr⟩⟩

/-- What is asked for is told by the oracle of the session. -/
theorem ask_acts (t : Tracer σ) (prompt : Prompt) (key : MethodKey)
    (s : State σ) :
    Action.Leads (Acts t) (t.ask prompt key) s fun result _ =>
      ∀ answer, result = .ok answer →
        t.Tells s.session.identity prompt answer :=
  ⟨t.listens_acts.ask prompt key s, fun _ h => ⟨key, s, rfl, h⟩⟩

-- ============================================================== cache

/-- What comes of looking for a method in a source. A description, when
the cache is used, is held by the session tier under the key, as made from
the source; and types are suggested by the oracle. -/
structure Findings (t : Tracer σ) (key : MethodKey) (r : Resolved)
    (result : Except Failure Finding) (s : State σ) : Prop where
  held : ∀ a, result = .ok (.described a) → a.status = .complete →
    t.usesCache s = true →
    s.world.store.session.Holds key a
      (Source.fingerprint r.source.content) s.session.identity
  suggested : ∀ suggestions, result = .ok (.absent suggestions) →
    ∀ name ∈ suggestions, t.Suggests s.session.identity key r name

theorem findings_error (t : Tracer σ) {key : MethodKey} {r : Resolved}
    (e : Failure) (s : State σ) : t.Findings key r (.error e) s :=
  ⟨fun _ h => absurd h (by simp), fun _ h => absurd h (by simp)⟩

/-- What is taken from the cache is held by the session tier afterwards. -/
theorem cached_acts (t : Tracer σ) {key : MethodKey} (hkey : key.IsPlain)
    (fingerprint : String) (s : State σ) :
    Action.Leads (Acts t) (t.cached key fingerprint) s fun result s' =>
      ∀ a, result = .ok (some a) →
        s'.world.store.session.Holds key a fingerprint
          s'.session.identity := by
  have hacts : Acts t s { s with world.store := (Cache.Store.lookup
      s.world.clock key fingerprint s.session.identity s.world.store).2 } :=
    ⟨rfl, rfl, [], .consulted .none key fingerprint hkey⟩
  rw [cached]
  refine .look ?_
  split
  · rcases hr : Cache.Store.lookup s.world.clock key fingerprint
      s.session.identity s.world.store with ⟨e | found, store⟩ <;>
      rw [hr] at hacts
    · have hrun : onStore (fun clock => Cache.Store.lookup clock key
          fingerprint s.session.identity) s =
          (.error e, { s with world.store := store }) := by
        rw [onStore, hr]
      exact .failed hrun hacts fun a ha => absurd ha (by simp)
    · refine .step Acts.trans (x := found) (by rw [onStore, hr]) hacts ?_
      rcases found with _ | a
      · exact .step Acts.trans rfl (.of_world rfl rfl rfl)
          (.pure Acts.refl fun a ha => absurd ha (by simp))
      · refine .step Acts.trans rfl (.of_world rfl rfl rfl)
          (.pure Acts.refl fun b hb => ?_)
        cases hb
        have hserved : (s.world.store.lookup s.world.clock key fingerprint
            s.session.identity).1 = .ok (some a) := by rw [hr]
        have hheld := Cache.Store.holds_lookup hserved
        rw [hr] at hheld
        exact hheld
  · exact .pure Acts.refl fun a ha => absurd ha (by simp)

/-- What is filed is held, if the cache is used. -/
theorem file_acts (t : Tracer σ) {key : MethodKey} {a : Analysis}
    {r : Resolved} {s : State σ}
    (hfiled : t.usesCache s = true → ∃ log,
      Deeds t s.session.identity s.world log
        (s.world.filed s.session.identity key a r)) :
    Action.Leads (Acts t) (t.file key a r) s fun result s' =>
      result = .ok () → t.usesCache s' = true →
        s'.world.store.session.Holds key a
          (Source.fingerprint r.source.content) s'.session.identity := by
  rw [file]
  refine .look ?_
  split
  · rename_i huses
    refine ⟨⟨rfl, rfl, hfiled huses⟩, fun hok _ => ?_⟩
    exact Cache.Store.holds_store (Prod.ext hok rfl)
  · rename_i huses
    exact .pure Acts.refl fun _ h => absurd h huses

theorem recordTime_acts (t : Tracer σ) (ms : Double) (s : State σ) :
    Acts t s (t.recordTime ms s).2 := by
  rw [recordTime]
  split
  · exact ⟨rfl, rfl, [], .timed .none ms⟩
  · exact .refl s

-- ======================================================= descriptions

theorem cancelledLeaf_acts (t : Tracer σ) (key : MethodKey) (s : State σ) :
    Action.Leads (Acts t) (cancelledLeaf key) s fun result _ =>
      ∀ a, result = .ok a → a.status ≠ .complete := by
  refine ⟨.refl s, fun a ha => ?_⟩
  cases ha
  simp [Analysis.placeholder]

/-- Asking about a method makes deeds, and comes to what can be found out
about it. -/
theorem inquire_acts (t : Tracer σ) {key : MethodKey} (hkey : key.IsPlain)
    {name : String} {r : Resolved} (hr : t.Resolves name key.methodName r)
    (s : State σ) :
    Action.Leads (Acts t) (t.inquire key r) s (t.Findings key r) := by
  rw [inquire]
  refine .look (.bind Acts.trans (t.ask_acts _ key s) ?_
    fun e s' _ _ => t.findings_error e s')
  intro answer s₁ hs₁ htold
  have htells : t.Tells s₁.session.identity (promptFor key r) answer :=
    hs₁.identity.symm ▸ htold answer rfl
  refine .look ?_
  rcases hp : Reply.parse r.defining answer with suggestions | blocks | _
  · refine .pure Acts.refl ⟨fun a ha => absurd ha (by simp), ?_⟩
    intro _ hsuggestions name hname
    cases hsuggestions
    exact ⟨answer, suggestions, htells, hp, hname⟩
  · refine .look (.bind Acts.trans (Q := fun _ s₂ => Acts t s₁ s₂)
      ⟨recordTime_acts t _ _, recordTime_acts t _ _⟩ ?_
      fun e s' _ _ => t.findings_error e s')
    intro _ s₂ hs₂ _
    refine .bind Acts.trans (t.file_acts fun _ => ⟨_, .described .none
      hkey hr (hs₂.identity.symm ▸ htells) hp _⟩) ?_
      fun e s' _ _ => t.findings_error e s'
    intro _ s₃ hs₃ hheld
    refine .pure Acts.refl ⟨fun a ha _ huses => ?_,
      fun _ h => absurd h (by simp)⟩
    cases ha
    exact hheld rfl huses
  · exact .throw Acts.refl (t.findings_error _ _)

/-- Looking for a method makes deeds, and comes to what can be found out
about it. -/
theorem find_acts (t : Tracer σ) {key : MethodKey} (hkey : key.IsPlain)
    {name : String} {r : Resolved} (hr : t.Resolves name key.methodName r)
    (s : State σ) :
    Action.Leads (Acts t) (t.find key r) s (t.Findings key r) := by
  rw [find]
  refine .bind Acts.trans (t.cached_acts hkey _ s) ?_
    fun e s' _ _ => t.findings_error e s'
  intro found s' _ hfound
  rcases found with _ | a
  · refine .look ?_
    split
    · refine .bind Acts.trans (t.cancelledLeaf_acts key s') ?_
        fun e s'' _ _ => t.findings_error e s''
      intro a s'' _ ha
      refine .pure Acts.refl ⟨fun b hb hstatus => ?_,
        fun _ h => absurd h (by simp)⟩
      cases hb
      exact absurd hstatus (ha a rfl)
    · exact t.inquire_acts hkey hr s'
  · refine .pure Acts.refl ⟨fun b hb _ _ => ?_,
      fun _ h => absurd h (by simp)⟩
    cases hb
    exact hfound a rfl

-- ======================================================== suggestions

/-- Another type is tried by deeds of its own, and by those that follow it.
-/
theorem tryOther_acts (t : Tracer σ) {key : MethodKey} (hkey : key.IsPlain)
    {name : String} {r other : Resolved} {s : State σ}
    (hsuggests : t.Suggests s.session.identity key r name)
    (hother : t.Resolves name key.methodName other)
    {next : Action (State σ) Analysis}
    (hnext : ∀ s', Acts t s s' → Acts t s' (next s').2) :
    Acts t s (t.tryOther key r other next s).2 := by
  have hother' : (MethodKey.mk other.defining key.methodName).IsPlain := hkey
  obtain ⟨hacts, hheld, -⟩ := t.find_acts hother' hother s
  rw [tryOther]
  rcases hf : t.find ⟨other.defining, key.methodName⟩ other s with
    ⟨found, s'⟩
  rw [hf] at hacts hheld
  have hattempt : attempt (t.find ⟨other.defining, key.methodName⟩ other) s
      = (.ok found, s') := by rw [attempt, hf]
  rw [Action.bind_ok hattempt]
  refine Acts.trans _ _ _ hacts ?_
  rcases found with e | a | suggestions
  · cases e with
    | unresolved u => exact .refl s'
    | _ =>
      dsimp only
      split
      · exact hnext s' hacts
      · exact .refl s'
  · dsimp only
    split
    · rename_i hstatus
      have hfile := t.file_acts fun huses => ⟨_, .adopted .none hkey
        (hacts.identity.symm ▸ hsuggests) hother
        (hheld a rfl hstatus huses)⟩
      exact Action.Leads.related (Q := fun _ _ => True)
        (.bind Acts.trans hfile
          (fun _ _ _ _ => .pure Acts.refl trivial)
          fun _ _ _ _ => trivial)
    · exact hnext s' hacts
  · exact hnext s' hacts

/-- Trying suggestions is made of deeds, whatever was tried before. -/
theorem trySuggestions_acts (t : Tracer σ) {key : MethodKey}
    (hkey : key.IsPlain) {r : Resolved} (names : List String) :
    ∀ (tried searched : List String) (s : State σ),
      (∀ name ∈ names, t.Suggests s.session.identity key r name) →
      Acts t s (t.trySuggestions key r tried searched names s).2 := by
  induction names with
  | nil => exact fun _ _ s _ => .refl s
  | cons name rest ih =>
    intro tried searched s hsuggests
    have hrest : ∀ s', Acts t s s' → ∀ name ∈ rest,
        t.Suggests s'.session.identity key r name := fun s' hs' name hname =>
      hs'.identity.symm ▸ hsuggests name (List.mem_cons_of_mem _ hname)
    rw [trySuggestions]
    split
    · exact ih _ _ s (hrest s (.refl s))
    rw [Action.bind_ok (Action.get_run s)]
    split
    · exact (t.cancelledLeaf_acts key s).related
    obtain ⟨hacts, hresolves⟩ := t.resolve_acts name key.methodName s
    rcases hrun : Source.resolve t.lookup t.hierarchyDepth name
      key.methodName s with ⟨resolved, s'⟩
    rw [hrun] at hacts hresolves
    have hattempt : attempt (Source.resolve t.lookup t.hierarchyDepth name
        key.methodName) s = (.ok resolved, s') := by rw [attempt, hrun]
    rw [Action.bind_ok hattempt]
    refine Acts.trans _ _ _ hacts ?_
    rcases resolved with e | other
    · cases e with
      | unresolved u => exact ih _ _ s' (hrest s' hacts)
      | _ => exact .refl s'
    · refine t.tryOther_acts hkey (hacts.identity.symm ▸
        hsuggests name (List.mem_cons_self ..)) (hresolves other rfl)
        fun s'' hs'' => ih _ _ s'' (hrest s'' ?_)
      exact Acts.trans _ _ _ hacts hs''

/-- Describing a method is a sequence of deeds. -/
theorem base_acts (t : Tracer σ) {key : MethodKey} (hkey : key.IsPlain) :
    (t.base key).Changes (Acts t) := by
  intro s
  rw [base]
  refine Action.Leads.related (Q := fun _ _ => True) (.look ?_)
  split
  · exact (t.cancelledLeaf_acts key s).weaken fun _ _ _ _ => trivial
  refine .bind Acts.trans (t.resolve_acts key.typeName key.methodName s) ?_
    fun _ _ _ _ => trivial
  intro r s₁ _ hr
  refine .bind Acts.trans (t.find_acts hkey (hr r rfl) s₁) ?_
    fun _ _ _ _ => trivial
  intro found s₂ _ hfound
  cases found with
  | described a => exact .pure Acts.refl trivial
  | absent suggestions =>
    refine ⟨t.trySuggestions_acts hkey _ _ _ s₂ fun name hname => ?_,
      trivial⟩
    exact hfound.suggested suggestions rfl name
      ((firstItems_sublist _ _).subset hname)

theorem carried_acts (t : Tracer σ) : Carried t (Acts t) where
  trans := Acts.trans
  books _ _ hw hi hl := .of_world hw hi hl
  told _ _ := .heard _ _
  described _ hkey := t.base_acts hkey

/-- A whole run is a sequence of deeds. -/
theorem run_deeds (t : Tracer σ) (s : State σ) :
    ∃ log, Deeds t s.session.identity s.world log (t.run s).2.world :=
  (t.carried_acts.run s).deeds

end Tracer

end CallTrace.Run
