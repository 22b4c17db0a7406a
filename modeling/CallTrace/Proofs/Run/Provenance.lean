/-
Where the descriptions in the cache come from.

A description is filed with the fingerprint of the source that its method
was resolved to. It comes of that source, unless the oracle did not find
the method there: then it was found under another type that the oracle
suggested, and was taken over from there. So an entry is either described
from the text it is filed under, and has the fingerprint of that text
itself, or adopted. Each lookup is for the fingerprint of the current text
of the type that the method resolves to, so a description of the first sort
is served only as long as that text stays as it was. For one that was
adopted nothing of the kind is checked: the text it comes of is that of the
other type, and that may have changed.
-/
import CallTrace.Proofs.Run.Deeds
import CallTrace.Proofs.Run.Shared
import CallTrace.Proofs.Run.Sound

namespace CallTrace.Run

open Cache (Rule Store)
open Number (Double)
open Source (Resolved)

variable {σ : Type}

-- =============================================================== rule

/-- What the oracle of an identity answered to a prompt. -/
abbrev Said := String → Prompt → String → Prop

/-- The description is the one that an answer gives for a source with the
fingerprint. -/
def Described (said : Said) (key : MethodKey) (a : Analysis)
    (fingerprint identity : String) : Prop :=
  ∃ (r : Resolved) (answer : String) (blocks : List Block) (now : Double),
    fingerprint = Source.fingerprint r.source.content ∧
    said identity (Tracer.promptFor key r) answer ∧
    Reply.parse r.defining answer = .described blocks ∧
    a = Tracer.describe key r (.described blocks) now

/-- Asked about the method in a source with the fingerprint, the oracle
did not find it there and suggested other types. -/
def Referred (said : Said) (key : MethodKey) (fingerprint identity : String) :
    Prop :=
  ∃ (r : Resolved) (answer : String) (suggestions : List String),
    fingerprint = Source.fingerprint r.source.content ∧
    said identity (Tracer.promptFor key r) answer ∧
    Reply.parse r.defining answer = .absent suggestions ∧
    suggestions ≠ []

/-- How a description can have come under a key, as made from a source with
the fingerprint: it was described, or the oracle referred to other types
and it was taken over from one of those. -/
inductive Made (said : Said) : Rule where
  | described {key : MethodKey} {a : Analysis} {f i : String}
      (h : Described said key a f i) : Made said key a f i
  | adopted {key : MethodKey} {a : Analysis} {f f' i definer : String}
      (hreferred : Referred said key f i)
      (h : Made said ⟨definer, key.methodName⟩ a f' i) :
    Made said key (Tracer.readdress key a definer) f i

/-- The description is that of another type, to which the oracle referred,
made from a source with a fingerprint of its own. -/
def Adopted (said : Said) (key : MethodKey) (a : Analysis)
    (fingerprint identity : String) : Prop :=
  Referred said key fingerprint identity ∧
    ∃ definer b f', Made said ⟨definer, key.methodName⟩ b f' identity ∧
      a = Tracer.readdress key b definer

namespace Described

variable {said : Said} {key : MethodKey} {a : Analysis} {f i : String}

/-- A description names the text it comes of. -/
theorem fingerprint_eq (h : Described said key a f i) :
    a.fingerprint = f := by
  obtain ⟨r, answer, blocks, now, rfl, -, -, rfl⟩ := h
  rfl

end Described

theorem made_timeless (said : Said) : (Made said).Timeless := by
  intro key a f i time h
  induction h with
  | described h =>
    obtain ⟨r, answer, blocks, now, hf, hsaid, hreply, rfl⟩ := h
    exact .described ⟨r, answer, blocks, time, hf, hsaid, hreply, rfl⟩
  | adopted hreferred _ ih => exact .adopted hreferred ih

/-- Whatever the tracer is told by an oracle is among what was said. -/
def Tracer.Heeds (t : Tracer σ) (said : Said) : Prop :=
  ∀ identity prompt answer, t.Tells identity prompt answer →
    said identity prompt answer

namespace Deeds

variable {said : Said} {t : Tracer σ} {identity : String}
  {w w' : World σ} {log : List Filing}

/-- What a run files was made from what its own oracle said. -/
theorem obeys_told
    (ht : ∀ prompt answer, t.Tells identity prompt answer →
      said identity prompt answer)
    (h : Deeds t identity w log w') (hw : w.store.Obeys (Made said)) :
    w'.store.Obeys (Made said) := by
  have htimeless := made_timeless said
  induction h with
  | none => exact hw
  | met _ _ ih | slept _ _ ih => exact ih
  | consulted _ key f hkey ih => exact (ih.lookup htimeless _ hkey f _).1
  | timed _ ms ih => exact ih.recordTime ms
  | described _ hkey _ hanswer hreply now ih =>
    exact ih.store htimeless _ hkey (.described
      ⟨_, _, _, now, rfl, ht _ _ hanswer, hreply, rfl⟩) _
  | adopted _ hkey hsuggests _ hheld ih =>
    obtain ⟨e, he, rfl, hf, hi⟩ := hheld
    obtain ⟨answer, suggestions, htells, hreply, hname⟩ := hsuggests
    have hmade : Made said _ e.analysis e.fingerprint e.identity :=
      ih.session _ he
    rw [hf, hi] at hmade
    exact ih.store htimeless _ hkey (.adopted ⟨_, answer, suggestions, rfl,
      ht _ _ htells, hreply, List.ne_nil_of_mem hname⟩ hmade) _

/-- What a run files was made from what was said. -/
theorem obeys_made (ht : t.Heeds said) (h : Deeds t identity w log w')
    (hw : w.store.Obeys (Made said)) : w'.store.Obeys (Made said) :=
  h.obeys_told (ht identity) hw

end Deeds

-- ========================================================= provenance

/-- The store is shared by runs that were told nothing but what was
said. -/
def Informed (said : Said) : Store → Prop :=
  Shared fun _ t _ => t.Heeds said

theorem Informed.obeys {said : Said} {s : Store} (h : Informed said s) :
    s.Obeys (Made said) := by
  refine Shared.obeys (made_timeless said) (fun t s ht hs => ?_) h
  obtain ⟨log, hdeeds⟩ := t.run_deeds s
  exact hdeeds.obeys_made ht hs

/-- An entry that was described has the fingerprint of its description; any
other was adopted. -/
theorem Made.cases {said : Said} {key : MethodKey} {a : Analysis}
    {f i : String} (h : Made said key a f i) :
    (a.fingerprint = f ∧ Described said key a f i) ∨
      Adopted said key a f i := by
  cases h with
  | described h => exact .inl ⟨h.fingerprint_eq, h⟩
  | adopted hreferred h => exact .inr ⟨hreferred, _, _, _, h, rfl⟩

/-- What the cache serves obeys the rule, for the source it was asked
about. -/
theorem Tracer.cached_obeys (t : Tracer σ) {P : Rule} (hP : P.Timeless)
    {key : MethodKey} (hkey : key.IsPlain) {f : String} {s : State σ}
    (hs : s.world.store.Obeys P) {a : Analysis}
    (h : (t.cached key f s).1 = .ok (some a)) :
    P key a f s.session.identity := by
  have hfound := (hs.lookup hP s.world.clock hkey f s.session.identity).2
  rw [cached, Action.bind_ok (Action.get_run s)] at h
  split at h
  · rcases hr : Store.lookup s.world.clock key f s.session.identity
      s.world.store with ⟨e | found, store⟩
    · have hrun : onStore (fun clock => Store.lookup clock key f
          s.session.identity) s =
          (.error e, { s with world.store := store }) := by
        rw [onStore, hr]
      rw [Action.bind_error hrun] at h
      exact absurd h (by simp)
    · have hrun : onStore (fun clock => Store.lookup clock key f
          s.session.identity) s =
          (.ok found, { s with world.store := store }) := by
        rw [onStore, hr]
      rw [Action.bind_ok hrun] at h
      rw [hr] at hfound
      rcases found with _ | b
      · exact absurd (congrArg Except.toOption h) (by simp [Action.bind_run,
          Action.modify_run, Action.pure_run, Except.toOption])
      · cases (Except.ok.inj h : some b = some a)
        exact hfound _ rfl
  · exact absurd h (by simp [Action.pure_run])

/-- In a store that is shared by runs of whatever sources, every entry of
either tier, at every point that a further run can lead to, either was
described from text with the fingerprint that it is filed under, and has
that fingerprint itself, or was adopted from another type, to which the
oracle referred when it was asked about such text. So does everything that
is served for a source: the text is then the current one. A run is a
sequence of deeds. -/
theorem entries_made {said : Said} (t : Tracer σ) (ht : t.Heeds said)
    (s : State σ) (hs : Informed said s.world.store) :
    (∃ log, Deeds t s.session.identity s.world log (t.run s).2.world) ∧
    ∀ log w, Deeds t s.session.identity s.world log w →
      (∀ e ∈ w.store.session.entries.entries,
        e.2.analysis.fingerprint = e.2.fingerprint ∧
          Described said e.1 e.2.analysis e.2.fingerprint e.2.identity ∨
        Adopted said e.1 e.2.analysis e.2.fingerprint e.2.identity) ∧
      (∀ d, w.store.durable = some d → ∀ e ∈ d.entries.entries,
        ∃ key : MethodKey, key.text = e.1 ∧
          (e.2.analysis.fingerprint = e.2.fingerprint ∧
            Described said key e.2.analysis e.2.fingerprint e.2.identity ∨
          Adopted said key e.2.analysis e.2.fingerprint e.2.identity)) ∧
      ∀ (s' : State σ) (key : MethodKey) (r : Resolved) (a : Analysis),
        s'.world = w → s'.session.identity = s.session.identity →
        key.IsPlain →
        (t.cached key (Source.fingerprint r.source.content) s').1 =
          .ok (some a) →
        a.fingerprint = Source.fingerprint r.source.content ∧
          Described said key a (Source.fingerprint r.source.content)
            s.session.identity ∨
        Adopted said key a (Source.fingerprint r.source.content)
          s.session.identity := by
  refine ⟨t.run_deeds s, fun log w hdeeds => ?_⟩
  have hw := hdeeds.obeys_made ht hs.obeys
  refine ⟨fun e he => (hw.session e he).cases, fun d hd e he => ?_, ?_⟩
  · obtain ⟨key, htext, -, hmade⟩ := hw.durable d hd e he
    exact ⟨key, htext, hmade.cases⟩
  · rintro s' key r a rfl hidentity hkey hserved
    rw [← hidentity]
    exact (t.cached_obeys (made_timeless said) hkey hw hserved).cases

-- ========================================================= a referral

/-- A type without the method, and a type with this text. -/
def referralSource (text : String) : String → Option Source.SourceFile
  | "A" => some
    { typeName := "A", path := "a.py", content := "class A {}"
      language := "python" }
  | "E" => some
    { typeName := "E", path := "e.py", content := text, language := "python" }
  | _ => none

/-- Does not find the method in the first type and refers to the second,
where it is described. -/
def referralTracer (text : String) : Tracer Unit where
  sourceOf name _ _ := ⟨.ok (referralSource text name), false, ()⟩
  answerTo _ prompt _ :=
    let answer :=
      if prompt.typeName = "A" then
        "### Method Not Found\n\n#### Check Parent Types:\n" ++
          "- **Extends**: `E`\n"
      else "#### Block 1: work"
    ⟨[.say answer], false, ()⟩
  inform _ _ := ⟨.ok (), false, ()⟩

/-- A run of the method of the first type, in some world, is about to
start. -/
def referralStart (world : World Unit) : State Unit where
  session :=
    { root := ⟨"A", "m"⟩
      limits := cachingLimits
      identity := "o", startedAt := .zero }
  world := world

/-- The world after a first run, the text of the second type as it was
then. -/
def referralWorld : World Unit :=
  ((referralTracer "void m() {}").run (referralStart pairStart.world)).2.world

/-- What is said while the text is as it was, and when it is another one. -/
def referralSaid : Said := fun identity prompt answer =>
  (referralTracer "void m() {}").Tells identity prompt answer ∨
    (referralTracer "void m() { x(); }").Tells identity prompt answer

theorem informed_referral : Informed referralSaid referralWorld.store := by
  have hfresh : Informed referralSaid pairStart.world.store :=
    .fresh ⟨rfl, fun d hd => absurd hd (by simp [pairStart])⟩
      fun e he => absurd he (by simp [pairStart])
  rw [referralWorld]
  exact .run (referralTracer "void m() {}") (referralStart pairStart.world)
    (fun _ _ _ h => .inl h) hfresh

/-- What the first run has filed was described from the text as it was, or
adopted on a suggestion. -/
theorem entries_made_referral :
    (referralTracer "void m() { x(); }").Heeds referralSaid ∧
    Informed referralSaid referralWorld.store ∧
    ∀ e ∈ referralWorld.store.session.entries.entries,
      e.2.analysis.fingerprint = e.2.fingerprint ∧
        Described referralSaid e.1 e.2.analysis e.2.fingerprint
          e.2.identity ∨
      Adopted referralSaid e.1 e.2.analysis e.2.fingerprint
        e.2.identity := by
  have hinformed := informed_referral
  generalize referralWorld = w at hinformed ⊢
  have hheeds : (referralTracer "void m() { x(); }").Heeds referralSaid :=
    fun _ _ _ h => .inr h
  refine ⟨hheeds, hinformed, ?_⟩
  obtain ⟨-, hentries⟩ := entries_made (referralTracer "void m() { x(); }")
    hheeds (referralStart w) hinformed
  exact (hentries [] w .none).1

/-- The first run files two analyses. A run after it, with the other text,
asks nothing and comes to what was described before. -/
theorem served_referral :
    referralWorld.store.session.entries.size = 2 ∧
    ((referralTracer "void m() { x(); }").run
      (referralStart referralWorld)).2.session.oracleCalls = 0 ∧
    ((referralTracer "void m() { x(); }").run
      (referralStart referralWorld)).1.toOption.any (fun a =>
        a.inheritedFrom = some "E" ∧
          a.fingerprint = Source.fingerprint "void m() {}") = true := by
  decide +kernel

/-- The text of the type that was suggested changes after a first run. The
next run of the method does not ask the oracle, and serves what was
described from the text as it was. -/
theorem adopted_outlives_text :
    Informed referralSaid referralWorld.store ∧
    Source.fingerprint "void m() {}" ≠
      Source.fingerprint "void m() { x(); }" ∧
    ((referralTracer "void m() { x(); }").run
      (referralStart referralWorld)).2.session.oracleCalls = 0 ∧
    ∃ a, ((referralTracer "void m() { x(); }").run
        (referralStart referralWorld)).1 = .ok a ∧
      a.inheritedFrom = some "E" ∧
      a.fingerprint = Source.fingerprint "void m() {}" := by
  obtain ⟨-, hcalls, hserved⟩ := served_referral
  refine ⟨informed_referral, by decide +kernel, hcalls, ?_⟩
  generalize ((referralTracer "void m() { x(); }").run
    (referralStart referralWorld)).1 = outcome at hserved
  cases outcome with
  | error u => exact absurd hserved (by simp [Except.toOption])
  | ok a => exact ⟨a, rfl, by simpa [Except.toOption] using hserved⟩

end CallTrace.Run
