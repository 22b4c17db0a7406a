/-
An analyst that is set up to work without the cache.

A method can be asked for plainly, in a chat message, or by a call of the
analyzing tool. A plain request and a message take the limits from the
settings, and so do not use the cache if the settings say so. The tool has
an argument of its own for the cache, which is put in the place of the
setting whether or not it is given; only if it says the same is the setting
kept.

As long as it is kept, requests neither find anything in the cache nor file
anything there, whatever the cache holds, and a method is traced in the same
way however it is asked for.
-/
import CallTrace.Analyst.Tools
import CallTrace.Proofs.Analyst.Lifetime
import CallTrace.Proofs.Cache.Exact
import CallTrace.Proofs.Run.Budget
import CallTrace.Proofs.Run.Uncached

namespace CallTrace

open Cache (Store)
open Json
open Run (Overheard Prompt Surroundings pairTracer)
open Trace (Report)

variable {σ : Type}

-- ============================================================== limits

/-- Limits that were read use the cache as the document says. -/
theorem Limits.useCache_of_read {v : Json} {l : Limits} {b : Bool}
    (h : Limits.read v = .good l)
    (hfield : v.field? "enable_cache" = some (.bool b)) :
    l.useCache = b := by
  obtain ⟨-, -, hread⟩ := readObject_eq_good h
  obtain ⟨_, hfour, model, -, rfl⟩ := seq_eq_good_iff.1 hread
  obtain ⟨_, hthree, useCache, huse, rfl⟩ := seq_eq_good_iff.1 hfour
  obtain ⟨_, htwo, timeout, -, rfl⟩ := seq_eq_good_iff.1 hthree
  obtain ⟨_, hone, methods, -, rfl⟩ := seq_eq_good_iff.1 htwo
  obtain ⟨depth, -, rfl⟩ := map_eq_good_iff.1 hone
  rw [withDefault, hfield] at huse
  cases huse
  rfl

namespace Analyst

/-- The usual limits with some of them replaced, as they are read. -/
def replacedLimits (a : Analyst σ) (replaced : List (String × Json)) :
    Reading Limits :=
  a.usualLimits.andThen fun limits =>
    match limits.toJson with
    | .object fields =>
      Limits.read (.object
        (replaced.foldl (fun fs f => setField fs f.1 f.2) fields))
    | _ => .good limits

/-- The second piece of a service goes on where the first one ended. -/
theorem bind_congr_run {α β : Type} {m m' : Service σ α} {a : Analyst σ}
    (h : m a = m' a) (f : α → Service σ β) :
    (m >>= f) a = (m' >>= f) a := by
  show (ExceptT.bind m f : StateM (Analyst σ) _) a =
    (ExceptT.bind m' f : StateM (Analyst σ) _) a
  simp only [ExceptT.bind, ExceptT.mk, bind, StateT.bind]
  rw [show m a = m' a from h]

/-- The limits of a run are the settings with the fields that are replaced,
if these are accepted. -/
theorem limitsWith_run (a : Analyst σ) (replaced : List (String × Json)) :
    limitsWith replaced a = accept (a.replacedLimits replaced) a := by
  have hlook : limitsWith replaced a = (accept a.usualLimits >>=
      fun limits => match limits.toJson with
        | .object fields => accept (Limits.read (.object
          (replaced.foldl (fun fs f => setField fs f.1 f.2) fields)))
        | _ => pure limits : Service σ Limits) a := rfl
  rw [hlook, replacedLimits]
  cases a.usualLimits <;> rfl

/-- Limits with the use of the cache replaced last use it as was said,
whatever the settings say. -/
theorem useCache_replacedLimits {a : Analyst σ} {l : Limits}
    {replaced : List (String × Json)} {b : Bool}
    (h : a.replacedLimits (replaced ++ [("enable_cache", .bool b)]) =
      .good l) : l.useCache = b := by
  rw [replacedLimits] at h
  rcases hu : a.usualLimits with usual | faults <;> rw [hu] at h
  · obtain ⟨fields, hfields⟩ : ∃ fields, usual.toJson = .object fields :=
      ⟨_, rfl⟩
    rw [Reading.andThen, hfields] at h
    dsimp only at h
    rw [List.foldl_append] at h
    exact Limits.useCache_of_read h (field?_setField ..)
  · cases h

section

variable {a : Analyst σ} {l : Limits} (hoff : a.settings.useCache = false)

include hoff

theorem useCache_usualLimits (h : a.usualLimits = .good l) :
    l.useCache = false :=
  Limits.useCache_of_read h (congrArg (fun b => some (Json.bool b)) hoff)

/-- What the limits say already need not be replaced. -/
theorem replacedLimits_useCache :
    a.replacedLimits [("enable_cache", .bool false)] = a.usualLimits := by
  rw [replacedLimits]
  rcases h : a.usualLimits with l | faults
  · have hfield : l.toJson = .object (setField
        [("max_depth", .int l.maxDepth),
         ("max_total_methods", .int l.maxMethods),
         ("per_call_timeout_s", .float l.timeout),
         ("enable_cache", .bool l.useCache),
         ("model", .ofText? l.model)] "enable_cache" (.bool false)) := by
      rw [Limits.toJson, useCache_usualLimits hoff h]
      rfl
    have hread := l.read_toJson
    rw [hfield] at hread
    exact hread
  · rfl

end

-- ================================================================ ways

/-- A way to ask for a method. -/
inductive Ask where
  | plain (key : MethodKey)
  /-- A message that is understood so. -/
  | chat (message : String) {typeName methodName : String}
      (h : Request.parse message = .analyze typeName methodName)
  /-- A call of the analyzing tool that says not to use the cache, and may
  set other limits. -/
  | tool (typeName methodName : String) (limits : List (String × Json))

namespace Ask

/-- The method that is asked for. -/
def key : Ask → MethodKey
  | plain key => key
  | @chat _ typeName methodName _ => ⟨typeName, methodName⟩
  | tool typeName methodName _ => ⟨typeName, methodName⟩

/-- The limits that are set besides the use of the cache. -/
def limits : Ask → List (String × Json)
  | plain _ | chat .. => []
  | tool _ _ limits => limits

/-- Answers with a text. `name` is the name of the session. -/
def answer (around : Surroundings σ) (name : String) :
    Ask → Service σ String
  | plain key => do
    let limits ← accept (← get).usualLimits
    pure (← trace around name key limits).text
  | chat message _ => respond around name message
  | tool typeName methodName limits =>
    call around name (.analyze typeName methodName limits (.bool false))

/-- The text that answers with a report. -/
def textOf : Ask → Report → String
  | plain _ | chat .. => Report.text
  | tool .. => fun r => toolText (toolReport r)

/-- The limits of the run that is asked for. -/
def limitsOf (a : Analyst σ) : Ask → Reading Limits
  | plain _ | chat .. => a.usualLimits
  | tool _ _ limits =>
    a.replacedLimits (limits ++ [("enable_cache", .bool false)])

variable (around : Surroundings σ) (name : String) (ask : Ask)

/-- However a method is asked for, it is traced within the limits, or
nothing is done. -/
theorem answer_run (a : Analyst σ) : ask.answer around name a =
    match ask.limitsOf a with
    | .good limits =>
      (.ok (ask.textOf (trace around name ask.key limits a).1),
        (trace around name ask.key limits a).2)
    | .bad faults => (.error (.invalid faults), a) := by
  -- What is done once the limits are there.
  let answered (key : MethodKey) (text : Report → String)
      (limits : Limits) : Service σ String := do
    pure (text (← trace around name key limits))
  have hrun (key : MethodKey) (text : Report → String)
      (r : Reading Limits) : (accept r >>= answered key text) a =
      match r with
      | .good limits => (.ok (text (trace around name key limits a).1),
          (trace around name key limits a).2)
      | .bad faults => (.error (.invalid faults), a) := by
    cases r <;> rfl
  cases ask with
  | plain key => exact hrun key Report.text a.usualLimits
  | @chat message typeName methodName h =>
    rw [answer, respond, h]
    exact hrun ⟨typeName, methodName⟩ Report.text a.usualLimits
  | tool typeName methodName limits =>
    refine Eq.trans ?_ (hrun ⟨typeName, methodName⟩
      (fun r => toolText (toolReport r)) _)
    exact bind_congr_run (limitsWith_run a _) _

/-- The limits do not depend on the world. -/
theorem limitsOf_world (a : Analyst σ) (w : Run.World σ) :
    ask.limitsOf { a with world := w } = ask.limitsOf a := rfl

theorem useCache_limitsOf {a : Analyst σ}
    (hoff : a.settings.useCache = false) {l : Limits}
    (h : ask.limitsOf a = .good l) : l.useCache = false := by
  cases ask with
  | plain | chat => exact useCache_usualLimits hoff h
  | tool => exact useCache_replacedLimits h

/-- A request that sets nothing but the use of the cache has the usual
limits. -/
theorem limitsOf_eq {a : Analyst σ} (hoff : a.settings.useCache = false)
    (h : ask.limits = []) : ask.limitsOf a = a.usualLimits := by
  cases ask with
  | plain | chat => rfl
  | tool typeName methodName limits =>
    obtain rfl : limits = [] := h
    exact replacedLimits_useCache hoff

end Ask

-- =============================================================== tracing

/-- A method that is traced without the cache leaves the store as it was but
for the times noted, and is traced so over any other store with the same
files. -/
theorem trace_uncached (around : Surroundings σ) (name : String)
    (key : MethodKey) {limits : Limits} (hoff : limits.useCache = false)
    (a : Analyst σ) :
    let traced := trace around name key limits a
    traced.2.settings = a.settings ∧
    traced.2.world.store.untimed = a.world.store.untimed ∧
    ∀ store, store.files = a.world.store.files →
      ∃ store', store'.untimed = store.untimed ∧
        trace around name key limits { a with world.store := store } =
          (traced.1, { traced.2 with world.store := store' }) := by
  intro traced
  obtain ⟨hkept, hother⟩ := (tracer a.settings around).run_uncached
    (s := ⟨a.sessionFor key limits, a.world⟩) hoff
  refine ⟨rfl, hkept, fun store hfiles => ?_⟩
  obtain ⟨store', hkept', hrun⟩ := hother store hfiles
  exact ⟨store', hkept', congrArg (fun r : Run.Outcome × Run.State σ =>
    (report name r.2.session r.2.now r.1,
      ({ a with world := r.2.world } : Analyst σ))) hrun⟩

namespace Ask

variable (around : Surroundings σ) (name : String) (ask : Ask)
  {a : Analyst σ} (hoff : a.settings.useCache = false)

include hoff

/-- So it is for every request that does not use the cache. -/
theorem answer_uncached :
    let answered := ask.answer around name a
    answered.2.settings = a.settings ∧
    answered.2.world.store.untimed = a.world.store.untimed ∧
    ∀ store, store.files = a.world.store.files →
      ∃ store', store'.untimed = store.untimed ∧
        ask.answer around name { a with world.store := store } =
          (answered.1, { answered.2 with world.store := store' }) := by
  intro answered
  have hanswered : answered = _ := ask.answer_run around name a
  rw [hanswered]
  rcases hl : ask.limitsOf a with limits | faults
  · obtain ⟨hsettings, hkept, htraced⟩ := trace_uncached around name ask.key
      (ask.useCache_limitsOf hoff hl) a
    refine ⟨hsettings, hkept, fun store hfiles => ?_⟩
    obtain ⟨store', hkept', htrace⟩ := htraced store hfiles
    refine ⟨store', hkept', ?_⟩
    rw [answer_run, limitsOf_world, hl]
    exact congrArg (fun r : Report × Analyst σ =>
      ((.ok (ask.textOf r.1) : Except Refusal String), r.2)) htrace
  · refine ⟨rfl, rfl, fun store _ => ⟨store, rfl, ?_⟩⟩
    rw [answer_run, limitsOf_world, hl]

/-- Requests for one method that set no other limits come to the same. -/
theorem answer_alike {ask' : Ask} (h : ask.limits = [])
    (h' : ask'.limits = []) (hkey : ask.key = ask'.key) :
    (ask.answer around name a).2 = (ask'.answer around name a).2 := by
  rw [answer_run, answer_run, ask.limitsOf_eq hoff h,
    ask'.limitsOf_eq hoff h', hkey]
  cases a.usualLimits <;> rfl

end Ask

-- ============================================================ questions

/-- The analyst with a record of what the oracle is asked, in which nothing
is kept yet. -/
def overheard (a : Analyst σ) : Analyst (Overheard σ) where
  settings := a.settings
  model := a.model
  world :=
    { clock := a.world.clock
      store := a.world.store
      outside := { below := a.world.outside } }

/-- What the oracle is asked on a request, the last question first. -/
def questions (around : Surroundings σ)
    (answer : Surroundings (Overheard σ) → Service (Overheard σ) String)
    (a : Analyst σ) : List Prompt :=
  (answer around.overheard a.overheard).2.world.outside.asked

-- ============================================================= requests

/-- What becomes of the analyst `a₀` while methods are asked for, time goes
by, things change outside and other models are chosen. -/
inductive Asked (a₀ : Analyst σ) : Analyst σ → Prop where
  | start : Asked a₀ a₀
  | asked {a : Analyst σ} (h : Asked a₀ a) (around : Surroundings σ)
    (name : String) (ask : Ask) : Asked a₀ (ask.answer around name a).2
  | waited {a : Analyst σ} (h : Asked a₀ a) (seconds : Number.Double) :
    Asked a₀ { a with world.clock := a.world.clock.advance seconds }
  | changed {a : Analyst σ} (h : Asked a₀ a) (outside : σ) :
    Asked a₀ { a with world.outside := outside }
  | selected {a : Analyst σ} (h : Asked a₀ a) (model : String) :
    Asked a₀ (selectModel model a).2

/-- The analyst when it has answered requests, one after the other. -/
def answered (around : Surroundings σ) (name : String) (asks : List Ask)
    (a : Analyst σ) : Analyst σ :=
  asks.foldl (fun a ask => (ask.answer around name a).2) a

theorem Asked.answered {a₀ : Analyst σ} (around : Surroundings σ)
    (name : String) (asks : List Ask) {a : Analyst σ} (h : Asked a₀ a) :
    Asked a₀ (a.answered around name asks) := by
  induction asks generalizing a with
  | nil => exact h
  | cons ask asks ih => exact ih (h.asked around name ask)

/-- No request changes the settings, and without the cache none changes the
store but for the times noted. -/
theorem Asked.kept {a₀ a : Analyst σ} (h : Asked a₀ a)
    (hoff : a₀.settings.useCache = false) :
    a.settings = a₀.settings ∧
      a.world.store.untimed = a₀.world.store.untimed := by
  induction h with
  | start => exact ⟨rfl, rfl⟩
  | asked _ around name ask ih =>
    obtain ⟨hsettings, hkept⟩ := ih
    obtain ⟨hsettings', hkept', -⟩ :=
      ask.answer_uncached around name (hsettings ▸ hoff)
    exact ⟨hsettings'.trans hsettings, hkept'.trans hkept⟩
  | waited _ _ ih | changed _ _ ih | selected _ _ ih => exact ih

-- ============================================================= summary

/-- If the settings say that the cache is not to be used, and calls of the
analyzing tool say so too, then in any sequence of requests nothing is
stored in either tier; no answer depends on what the tiers hold, nor does
what the oracle is asked or what else is done to the world, so nothing is
served from them; and all ways to ask for a method come to the same, and ask
the oracle the same. -/
theorem cache_switched_off {a₀ a : Analyst σ}
    (hoff : a₀.settings.useCache = false) (h : Asked a₀ a) :
    a.world.store.untimed = a₀.world.store.untimed ∧
    (∀ (around : Surroundings σ) (name : String) (ask : Ask) (store : Store),
      store.files = a.world.store.files →
      (∃ store', store'.untimed = store.untimed ∧
        ask.answer around name { a with world.store := store } =
          ((ask.answer around name a).1,
            { (ask.answer around name a).2 with world.store := store' })) ∧
      questions around (ask.answer · name)
          { a with world.store := store } =
        questions around (ask.answer · name) a) ∧
    (∀ (around : Surroundings σ) (name : String) (ask ask' : Ask),
      ask.limits = [] → ask'.limits = [] → ask.key = ask'.key →
      (ask.answer around name a).2 = (ask'.answer around name a).2 ∧
      questions around (ask.answer · name) a =
        questions around (ask'.answer · name) a) := by
  obtain ⟨hsettings, hkept⟩ := h.kept hoff
  have hoff : a.settings.useCache = false := hsettings ▸ hoff
  have hoverheard : a.overheard.settings.useCache = false := hoff
  refine ⟨hkept, fun around name ask store hfiles => ⟨?_, ?_⟩,
    fun around name ask ask' h h' hkey => ⟨?_, ?_⟩⟩
  · exact (ask.answer_uncached around name hoff).2.2 store hfiles
  · obtain ⟨store', -, hanswer⟩ := (ask.answer_uncached around.overheard name
      hoverheard).2.2 store hfiles
    exact congrArg (fun r => r.2.world.outside.asked) hanswer
  · exact ask.answer_alike around name hoff h h' hkey
  · exact congrArg (fun b => b.world.outside.asked)
      (ask.answer_alike around.overheard name hoverheard h h' hkey)

-- ============================================================ one switch

private theorem offPlaces : (1 : Int) ≤ 100 := by decide

private theorem offDurablePlaces : (1 : Int) ≤ 1000 := by decide

/-- Settings that say not to use the cache. -/
def offSettings : Settings where
  useCache := false
  useDurable := false
  sessionEntries_pos := offPlaces
  durableEntries_pos := offDurablePlaces

/-- An analyst with these settings, of a source with two methods. -/
def offAnalyst : Analyst Unit :=
  create offSettings "/w" { start := .zero } {} ()

private theorem parse_thrice :
    Request.parse "flow A.m" = .analyze "A" "m" := by decide +kernel

/-- The same method, asked for in three ways. -/
def askedThrice : List Ask :=
  [.plain ⟨"A", "m"⟩, .chat "flow A.m" parse_thrice, .tool "A" "m" []]

/-- The three ways of asking leave the cache as it was, and put the same
questions. -/
theorem cache_switched_off_thrice :
    let around := pairTracer.toSurroundings
    let a := answered around "s" askedThrice offAnalyst
    offAnalyst.settings.useCache = false ∧ Asked offAnalyst a ∧
    a.world.store.untimed = offAnalyst.world.store.untimed ∧
    questions around ((Ask.plain ⟨"A", "m"⟩).answer · "s") a =
      questions around ((Ask.tool "A" "m" []).answer · "s") a := by
  intro around a
  have hoff : offAnalyst.settings.useCache = false := rfl
  have hasked : Asked offAnalyst a := .answered around "s" askedThrice .start
  obtain ⟨hkept, -, halike⟩ := cache_switched_off hoff hasked
  exact ⟨hoff, hasked, hkept,
    (halike around "s" (.plain ⟨"A", "m"⟩) (.tool "A" "m" []) rfl rfl rfl).2⟩

/-- But if a call of the tool does not say anything about the cache, the
method is filed there, and a second such call is served from it, where a
plain request asks the oracle. -/
theorem use_cache_by_default :
    let around := pairTracer.toSurroundings
    let args : Json := .object
      [("type_name", .text "A"), ("method_name", .text "m")]
    ∃ c, ToolCall.of? "analyze_flow" args = some c ∧
      offAnalyst.settings.useCache = false ∧
      let a := (call around "s" c offAnalyst).2
      a.world.store.session.entries.size = 2 ∧
      questions (σ := Unit) around (call · "s" c) a = [] ∧
      questions around ((Ask.plain ⟨"A", "m"⟩).answer · "s") a ≠ [] := by
  refine ⟨_, rfl, rfl, ?_⟩
  decide +kernel

end Analyst

end CallTrace
