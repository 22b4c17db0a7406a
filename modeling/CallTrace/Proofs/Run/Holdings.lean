/-
What the cache holds of a method.

A description is filed before the calls in it are traced, and what is
learned by tracing goes into copies. So whatever becomes of a run, and
however many runs share a store, what lies in the cache is what an oracle
said of a method and nothing more: its blocks are those of one reply, with
the calls numbered through and none of them answered. The reply came from
the oracle whose identity the entry bears.

A description that was adopted from another type has the blocks of the
reply about that type. Adoption is followed back to the reply by induction
on how the entry was made.
-/
import CallTrace.Proofs.Run.Provenance

namespace CallTrace

-- ============================================================ replies

/-- A reply that describes a method has blocks, which are numbered
through. -/
theorem Reply.numbered_of_parse {owner text : String} {blocks : List Block}
    (h : parse owner text = .described blocks) :
    blocks ≠ [] ∧ Numbered blocks.length (.described blocks) := by
  have hpresent : ¬∃ names, parse owner text = .absent names := by
    rintro ⟨names, habsent⟩
    rw [h] at habsent
    cases habsent
  obtain ⟨drafts, -, hparse⟩ := parse_present hpresent
  rw [h] at hparse
  split at hparse
  · cases hparse
  · rename_i hdrafts
    cases hparse
    have hnumbered := numbered drafts
    have hlength : (linkBlocks (numberBlocks 0 0 drafts)).length =
        drafts.length := by
      simpa [Reply.blocks] using congrArg List.length hnumbered.names
    refine ⟨fun hnil => hdrafts ?_, hlength.symm ▸ hnumbered⟩
    rw [hnil] at hlength
    exact List.eq_nil_of_length_eq_zero hlength.symm

namespace Run

open Cache (Store)
open Source (Resolved)

variable {σ : Type}

-- =========================================================== entries

/-- The analysis is a whole description of the method, with the blocks of a
reply of the oracle, and with nothing of what tracing the calls in it would
add. -/
structure Pristine (said : Said) (key : MethodKey) (a : Analysis)
    (identity : String) : Prop where
  about : a.key = key
  status : a.status = .complete
  blocks : a.blocks ≠ []
  /-- No call is answered. -/
  calls : ∀ c ∈ a.calls, c.innerStatus = none ∧ c.innerNote = none
  /-- The calls are counted through. -/
  orders : a.calls.map (·.order) =
    (List.range a.calls.length).map fun (i : Nat) => (i : Int)
  /-- Each bucket has its calls in the order of the description. -/
  buckets : ∀ d, a.summary.bucket d = a.calls.filter (·.decision = d)
  /-- Each call is in one bucket. -/
  parts : (Decision.all.flatMap a.summary.bucket).Perm a.calls
  /-- The oracle said so, narratives included. -/
  told : ∃ prompt answer, prompt.methodName = key.methodName ∧
    said identity prompt answer ∧
    Reply.parse prompt.typeName answer = .described a.blocks

namespace Pristine

variable {said : Said} {key : MethodKey} {a : Analysis} {f i : String}

theorem of_described (h : Described said key a f i) :
    Pristine said key a i := by
  obtain ⟨r, answer, blocks, now, -, hsaid, hparse, rfl⟩ := h
  obtain ⟨hblocks, hnumbered⟩ := Reply.numbered_of_parse hparse
  refine ⟨rfl, rfl, hblocks, fun c hc => ?_, hnumbered.orders,
    hnumbered.buckets, hnumbered.parts, _, answer, rfl, hsaid, hparse⟩
  exact Reply.bare_parse r.defining answer c (by rw [hparse]; exact hc)

/-- Under another type the description is the same but for the name. -/
theorem readdress {definer other : String}
    (h : Pristine said ⟨definer, key.methodName⟩ a i) :
    Pristine said key (Tracer.readdress key a other) i where
  about := rfl
  status := h.status
  blocks := h.blocks
  calls := h.calls
  orders := h.orders
  buckets := h.buckets
  parts := h.parts
  told := h.told

end Pristine

theorem Made.pristine {said : Said} {key : MethodKey} {a : Analysis}
    {f i : String} (h : Made said key a f i) : Pristine said key a i := by
  induction h with
  | described h => exact .of_described h
  | adopted _ _ ih => exact ih.readdress

-- ============================================================== store

/-- Whatever the run's own oracle can tell is among what was said. -/
def Told (said : Said) : Kind := fun _ t s =>
  ∀ prompt answer, t.Tells s.session.identity prompt answer →
    said s.session.identity prompt answer

theorem obeys_of_told {said : Said} {s : Store} (h : Shared (Told said) s) :
    s.Obeys (Made said) := by
  refine Shared.obeys (made_timeless said) (fun t s ht hs => ?_) h
  obtain ⟨log, hdeeds⟩ := t.run_deeds s
  exact hdeeds.obeys_told ht hs

/-- In a store that is shared by runs of whatever sources and oracles, every
entry of either tier, at every point that a further run can lead to, is a
description as the oracle of its identity gave it, complete and under the
key of its method, with the calls numbered through, in their buckets and
unanswered; and so is every entry that a file is then read as. A run is a
sequence of deeds. -/
theorem entries_pristine {said : Said} (t : Tracer σ) (s : State σ)
    (ht : Told said σ t s) (hs : Shared (Told said) s.world.store) :
    (∃ log, Deeds t s.session.identity s.world log (t.run s).2.world) ∧
    ∀ log w, Deeds t s.session.identity s.world log w →
      (∀ e ∈ w.store.session.entries.entries,
        Pristine said e.1 e.2.analysis e.2.identity) ∧
      (∀ d, w.store.durable = some d → ∀ e ∈ d.entries.entries,
        ∃ key : MethodKey, key.text = e.1 ∧
          Pristine said key e.2.analysis e.2.identity) ∧
      ∀ path now entries,
        Cache.readEntries w.store.files path now = .ok entries →
        ∀ e ∈ entries.entries, ∃ key : MethodKey, key.text = e.1 ∧
          Pristine said key e.2.analysis e.2.identity := by
  refine ⟨t.run_deeds s, fun log w hdeeds => ?_⟩
  have hw := hdeeds.obeys_told ht (obeys_of_told hs)
  refine ⟨fun e he => (hw.session e he).pristine, fun d hd e he => ?_,
    fun path now entries hread e he => ?_⟩
  · obtain ⟨key, htext, -, hmade⟩ := hw.durable d hd e he
    exact ⟨key, htext, hmade.pristine⟩
  · obtain ⟨key, htext, -, hmade⟩ :=
      Cache.obeys_readEntries hw.files hread e he
    exact ⟨key, htext, hmade.pristine⟩

theorem told_referral (text : String) {w : World Unit}
    (htext : text = "void m() {}" ∨ text = "void m() { x(); }") :
    Told referralSaid Unit (referralTracer text) (referralStart w) := by
  rcases htext with rfl | rfl
  · exact fun _ _ h => .inl h
  · exact fun _ _ h => .inr h

theorem shared_referral :
    Shared (Told referralSaid) referralWorld.store := by
  have hfresh : Shared (Told referralSaid) pairStart.world.store :=
    .fresh ⟨rfl, fun d hd => absurd hd (by simp [pairStart])⟩
      fun e he => absurd he (by simp [pairStart])
  rw [referralWorld]
  exact .run (referralTracer "void m() {}") (referralStart pairStart.world)
    (told_referral _ (.inl rfl)) hfresh

/-- A run leaves a description, and one that was adopted. -/
theorem entries_pristine_referral :
    Told referralSaid Unit (referralTracer "void m() { x(); }")
      (referralStart referralWorld) ∧
    Shared (Told referralSaid) referralWorld.store ∧
    referralWorld.store.session.entries.size = 2 ∧
    ∀ e ∈ referralWorld.store.session.entries.entries,
      Pristine referralSaid e.1 e.2.analysis e.2.identity := by
  have hshared := shared_referral
  obtain ⟨hsize, -⟩ := served_referral
  generalize referralWorld = w at hshared hsize ⊢
  have htold := told_referral "void m() { x(); }" (w := w) (.inr rfl)
  refine ⟨htold, hshared, hsize, ?_⟩
  obtain ⟨-, hentries⟩ := entries_pristine
    (referralTracer "void m() { x(); }") (referralStart w) htold hshared
  exact (hentries [] w .none).1

end Run

end CallTrace
