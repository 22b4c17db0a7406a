/-
What is so of every entry of the cache.

A rule says what analysis may lie under the key of a method, made from a
source and by an oracle. A store obeys a rule when every entry does, those
in the files included, read at whatever time. Nothing that is done to a
store puts an entry there that was not given to it: entries are set, taken
over from one tier to the other, written to a file and read again, and
dropped. So the rule is kept as long as every analysis that is set obeys
it, and what is found obeys it too.

The durable tier files its entries under one word. The word tells the key
only if the method name has no `#` in it; the names that are looked for
have none.
-/
import CallTrace.Cache.Store
import CallTrace.Proofs.Action
import CallTrace.Proofs.Cache.Document
import CallTrace.Proofs.Files.Contents

namespace CallTrace

open Number (Double)

-- =============================================================== keys

/-- The method name has no `#`, so the word of the key tells the key. -/
def MethodKey.IsPlain (k : MethodKey) : Prop := '#' ∉ k.methodName.toList

/-- A text is cut at its last mark in one way only. -/
private theorem append_mark_inj {as bs cs ds : List Char}
    (hb : '#' ∉ bs) (hd : '#' ∉ ds)
    (h : as ++ '#' :: bs = cs ++ '#' :: ds) : as = cs ∧ bs = ds := by
  rcases List.append_eq_append_iff.1 h with ⟨es, rfl, he⟩ | ⟨es, rfl, he⟩
  · cases es with
    | nil => exact ⟨by simp, (List.cons.inj he).2⟩
    | cons e es =>
      refine absurd ?_ hb
      rw [(List.cons.inj he).2]
      simp
  · cases es with
    | nil => exact ⟨by simp, (List.cons.inj he).2.symm⟩
    | cons e es =>
      refine absurd ?_ hd
      rw [(List.cons.inj he).2]
      simp

/-- Two plain keys have one text only if they are one key. -/
theorem MethodKey.text_inj {k l : MethodKey} (hk : k.IsPlain)
    (hl : l.IsPlain) (h : k.text = l.text) : k = l := by
  have hs : k.typeName.toList ++ '#' :: k.methodName.toList =
      l.typeName.toList ++ '#' :: l.methodName.toList := by
    simpa [MethodKey.text] using congrArg String.toList h
  obtain ⟨ht, hm⟩ := append_mark_inj hk hl hs
  rcases k with ⟨t, m⟩
  rcases l with ⟨t', m'⟩
  simp only [MethodKey.mk.injEq]
  exact ⟨String.toList_inj.1 ht, String.toList_inj.1 hm⟩

namespace Cache

-- ============================================================== rules

/-- What analysis may lie under a key, made from the source of a
fingerprint, by the oracle of an identity. -/
abbrev Rule := MethodKey → Analysis → String → String → Prop

/-- The rule does not ask when an analysis was made. -/
def Rule.Timeless (P : Rule) : Prop :=
  ∀ k a f i time, P k a f i → P k (a.stamped time) f i

variable {P : Rule}

-- ======================================================= session tier

/-- An entry of the session tier obeys the rule. -/
def Held.Obeys (P : Rule) (e : MethodKey × Held) : Prop :=
  P e.1 e.2.analysis e.2.fingerprint e.2.identity

namespace SessionTier

/-- Every entry obeys the rule. -/
def Obeys (P : Rule) (s : SessionTier) : Prop :=
  ∀ e ∈ s.entries.entries, Held.Obeys P e

theorem obeys_empty {s : SessionTier} (h : s.entries.size = 0) :
    s.Obeys P := by
  intro e he
  rw [List.eq_nil_of_length_eq_zero h] at he
  exact absurd he List.not_mem_nil

theorem Obeys.keep {s : SessionTier} (h : s.Obeys P)
    (p : MethodKey → Held → Bool) : { s with entries := s.entries.keep p }.Obeys P :=
  fun e he => h e (Table.mem_keep.1 he).1

theorem Obeys.put {s : SessionTier} (h : s.Obeys P) {k : MethodKey}
    {e : Held} (he : Held.Obeys P (k, e)) :
    { s with entries := s.entries.put k e }.Obeys P := by
  intro f hf
  rcases Table.mem_put hf with rfl | hf
  · exact he
  · exact h f hf

/-- A lookup keeps the rule. What it finds was made from the source and by
the oracle that were asked for. -/
theorem Obeys.get {s : SessionTier} (h : s.Obeys P) (now : Double)
    (key : MethodKey) (f i : String) :
    (s.get now key (some f) (some i)).2.Obeys P ∧
      ∀ a, (s.get now key (some f) (some i)).1 = some a → P key a f i := by
  rw [SessionTier.get]
  split
  · rename_i e he
    have hP : Held.Obeys P (key, e) := h _ (Table.mem_of_get? he)
    split
    · exact ⟨h.keep _, fun a ha => absurd ha (by simp)⟩
    · rename_i hf
      refine ⟨h.put hP, fun a ha => ?_⟩
      cases ha
      have : e.fingerprint = f ∧ e.identity = i := by
        simp [Held.fits] at hf
        exact hf.2
      rw [← this.1, ← this.2]
      exact hP
  · exact ⟨h.keep _, fun a ha => absurd ha (by simp)⟩

/-- What is left after the oldest entries are dropped still obeys the rule.
-/
theorem Obeys.evict {s : SessionTier} (h : s.Obeys P) (n : Nat) :
    (s.evict n).Obeys P := by
  induction n generalizing s with
  | zero => exact h
  | succ n ih =>
    refine ih ?_
    rw [evictOldest]
    split
    · exact h.keep _
    · exact h

/-- Setting what obeys the rule keeps the rule. -/
theorem Obeys.set {s s' : SessionTier} (h : s.Obeys P) {now : Double}
    {key : MethodKey} {a : Analysis} {f i : String} (ha : P key a f i)
    (hs : s.set now key a f i = .ok s') : s'.Obeys P := by
  have he : Held.Obeys P (key, ⟨a, now, f, i, 0⟩) := ha
  simp only [SessionTier.set, makeRoom] at hs
  split at hs
  · cases hs
    exact h.put he
  split at hs
  · exact absurd hs (by simp [bind, Except.bind])
  · cases hs
    exact (h.evict _).put he

end SessionTier

-- ======================================================= durable tier

/-- An entry of the durable tier lies under the word of a key, and obeys
the rule under that key. -/
def Kept.Obeys (P : Rule) (e : String × Kept) : Prop :=
  ∃ k : MethodKey, k.text = e.1 ∧ k.IsPlain ∧
    P k e.2.analysis e.2.fingerprint e.2.identity

/-- Every entry obeys the rule. -/
def KeptTable.Obeys (P : Rule) (t : KeptTable) : Prop :=
  ∀ e ∈ t.entries, Kept.Obeys P e

theorem KeptTable.obeys_empty : KeptTable.Obeys P {} :=
  fun _ he => absurd he List.not_mem_nil

theorem KeptTable.Obeys.keep {t : KeptTable} (h : KeptTable.Obeys P t)
    (p : String → Kept → Bool) : KeptTable.Obeys P (t.keep p) :=
  fun e he => h e (Table.mem_keep.1 he).1

/-- Whatever entries the bytes are read as, they obey the rule. -/
def BytesObey (P : Rule) (bytes : List UInt8) : Prop :=
  ∀ cs document now, Text.Utf8.decode bytes = .ok cs →
    Json.read cs = .ok document → KeptTable.Obeys P (entriesOf now document)

/-- The bytes of a document that is written hold what was in the table. -/
theorem bytesObey_written (hP : P.Timeless) {entries : KeptTable}
    (h : KeptTable.Obeys P entries) (now : Double) :
    BytesObey P (Text.Utf8.encode
      (String.ofList (Json.indented (documentOf now entries)))) := by
  intro cs document later hd hr e he
  obtain ⟨f, hf, hk, ⟨time, ha⟩, hfp, hid⟩ := mem_of_written hd hr he
  obtain ⟨k, hkt, hp, hPk⟩ := h f hf
  refine ⟨k, hkt.trans hk.symm, hp, ?_⟩
  rw [ha, hfp, hid]
  exact hP _ _ _ _ _ hPk

/-- Files that hold entries of a rule yield entries of that rule when they
are read. -/
theorem obeys_readEntries {files : Files.Tree}
    (h : files.AllFiles (BytesObey P)) {path : String} {now : Double}
    {entries : KeptTable} (hr : readEntries files path now = .ok entries) :
    KeptTable.Obeys P entries := by
  rw [readEntries] at hr
  split at hr
  · exact absurd hr (by simp)
  · cases hr
    exact KeptTable.obeys_empty
  · rename_i bytes hb
    split at hr
    · exact absurd hr (by simp)
    · rename_i cs hd
      split at hr
      · rename_i document hj
        cases hr
        exact h.of_read hb cs document now hd hj
      · cases hr
        exact KeptTable.obeys_empty
      · exact absurd hr (by simp)
      · exact absurd hr (by simp)

/-- Writing entries of a rule leaves files that hold entries of that rule.
-/
theorem allFiles_writeEntries {files : Files.Tree} (hP : P.Timeless)
    (h : files.AllFiles (BytesObey P)) {entries : KeptTable}
    (he : KeptTable.Obeys P entries) (path : String) (now : Double) :
    (writeEntries files path now entries).AllFiles (BytesObey P) := by
  have hfolders :=
    h.makeFolders [] (Files.parts (Files.Tree.splitLast path).1)
  simp only [writeEntries]
  split
  · exact hfolders
  split
  · exact hfolders
  rename_i files' hw
  have hwritten := hfolders.write (bytesObey_written hP he now) hw
  split
  · exact hwritten
  rename_i files'' hmove
  exact hwritten.move hmove

namespace Shelf

/-- The entries in memory and those in the files obey the rule. -/
structure Obeys (P : Rule) (s : Shelf) : Prop where
  entries : KeptTable.Obeys P s.tier.entries
  files : s.files.AllFiles (BytesObey P)

variable {s : Shelf}

/-- Loading brings in nothing but what the files hold. -/
theorem Obeys.load (h : s.Obeys P) (now : Double) :
    (Shelf.load now s).2.Obeys P := by
  simp only [Shelf.load, Action.bind_run, Action.get_run]
  split
  · exact h
  · simp only [Action.bind_run, Action.set_run]
    rcases hr : readEntries s.files s.tier.path now with f | entries
    · exact h
    · exact ⟨((obeys_readEntries h.files hr).keep _).keep _, h.files⟩

/-- The shelf with the tier changed and written to its file. -/
def rewritten (s : Shelf) (now : Double) (d : DurableTier) : Shelf where
  tier := d
  files := writeEntries s.files d.path now d.entries

theorem change_run (now : Double) (f : DurableTier → DurableTier)
    (s : Shelf) :
    Shelf.change now f s = (.ok (), s.rewritten now (f s.tier)) := rfl

theorem Obeys.rewritten (hP : P.Timeless) (h : s.Obeys P) (now : Double)
    {d : DurableTier} (hd : KeptTable.Obeys P d.entries) :
    (s.rewritten now d).Obeys P := by
  constructor <;> simp only [Shelf.rewritten]
  · exact hd
  · exact allFiles_writeEntries hP h.files hd d.path now

/-- A lookup keeps the rule. What it finds was made from the source and by
the oracle that were asked for. -/
theorem Obeys.lookup (hP : P.Timeless) (h : s.Obeys P) (now : Double)
    {key : MethodKey} (hkey : key.IsPlain) (f i : String) :
    (Shelf.lookup now key f i s).2.Obeys P ∧
      ∀ a, (Shelf.lookup now key f i s).1 = .ok (some a) → P key a f i := by
  have hload := h.load now
  rw [Shelf.lookup]
  rcases hl : Shelf.load now s with ⟨e | u, s'⟩ <;> rw [hl] at hload
  · rw [Action.bind_error hl]
    exact ⟨hload, fun a ha => absurd ha (by simp)⟩
  rw [Action.bind_ok hl, Action.bind_ok (Action.get_run s')]
  rcases hg : s'.tier.entries.get? key.text with _ | e <;> simp only
  · exact ⟨hload, fun a ha => absurd ha (by simp [Action.pure_run])⟩
  by_cases hf : e.fits f i
  · rw [if_pos hf]
    refine ⟨hload, fun a ha => ?_⟩
    cases ha
    obtain ⟨k, hk, hplain, hPk⟩ := hload.entries _ (Table.mem_of_get? hg)
    obtain rfl := MethodKey.text_inj hplain hkey hk
    simp only [Kept.fits, Bool.and_eq_true, beq_iff_eq] at hf
    rw [← hf.1.1, ← hf.1.2]
    exact hPk
  · rw [if_neg hf, Action.bind_ok (change_run ..), Action.pure_run]
    exact ⟨hload.rewritten hP now (hload.entries.keep _),
      fun a ha => absurd ha (by simp)⟩

/-- Setting an analysis that obeys the rule keeps it. -/
theorem Obeys.store (hP : P.Timeless) (h : s.Obeys P) (now : Double)
    {key : MethodKey} (hkey : key.IsPlain) {a : Analysis} {f i : String}
    (ha : P key a f i) (path : String) :
    (Shelf.store now key a f i path s).2.Obeys P := by
  have hload := h.load now
  rw [Shelf.store]
  rcases hl : Shelf.load now s with ⟨e | u, s'⟩ <;> rw [hl] at hload
  · rw [Action.bind_error hl]
    exact hload
  rw [Action.bind_ok hl, change_run]
  refine hload.rewritten hP now ((KeptTable.Obeys.keep ?_ _).keep _)
  intro e he
  rcases Table.mem_put he with rfl | he
  · exact ⟨key, rfl, hkey, ha⟩
  · exact hload.entries e he

/-- Dropping entries keeps the rule, in the tier and in the file it is
written to. -/
theorem Obeys.invalidate (hP : P.Timeless) (h : s.Obeys P) (now : Double)
    (typeName : String) (methodName : Option String) :
    (Shelf.invalidate now typeName methodName s).2.Obeys P := by
  have hload := h.load now
  rw [Shelf.invalidate]
  rcases hl : Shelf.load now s with ⟨e | u, s'⟩ <;> rw [hl] at hload
  · rw [Action.bind_error hl]
    exact hload
  rw [Action.bind_ok hl, Action.bind_ok (Action.get_run s')]
  cases methodName
  all_goals
    dsimp only
    split
    · rw [Action.bind_ok (change_run ..), Action.pure_run]
      exact hload.rewritten hP now (hload.entries.keep _)
    · rw [Action.pure_run]
      exact hload

theorem Obeys.clear (hP : P.Timeless) (h : s.Obeys P) (now : Double) :
    (Shelf.clear now s).2.Obeys P :=
  h.rewritten hP now KeptTable.obeys_empty

end Shelf

-- ============================================================== store

namespace Store

/-- The entries of both tiers, and those in the files, obey the rule. -/
structure Obeys (P : Rule) (s : Store) : Prop where
  session : s.session.Obeys P
  durable : ∀ d, s.durable = some d → KeptTable.Obeys P d.entries
  files : s.files.AllFiles (BytesObey P)

variable {s : Store}

theorem Obeys.shelf (h : s.Obeys P) {shelf : Shelf}
    (hs : s.shelf? = some shelf) : shelf.Obeys P := by
  obtain ⟨d, hd, rfl⟩ := Option.map_eq_some_iff.1 hs
  exact ⟨h.durable d hd, h.files⟩

theorem Obeys.withShelf (h : s.Obeys P) {shelf : Shelf}
    (hs : shelf.Obeys P) : (s.withShelf shelf).Obeys P := by
  refine ⟨h.session, ?_, hs.files⟩
  rintro _ ⟨⟩
  exact hs.entries

/-- What the durable tier keeps of the rule, the store keeps. -/
theorem Obeys.onShelf {α : Type} {absent : α} {act : Action Shelf α}
    (h : s.Obeys P)
    (hact : ∀ shelf : Shelf, shelf.Obeys P → (act shelf).2.Obeys P) :
    (onShelf absent act s).2.Obeys P := by
  rw [Store.onShelf]
  split
  · exact h
  · rename_i shelf hs
    exact h.withShelf (hact shelf (h.shelf hs))

theorem Obeys.hold (h : s.Obeys P) (clock : Clock) {key : MethodKey}
    {a : Analysis} {f i : String} (ha : P key a f i) :
    (hold clock key a f i s).2.Obeys P := by
  simp only [Store.hold, Action.bind_run, Action.get_run,
    Action.liftExcept_run, Action.set_run]
  rcases hs : s.session.set clock.elapsed key a f i with e | t
  · exact h
  · exact ⟨h.session.set ha hs, h.durable, h.files⟩

/-- What only the durable tier holds is taken over into the session
tier. -/
theorem Obeys.takeOver (hP : P.Timeless) (h : s.Obeys P) (clock : Clock)
    {key : MethodKey} (hkey : key.IsPlain) (f i : String) :
    (takeOver clock key f i s).2.Obeys P ∧
      ∀ a, (takeOver clock key f i s).1 = .ok (some a) → P key a f i := by
  have hd : ∀ r s', Store.onShelf none
      (Shelf.lookup clock.timeOfDay key f i) s = (r, s') →
      s'.Obeys P ∧ ∀ a, r = .ok (some a) → P key a f i := by
    intro r s' hr
    rw [Store.onShelf] at hr
    split at hr
    · cases hr
      exact ⟨h, fun a ha => absurd ha (by simp)⟩
    · rename_i shelf hs
      obtain ⟨hl, hf⟩ := (h.shelf hs).lookup hP clock.timeOfDay hkey f i
      cases hr
      exact ⟨h.withShelf hl, hf⟩
  rw [Store.takeOver]
  rcases hr : Store.onShelf none
      (Shelf.lookup clock.timeOfDay key f i) s with ⟨e | found, s'⟩
  · rw [Action.bind_error hr]
    exact ⟨(hd _ _ hr).1, fun a ha => absurd ha (by simp)⟩
  rw [Action.bind_ok hr]
  obtain ⟨hs', hfound⟩ := hd _ _ hr
  rcases found with _ | a
  · exact ⟨hs', fun a ha => absurd ha (by simp [Action.pure_run])⟩
  have hhold := hs'.hold clock (hfound a rfl)
  rcases hh : Store.hold clock key a f i s' with ⟨e | u, s''⟩ <;>
    rw [hh] at hhold
  · simp only [Action.bind_error hh]
    exact ⟨hhold, fun a ha => absurd ha (by simp)⟩
  · simp only [Action.bind_ok hh]
    refine ⟨hhold, fun b hb => ?_⟩
    cases hb
    exact hfound a rfl

/-- A lookup keeps the rule. What it finds was made from the source and by
the oracle that were asked for. -/
theorem Obeys.lookup (hP : P.Timeless) (h : s.Obeys P) (clock : Clock)
    {key : MethodKey} (hkey : key.IsPlain) (f i : String) :
    (lookup clock key f i s).2.Obeys P ∧
      ∀ a, (lookup clock key f i s).1 = .ok (some a) → P key a f i := by
  obtain ⟨hget, hfound⟩ := h.session.get clock.elapsed key f i
  rw [Store.lookup]
  rcases hg : s.session.get clock.elapsed key (some f) (some i) with
    ⟨found, t⟩
  rw [hg] at hget hfound
  have ht : Obeys P { s with session := t } := ⟨hget, h.durable, h.files⟩
  have hsession : Store.onSession (·.get clock.elapsed key (some f)
      (some i)) s = (.ok found, { s with session := t }) := by
    rw [Store.onSession, hg]
  rw [Action.bind_ok hsession]
  rcases found with _ | a
  · exact ht.takeOver hP clock hkey f i
  · refine ⟨ht, fun b hb => ?_⟩
    cases hb
    exact hfound a rfl

/-- Setting an analysis that obeys the rule keeps it. -/
theorem Obeys.store (hP : P.Timeless) (h : s.Obeys P) (clock : Clock)
    {key : MethodKey} (hkey : key.IsPlain) {a : Analysis} {f i : String}
    (ha : P key a f i) (path : String) :
    (store clock key a f i path s).2.Obeys P := by
  have hhold := h.hold clock ha
  rw [Store.store]
  rcases hs : Store.hold clock key a f i s with ⟨e | u, s'⟩ <;>
    rw [hs] at hhold
  · rw [Action.bind_error hs]
    exact hhold
  · rw [Action.bind_ok hs]
    exact hhold.onShelf fun shelf hshelf =>
      hshelf.store hP clock.timeOfDay hkey ha path

/-- Dropping entries keeps the rule in both tiers. -/
theorem Obeys.invalidate (hP : P.Timeless) (h : s.Obeys P) (clock : Clock)
    (typeName : String) (methodName : Option String) :
    (invalidate clock typeName methodName s).2.Obeys P := by
  simp only [Store.invalidate, Action.bind_run, Store.onSession]
  have ht : Obeys P { s with
      session := (s.session.invalidate typeName methodName).2 } :=
    ⟨h.session.keep _, h.durable, h.files⟩
  have hm : (Store.onShelf 0 (fun shelf => _) _).2.Obeys P :=
    ht.onShelf fun shelf hs =>
      hs.invalidate hP clock.timeOfDay typeName methodName
  split
  · rename_i hrun
    rw [hrun] at hm
    exact hm
  · rename_i hrun
    rw [hrun] at hm
    exact hm

theorem Obeys.clear (hP : P.Timeless) (h : s.Obeys P) (clock : Clock) :
    (clear clock s).2.Obeys P := by
  simp only [Store.clear, Action.bind_run, Store.onSession]
  have ht : Obeys P { s with session := s.session.clear } :=
    ⟨SessionTier.obeys_empty rfl, h.durable, h.files⟩
  exact ht.onShelf fun shelf hs => hs.clear hP clock.timeOfDay

theorem Obeys.recordTime (h : s.Obeys P) (ms : Double) :
    (s.recordTime ms).Obeys P :=
  ⟨h.session, h.durable, h.files⟩

end Store

end Cache

end CallTrace
