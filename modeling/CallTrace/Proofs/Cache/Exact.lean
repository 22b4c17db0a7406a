/-
What is written of the durable tier is read back exactly.

Every part of an analysis that was read can be written so that it is read
again: its integers have no more digits than are read, since they were read
themselves, and its times are double-precision numbers of the format. So a
document of such entries is read with these entries and no others, in their
order.

What is read of one file at two times differs only in entries whose
analysis has no time of creation there: each time it takes the time at
which the file is read.
-/
import CallTrace.Proofs.Cache.Loading
import CallTrace.Proofs.Json.Legible

namespace CallTrace

open Json
open Number (Double)

-- ============================================================= readings

namespace Json

section

variable {α β : Type}

theorem map_eq_good_iff {f : α → β} {r : Reading α} {b : β} :
    f <$> r = .good b ↔ ∃ a, r = .good a ∧ f a = b := by
  cases r with
  | good a => simp
  | bad faults =>
    refine ⟨fun h => ?_, fun ⟨_, h, _⟩ => ?_⟩ <;> cases h

/-- A reading by steps is good exactly if each of its steps is. -/
theorem seq_eq_good_iff {rf : Reading (α → β)} {r : Reading α} {b : β} :
    rf <*> r = .good b ↔ ∃ f, rf = .good f ∧ ∃ a, r = .good a ∧ f a = b := by
  cases rf with
  | good f =>
    cases r with
    | good a => simp
    | bad faults =>
      refine ⟨fun h => ?_, fun ⟨_, _, _, h, _⟩ => ?_⟩ <;> cases h
  | bad faults =>
    refine ⟨fun h => ?_, fun ⟨_, h, _⟩ => ?_⟩
    · cases r <;> cases h
    · cases h

theorem under_eq_good_iff {place : Place} {r : Reading α} {a : α} :
    r.under place = .good a ↔ r = .good a := by
  cases r with
  | good b => rfl
  | bad faults => refine ⟨fun h => ?_, fun h => ?_⟩ <;> cases h

theorem readObject_eq_good {r : Reader α} {v : Json} {a : α}
    (h : readObject r v = .good a) : ∃ fs, v = .object fs ∧ r v = .good a := by
  rw [readObject.eq_def] at h
  split at h
  · exact ⟨_, rfl, h⟩
  · cases h

theorem required_eq_good {name : String} {r : Reader α} {v : Json} {a : α}
    (h : required name r v = .good a) :
    ∃ w, v.field? name = some w ∧ r w = .good a := by
  rw [required] at h
  split at h
  · rename_i w hw
    exact ⟨w, hw, under_eq_good_iff.1 h⟩
  · cases h

/-- A field with a default is read as the default, or from what stands
under its name. -/
theorem withDefault_eq_good {name : String} {absent : α} {r : Reader α}
    {v : Json} {a : α} (h : withDefault name absent r v = .good a) :
    a = absent ∨ ∃ w, v.field? name = some w ∧ r w = .good a := by
  rw [withDefault] at h
  split at h
  · rename_i w hw
    exact .inr ⟨w, hw, under_eq_good_iff.1 h⟩
  · cases h
    exact .inl rfl

/-- Each item of a list that is read is read from an item. -/
theorem readItemsFrom_eq_good {r : Reader α} {items : List Json}
    {as : List α} :
    ∀ {i : Nat}, readItemsFrom r i items = .good as →
      ∀ a ∈ as, ∃ w ∈ items, r w = .good a := by
  induction items generalizing as with
  | nil =>
    intro i h
    cases h
    exact fun a ha => absurd ha List.not_mem_nil
  | cons v vs ih =>
    intro i h
    obtain ⟨f, hf, bs, hbs, rfl⟩ := seq_eq_good_iff.1 h
    obtain ⟨b, hb, rfl⟩ := map_eq_good_iff.1 hf
    intro a ha
    rcases List.mem_cons.1 ha with rfl | ha
    · exact ⟨v, List.mem_cons_self .., under_eq_good_iff.1 hb⟩
    · obtain ⟨w, hw, hread⟩ := ih hbs a ha
      exact ⟨w, List.mem_cons_of_mem _ hw, hread⟩

/-- Each part of a tuple that is read is read from a proper value. -/
theorem readTuple_eq_good {r : Reader α} {v : Json} {as : List α}
    (h : readTuple r v = .good as) (hv : v.Proper) :
    ∀ a ∈ as, ∃ w, w.Proper ∧ r w = .good a := by
  rw [readTuple, readSequence.eq_def] at h
  split at h
  · intro a ha
    obtain ⟨w, hw, hread⟩ := readItemsFrom_eq_good h a ha
    cases hv with
    | list hitems => exact ⟨w, hitems w hw, hread⟩
  · cases h

/-- The fields of a proper document are proper. -/
theorem Proper.field {v w : Json} {name : String} (hv : v.Proper)
    (h : v.field? name = some w) : w.Proper := by
  cases hv with
  | object hnames hall =>
    exact hall _ ((field?_eq_some_iff hnames).1 h)
  | _ => simp [field?] at h

end

-- ============================================================= numbers

/-- A number that is read from its digits has its canonical form. -/
theorem canonical_decimal? {negative : Bool} {cs : List Char} {x : Double}
    (h : Number.decimal? negative cs = some x) : x.Canonical := by
  simp only [Number.decimal?] at h
  split at h
  all_goals
    split at h
    · cases h
    · obtain ⟨e, -, rfl⟩ := Option.map_eq_some_iff.1 h
      exact Double.canonical_ofDecimal ..

/-- A number that is read from a text has its canonical form. -/
theorem canonical_doubleOfText? {cs : List Char} {x : Double}
    (h : Number.doubleOfText? cs = some x) : x.Canonical := by
  simp only [Number.doubleOfText?] at h
  split at h
  · cases h
    trivial
  split at h
  · cases h
    trivial
  · exact canonical_decimal? h

theorem canonical_ofInt (n : Int) : (Double.ofInt n).Canonical :=
  Double.canonical_ofRatio _ _ Nat.one_pos

/-- A double-precision number that is read is one of the format. -/
theorem canonical_readDouble {v : Json} {x : Double} (hv : v.Proper)
    (h : readDouble v = .good x) : x.Canonical := by
  rw [readDouble.eq_def] at h
  split at h
  · cases h
    cases hv
    assumption
  · dsimp only at h
    split at h <;> cases h
    exact canonical_ofInt _
  · cases h
    exact canonical_ofInt _
  · split at h
    · rename_i hx
      cases h
      rcases Option.or_eq_some_iff.1 hx with hx | ⟨-, hx⟩
      · exact canonical_doubleOfText? hx
      · obtain ⟨cs, -, hx⟩ := Option.bind_eq_some_iff.1 hx
        exact canonical_doubleOfText? hx
    · cases h
  · cases h
  · cases h

/-- Taking out the marks between groups of digits does not lengthen a text.
-/
theorem length_ungroup? (afterDigit : Bool) (cs : List Char) :
    ∀ ds, Number.ungroup? afterDigit cs = some ds →
      ds.length ≤ cs.length := by
  fun_induction Number.ungroup? afterDigit cs with
  | case1 =>
    intro ds h
    cases h
    exact Nat.le_refl _
  | case2 =>
    intro ds h
    cases h
  | case3 afterDigit c rest hc ih =>
    intro ds h
    obtain ⟨es, hes, rfl⟩ := Option.map_eq_some_iff.1 h
    have hle := ih es hes
    simp only [List.length_cons]
    omega
  | case4 =>
    intro ds h
    cases h
  | case5 afterDigit c rest _ _ ih =>
    intro ds h
    obtain ⟨es, hes, rfl⟩ := Option.map_eq_some_iff.1 h
    exact Nat.succ_le_succ (ih es hes)

theorem length_splitSign_le (cs : List Char) :
    (Number.splitSign cs).2.length ≤ cs.length := by
  rw [Number.splitSign.eq_def]
  split
  · exact Nat.le_succ _
  · exact Nat.le_succ _
  · exact Nat.le_refl _

/-- A text gives no integer of more digits than it has characters. -/
theorem short_intOfText? {cs : List Char} {n : Int}
    (h : Number.intOfText? cs = some n)
    (hlen : cs.length ≤ maxIntDigits) : Short n := by
  have hsign := length_splitSign_le cs
  simp only [Number.intOfText?] at h
  split at h
  · rename_i ds hds
    have hle := length_ungroup? _ _ _ hds
    split at h
    · cases h
    · rename_i hdigits
      have hall : ∀ c ∈ ds, c.isDigit = true := by
        simp only [Bool.or_eq_true, not_or, Bool.not_eq_true,
          Bool.not_eq_false'] at hdigits
        exact List.all_eq_true.1 hdigits.2
      refine short_of_digits hall (by omega) ?_
      rw [← Option.some.inj h]
      split <;> omega
  · cases h

/-- Trimming does not lengthen a text. -/
theorem length_trimOf_le (p : Char → Bool) (cs : List Char) :
    (Text.trimOf p cs).length ≤ cs.length := by
  have hleft : (Text.trimLeftOf p cs).length ≤ cs.length :=
    (List.dropWhile_sublist p).length_le
  have hright := (List.dropWhile_sublist
    (l := (Text.trimLeftOf p cs).reverse) p).length_le
  rw [List.length_reverse] at hright
  rw [Text.trimOf, Text.trimRightOf, List.length_reverse]
  exact hright.trans hleft

/-- An integer that is read has no more digits than are read. -/
theorem short_readInt {v : Json} {n : Int} (hv : v.Proper)
    (h : readInt v = .good n) : Short n := by
  rw [readInt.eq_def] at h
  split at h
  · cases h
    cases hv
    assumption
  · cases h
    split <;> decide
  · rename_i x
    simp only [intOfDouble] at h
    split at h
    · cases h
    split at h
    · split at h
      · rename_i hbounds
        cases h
        refine short_iff.2 (Nat.lt_of_lt_of_le ?_
          (Double.two_pow_le (n := 63) (by decide)))
        omega
      · cases h
    · cases h
  · rename_i s
    split at h
    · cases h
    · rename_i hlen
      have hcs : (Text.trimOf Number.isMargin s.toList).length ≤
          maxIntDigits := by
        have hle := length_trimOf_le Number.isMargin s.toList
        rw [String.length_toList] at hle
        simp only [maxIntText] at hlen
        simp only [maxIntDigits]
        omega
      split at h
      · rename_i m hm
        cases h
        simp only [intOfText?] at hm
        split at hm
        · rename_i whole zeros hspan
          split at hm
          · refine short_intOfText? hm (le_trans ?_ hcs)
            rw [List.span_eq_takeWhile_dropWhile] at hspan
            rw [← (Prod.mk.inj hspan).1]
            exact (List.takeWhile_sublist _).length_le
          · cases hm
        · exact short_intOfText? hm hcs
      · cases h
  · cases h
  · cases h

theorem legible_ofText? {levels : Nat} (s : Option String) :
    (ofText? s).Legible levels := by
  cases s with
  | none => exact .null
  | some s => exact .text s

theorem legible_map {levels : Nat} {α : Type} {f : α → Json} {as : List α}
    (h : ∀ a ∈ as, (f a).Legible levels) :
    (Json.list (as.map f)).Legible (levels + 1) := by
  refine .list fun v hv => ?_
  obtain ⟨a, ha, rfl⟩ := List.mem_map.1 hv
  exact h a ha

end Json

-- ============================================================= records

/-- A call is read again as it is written if its place in the order has no
more digits than are read. -/
theorem CallSite.legible_toJson {levels : Nat} {c : CallSite}
    (h : Short c.order) : c.toJson.Legible (levels + 1) := by
  refine .object (by simp) ?_
  simp only [List.forall_mem_cons, List.not_mem_nil, false_implies,
    implies_true, and_true]
  exact ⟨.text _, .text _, .text _, .text _, .text _, .text _, .int h,
    legible_ofText? _, legible_ofText? _, legible_ofText? _⟩

/-- The place of a call that was read has no more digits than are read. -/
theorem CallSite.short_of_read {v : Json} {c : CallSite} (hv : v.Proper)
    (h : read v = .good c) : Short c.order := by
  obtain ⟨fs, rfl, h⟩ := readObject_eq_good h
  simp only [seq_eq_good_iff, map_eq_good_iff] at h
  obtain ⟨_, ⟨_, ⟨_, ⟨_, ⟨_, ⟨_, ⟨_, ⟨_, ⟨_, ⟨_, -, rfl⟩, _, -, rfl⟩, _, -,
    rfl⟩, _, -, rfl⟩, _, -, rfl⟩, _, -, rfl⟩, n, hn, rfl⟩, _, -, rfl⟩, _, -,
    rfl⟩, _, -, rfl⟩ := h
  rcases withDefault_eq_good hn with rfl | ⟨w, hw, hread⟩
  · show Short 0
    decide
  · exact short_readInt (hv.field hw) hread

/-- So have those of a list of calls. -/
theorem CallSite.short_of_readTuple {v : Json} {name : String}
    {cs : List CallSite} (hv : v.Proper)
    (h : withDefault name [] (readTuple CallSite.read) v = .good cs) :
    ∀ c ∈ cs, Short c.order := by
  intro c hc
  rcases withDefault_eq_good h with rfl | ⟨w, hw, hread⟩
  · exact absurd hc List.not_mem_nil
  · obtain ⟨x, hx, hread⟩ := readTuple_eq_good hread (hv.field hw) c hc
    exact CallSite.short_of_read hx hread

theorem Block.legible_toJson {levels : Nat} {b : Block}
    (h : ∀ c ∈ b.calls, Short c.order) : b.toJson.Legible (levels + 3) := by
  refine .object (by simp) ?_
  simp only [List.forall_mem_cons, List.not_mem_nil, false_implies,
    implies_true, and_true]
  exact ⟨.text _, .text _, .text _, .text _,
    legible_map fun c hc => CallSite.legible_toJson (h c hc),
    legible_map fun _ _ => .text _⟩

theorem Block.short_of_read {v : Json} {b : Block} (hv : v.Proper)
    (h : read v = .good b) : ∀ c ∈ b.calls, Short c.order := by
  obtain ⟨fs, rfl, h⟩ := readObject_eq_good h
  simp only [seq_eq_good_iff, map_eq_good_iff] at h
  obtain ⟨_, ⟨_, ⟨_, ⟨_, ⟨_, ⟨_, -, rfl⟩, _, -, rfl⟩, _, -, rfl⟩, _, -,
    rfl⟩, cs, hcs, rfl⟩, _, -, rfl⟩ := h
  exact CallSite.short_of_readTuple hv hcs

/-- A summary whose calls have short orders is written legibly, two levels
above its calls. -/
theorem CallSummary.legible_toJson {levels : Nat} {s : CallSummary}
    (h : ∀ d, ∀ c ∈ s.bucket d, Short c.order) :
    s.toJson.Legible (levels + 3) := by
  refine .object (by simp) ?_
  simp only [List.forall_mem_cons, List.not_mem_nil, false_implies,
    implies_true, and_true]
  exact ⟨legible_map fun c hc => CallSite.legible_toJson (h .stepInto c hc),
    legible_map fun c hc => CallSite.legible_toJson (h .objectLookup c hc),
    legible_map fun c hc => CallSite.legible_toJson (h .external c hc),
    legible_map fun c hc => CallSite.legible_toJson (h .notFound c hc)⟩

/-- A summary that was read from a proper value has short orders in all of
its lists. -/
theorem CallSummary.short_of_read {v : Json} {s : CallSummary}
    (hv : v.Proper) (h : read v = .good s) :
    ∀ d, ∀ c ∈ s.bucket d, Short c.order := by
  obtain ⟨fs, rfl, h⟩ := readObject_eq_good h
  simp only [seq_eq_good_iff, map_eq_good_iff] at h
  obtain ⟨_, ⟨_, ⟨_, ⟨s₁, h₁, rfl⟩, s₂, h₂, rfl⟩, s₃, h₃, rfl⟩, s₄, h₄,
    rfl⟩ := h
  intro d
  cases d with
  | stepInto => exact CallSite.short_of_readTuple hv h₁
  | objectLookup => exact CallSite.short_of_readTuple hv h₂
  | external => exact CallSite.short_of_readTuple hv h₃
  | notFound => exact CallSite.short_of_readTuple hv h₄

/-- What can be written of an analysis so that it is read again: the places
of its calls have no more digits than are read, and its time of creation is
a number of the format. -/
structure Analysis.Writable (a : Analysis) : Prop where
  blocks : ∀ b ∈ a.blocks, ∀ c ∈ b.calls, Short c.order
  summary : ∀ d, ∀ c ∈ a.summary.bucket d, Short c.order
  createdAt : a.createdAt.Canonical

/-- An analysis that has no calls can be. -/
theorem Analysis.Writable.of_no_calls {a : Analysis} (hblocks : a.blocks = [])
    (hsummary : a.summary = {}) (hcreated : a.createdAt.Canonical) :
    a.Writable := by
  refine ⟨?_, ?_, hcreated⟩
  · rw [hblocks]
    exact fun b hb => absurd hb List.not_mem_nil
  · rw [hsummary]
    intro d c hc
    cases d <;> exact absurd hc List.not_mem_nil

/-- An analysis that can be written is written legibly, within five levels
of nesting. -/
theorem Analysis.Writable.legible {levels : Nat} {a : Analysis}
    (h : a.Writable) : a.toJson.Legible (levels + 5) := by
  refine .object (by simp) ?_
  simp only [List.forall_mem_cons, List.not_mem_nil, false_implies,
    implies_true, and_true]
  exact ⟨.text _, .text _, .text _, .text _,
    legible_map fun b hb => Block.legible_toJson (h.blocks b hb),
    CallSummary.legible_toJson h.summary, .text _, .float h.createdAt,
    legible_ofText? _, legible_ofText? _⟩

/-- An analysis that was read can be written so that it is read again. -/
theorem Analysis.writable_of_read {v : Json} {a : Analysis} {now : Double}
    (hv : v.Proper) (hnow : now.Canonical) (h : read now v = .good a) :
    a.Writable := by
  obtain ⟨fs, rfl, h⟩ := readObject_eq_good h
  simp only [seq_eq_good_iff, map_eq_good_iff] at h
  obtain ⟨_, ⟨_, ⟨_, ⟨_, ⟨_, ⟨_, ⟨_, ⟨_, ⟨_, ⟨_, -, rfl⟩, _, -, rfl⟩, _, -,
    rfl⟩, _, -, rfl⟩, blocks, hblocks, rfl⟩, summary, hsummary, rfl⟩, _, -,
    rfl⟩, time, htime, rfl⟩, _, -, rfl⟩, _, -, rfl⟩ := h
  constructor
  · rcases withDefault_eq_good hblocks with rfl | ⟨w, hw, hread⟩
    · exact fun b hb => absurd hb List.not_mem_nil
    · intro b hb
      obtain ⟨x, hx, hread⟩ := readTuple_eq_good hread (hv.field hw) b hb
      exact Block.short_of_read hx hread
  · rcases withDefault_eq_good hsummary with rfl | ⟨w, hw, hread⟩
    · intro d c hc
      cases d <;> exact absurd hc List.not_mem_nil
    · exact CallSummary.short_of_read (hv.field hw) hread
  · rcases withDefault_eq_good htime with rfl | ⟨w, hw, hread⟩
    · exact hnow
    · exact canonical_readDouble (hv.field hw) hread

namespace Cache

/-- The analysis of an entry can be written so that it is read again, and
so can its time. -/
structure Kept.Writable (e : Kept) : Prop where
  analysis : e.analysis.Writable
  timestamp : e.timestamp.Canonical

theorem Kept.Writable.legible {levels : Nat} {e : Kept}
    (h : e.Writable) : e.toJson.Legible (levels + 6) := by
  refine .object (by simp) ?_
  simp only [List.forall_mem_cons, List.not_mem_nil, false_implies,
    implies_true, and_true]
  exact ⟨h.analysis.legible, .text _, .text _, .float h.timestamp, .text _,
    .text _⟩

/-- An entry that was read can be written so that it is read again. -/
theorem Kept.writable_of_read {v : Json} {e : Kept} {now : Double}
    (hv : v.Proper) (hnow : now.Canonical) (h : read now v = .good e) :
    e.Writable := by
  obtain ⟨fs, rfl, h⟩ := readObject_eq_good h
  simp only [seq_eq_good_iff, map_eq_good_iff] at h
  obtain ⟨_, ⟨_, ⟨_, ⟨_, ⟨_, ⟨a, ha, rfl⟩, _, -, rfl⟩, _, -, rfl⟩, time,
    htime, rfl⟩, _, -, rfl⟩, _, -, rfl⟩ := h
  obtain ⟨w, hw, ha⟩ := required_eq_good ha
  obtain ⟨x, hx, htime⟩ := required_eq_good htime
  exact ⟨Analysis.writable_of_read (hv.field hw) hnow ha,
    canonical_readDouble (hv.field hx) htime⟩

-- =========================================================== documents

/-- The entries can be written so that they are read again. -/
def Writable (entries : KeptTable) : Prop :=
  ∀ e ∈ entries.entries, e.2.Writable

/-- The document of the entries is far from being nested too deep. -/
theorem legible_documentOf {entries : KeptTable} (h : Writable entries)
    (now : Double) : (documentOf now entries).Legible maxNesting := by
  show Legible (981 + 8) _
  refine .object (by simp) ?_
  simp only [List.forall_mem_cons, List.not_mem_nil, false_implies,
    implies_true, and_true]
  refine ⟨.text _, .text _, .object ?_ fun f hf => ?_⟩
  · rw [List.map_map]
    exact entries.nodup
  · obtain ⟨e, he, rfl⟩ := List.mem_map.1 hf
    exact (h e he).legible

/-- The bytes of the document of all entries. -/
def bytesOf (now : Double) (entries : KeptTable) : List UInt8 :=
  Text.Utf8.encode (String.ofList (indented (documentOf now entries)))

/-- The document in a file, if it is one. -/
def documentIn? (files : Files.Tree) (path : String) : Option Json :=
  (files.read path).toOption.bind fun bytes =>
    (Text.Utf8.decode bytes).toOption.bind fun cs =>
      (Json.read cs).toOption

theorem decode_bytesOf (now : Double) (entries : KeptTable) :
    Text.Utf8.decode (bytesOf now entries) =
      .ok (indented (documentOf now entries)) :=
  decode_indented _

theorem documentIn?_of_written {files : Files.Tree} {path : String}
    {now : Double} {entries : KeptTable} (h : Writable entries)
    (hread : files.read path = .ok (bytesOf now entries)) :
    documentIn? files path = some (documentOf now entries) := by
  rw [documentIn?, hread]
  simp only [Except.toOption, Option.bind_some, decode_bytesOf,
    read_legible (legible_documentOf h now)]

/-- The document of a file has proper fields at every level. -/
theorem proper_documentIn? {files : Files.Tree} {path : String}
    {document : Json} (h : documentIn? files path = some document) :
    document.Proper := by
  obtain ⟨bytes, -, h⟩ := Option.bind_eq_some_iff.1 h
  obtain ⟨cs, -, h⟩ := Option.bind_eq_some_iff.1 h
  rcases hr : Json.read cs with e | document' <;> rw [hr] at h
  · cases h
  · cases h
    exact proper_read hr

/-- The fields of a document under which entries stand. A document of
another kind or version has none. -/
def fieldsOf (document : Json) : List (String × Json) :=
  match document.field? "version", document.field? "entries" with
  | some (.text version), some (.object fields) =>
    if version = formatVersion then fields else []
  | _, _ => []

theorem fieldsOf_documentOf (now : Double) (entries : KeptTable) :
    fieldsOf (documentOf now entries) =
      entries.entries.map fun e => (e.1, e.2.toJson) := by
  simp [fieldsOf, documentOf, field?]

/-- What is read of these fields at a time. -/
def readKept (now : Double) (fields : List (String × Json)) :
    List (String × Kept) :=
  fields.filterMap fun f => (Kept.read now f.2).toOption.map (f.1, ·)

/-- The fields of a proper document have distinct names and proper values.
-/
theorem proper_fieldsOf {document : Json} (h : document.Proper) :
    ((fieldsOf document).map (·.1)).Nodup ∧
      ∀ f ∈ fieldsOf document, f.2.Proper := by
  have hnone : (([] : List (String × Json)).map (·.1)).Nodup ∧
      ∀ f ∈ ([] : List (String × Json)), f.2.Proper :=
    ⟨List.nodup_nil, fun f hf => absurd hf List.not_mem_nil⟩
  rw [fieldsOf.eq_def]
  split
  · rename_i fields _ hentries
    split
    · cases h.field hentries with
      | object hnames hall => exact ⟨hnames, hall⟩
    · exact hnone
  · exact hnone

/-- The entries of a document, in the order of its fields. -/
theorem entries_entriesOf {document : Json} (h : document.Proper)
    (now : Double) :
    (entriesOf now document).entries =
      readKept now (fieldsOf document) := by
  have hnames := (proper_fieldsOf h).1
  have hfields := Table.entries_ofList (hnames.sublist
    (names_filterMap_sublist _ fun v => (Kept.read now v).toOption))
  show _ = List.filterMap _ _
  rw [← hfields, entriesOf.eq_def, fieldsOf.eq_def]
  cases document with
  | object fs =>
    rcases hversion : Json.field? "version" (.object fs) with
      _ | (_ | _ | _ | _ | version | _ | _ | _) <;> try rfl
    rcases hentries : Json.field? "entries" (.object fs) with
      _ | (_ | _ | _ | _ | _ | _ | _ | fields) <;> try rfl
    dsimp only
    split <;> rfl
  | _ => rfl

-- ========================================================== other times

end Cache

/-- An analysis without a time of creation takes the time at which it is
read. -/
theorem Analysis.read_later {now : Double} {v : Json} {a : Analysis}
    (h : read now v = .good a) (later : Double) :
    read later v = .good
      (if (v.field? "created_at").isNone then a.stamped later else a) := by
  obtain ⟨fs, rfl, hfields⟩ := readObject_eq_good h
  rcases hfield : Json.field? "created_at" (.object fs) with _ | x
  · simp only [seq_eq_good_iff, map_eq_good_iff] at hfields
    obtain ⟨_, ⟨_, ⟨_, ⟨_, ⟨_, ⟨_, ⟨_, ⟨_, ⟨_, ⟨_, h₁, rfl⟩, _, h₂, rfl⟩, _,
      h₃, rfl⟩, _, h₄, rfl⟩, _, h₅, rfl⟩, _, h₆, rfl⟩, _, h₇, rfl⟩, _, -,
      rfl⟩, _, h₉, rfl⟩, _, h₁₀, rfl⟩ := hfields
    have htime : withDefault "created_at" later readDouble (.object fs) =
        .good later := by rw [withDefault, hfield]
    simp only [read, readObject, h₁, h₂, h₃, h₄, h₅, h₆, h₇, htime, h₉, h₁₀,
      map_good, seq_good, Option.isNone_none, if_true]
    rfl
  · have hsame : read later (.object fs) = read now (.object fs) := by
      simp only [read, readObject, withDefault, hfield]
    rw [hsame, h]
    rfl

namespace Cache

/-- The field of an entry gives no time of creation for its analysis. -/
def isUndated (field : Json) : Bool :=
  (field.field? "analysis").any fun a => (a.field? "created_at").isNone

/-- The entry with another time of creation. -/
def Kept.redated (e : Kept) (time : Double) : Kept :=
  { e with analysis := e.analysis.stamped time }

/-- An entry that was read at one time is read at any other, with that time
if it is undated. -/
theorem Kept.read_good_later {now : Double} {v : Json} {e : Kept}
    (h : read now v = .good e) (later : Double) :
    read later v =
      .good (if isUndated v then e.redated later else e) := by
  obtain ⟨fs, rfl, hfields⟩ := readObject_eq_good h
  simp only [seq_eq_good_iff, map_eq_good_iff] at hfields
  obtain ⟨_, ⟨_, ⟨_, ⟨_, ⟨_, ⟨a, h₁, rfl⟩, _, h₂, rfl⟩, _, h₃, rfl⟩, _, h₄,
    rfl⟩, _, h₅, rfl⟩, _, h₆, rfl⟩ := hfields
  obtain ⟨x, hx, hread⟩ := required_eq_good h₁
  have hlater : required "analysis" (Analysis.read later) (.object fs) =
      .good (if (x.field? "created_at").isNone then a.stamped later
        else a) := by
    rw [required, hx]
    simp only [Analysis.read_later hread later, under_good]
  simp only [read, readObject, hlater, h₂, h₃, h₄, h₅, h₆, map_good,
    seq_good, isUndated, hx, Option.any_some]
  split <;> rfl

/-- What is read of an entry at another time. -/
theorem Kept.read_later (now later : Double) (v : Json) :
    (read later v).toOption = (read now v).toOption.map fun e =>
      if isUndated v then e.redated later else e := by
  rcases hnow : read now v with e | faults
  · rw [read_good_later hnow later]
    rfl
  · rcases hlater : read later v with e | faults'
    · rw [read_good_later hlater now] at hnow
      cases hnow
    · rfl

/-- What is read of fields at another time. -/
theorem readKept_later (now later : Double)
    (fields : List (String × Json)) :
    readKept later fields = (fields.filterMap fun f =>
      (Kept.read now f.2).toOption.map fun e =>
        (f.1, if isUndated f.2 then e.redated later else e)) := by
  refine List.filterMap_congr fun f _ => ?_
  rw [Kept.read_later now later, Option.map_map]
  rfl

-- ============================================================== files

/-- The file gives no time of creation for the analysis under the key. -/
def undated (files : Files.Tree) (path key : String) : Bool :=
  (documentIn? files path).any fun document =>
    (Json.field? key (.object (fieldsOf document))).any isUndated

/-- An entry of a file as it is read at another time. -/
def redate (files : Files.Tree) (path : String) (later : Double)
    (e : String × Kept) : String × Kept :=
  (e.1, if undated files path e.1 then e.2.redated later else e.2)

theorem redate_key (files : Files.Tree) (path : String) (later : Double)
    (e : String × Kept) : (redate files path later e).1 = e.1 := rfl

theorem redate_timestamp (files : Files.Tree) (path : String)
    (later : Double) (e : String × Kept) :
    (redate files path later e).2.timestamp = e.2.timestamp := by
  simp only [redate]
  split <;> rfl

/-- Where the file is usable, reading it never fails: what there is of it
is read, and otherwise nothing. -/
theorem readEntries_eq {files : Files.Tree} {path : String}
    (h : Usable files path) (now : Double) :
    readEntries files path now =
      .ok ((documentIn? files path).elim {} (entriesOf now)) := by
  rw [Usable] at h
  rw [readEntries, documentIn?]
  rcases hread : files.read path with fault | bytes <;> rw [hread] at h
  · cases fault <;> first | rfl | exact absurd rfl h
  · obtain ⟨cs, hcs, hshort, hshallow⟩ := h
    simp only [hcs, Except.toOption, Option.bind_some]
    rcases hr : Json.read cs with (_ | n | kind) | document
    · rfl
    · exact absurd hr (hshort n)
    · exact absurd hr (hshallow kind)
    · rfl

/-- What is read of a file at another time: the same entries, each with
that time of creation for which the file gives none. -/
theorem readEntries_later {files : Files.Tree} {path : String}
    {now : Double} {entries : KeptTable}
    (h : readEntries files path now = .ok entries) (later : Double) :
    ∃ entries', readEntries files path later = .ok entries' ∧
      entries'.entries =
        entries.entries.map (redate files path later) := by
  have husable := (readEntries_ok_iff now).1 ⟨_, h⟩
  refine ⟨_, readEntries_eq husable later, ?_⟩
  rw [readEntries_eq husable now] at h
  obtain rfl := Except.ok.inj h
  rcases hd : documentIn? files path with _ | document
  · rfl
  have hproper := proper_documentIn? hd
  have hnames := (proper_fieldsOf hproper).1
  simp only [Option.elim_some, entries_entriesOf hproper]
  rw [readKept_later now later, readKept, List.map_filterMap]
  refine List.filterMap_congr fun f hf => ?_
  have hfield := (field?_eq_some_iff hnames).2 hf
  have hundated : undated files path f.1 = isUndated f.2 := by
    rw [undated, hd, Option.any_some, hfield, Option.any_some]
  rw [Option.map_map]
  simp only [redate, Function.comp_def, hundated]

/-- What was read of a file can be written so that it is read again. -/
theorem writable_readEntries {files : Files.Tree} {path : String}
    {now : Double} {entries : KeptTable}
    (h : readEntries files path now = .ok entries) (hnow : now.Canonical) :
    Writable entries := by
  intro e he
  obtain ⟨bytes, cs, document, fields, v, -, -, hread, -, hentries, hfield,
    hv⟩ := (mem_readEntries h).1 he
  cases (proper_read hread).field hentries with
  | object _ hall => exact Kept.writable_of_read (hall _ hfield) hnow hv

/-- A file that holds a document is read as its entries. -/
theorem readEntries_indented {files : Files.Tree} {path : String}
    {document : Json} (h : Legible maxNesting document)
    (hread : files.read path = .ok
      (Text.Utf8.encode (String.ofList (indented document))))
    (now : Double) :
    readEntries files path now = .ok (entriesOf now document) := by
  rw [readEntries, hread]
  dsimp only
  rw [decode_indented]
  dsimp only
  rw [read_legible h]

/-- What was written of the entries is read back, at any time. -/
theorem readEntries_of_written {files : Files.Tree} {path : String}
    {saved : Double} {entries : KeptTable} (h : Writable entries)
    (hread : files.read path = .ok (bytesOf saved entries)) (now : Double) :
    readEntries files path now = .ok entries := by
  have hlegible := legible_documentOf h saved
  rw [readEntries_indented hlegible hread]
  refine congrArg Except.ok (Table.eq_of_entries ?_)
  rw [entries_entriesOf (proper_read (read_legible hlegible)),
    fieldsOf_documentOf, readKept, List.filterMap_map]
  simp [Function.comp_def, Kept.read_toJson, Reading.toOption]

/-- Entries that were written have a time of their own, so reading them
does not date them anew. -/
theorem redate_of_written {files : Files.Tree} {path : String}
    {saved : Double} {entries : KeptTable} (h : Writable entries)
    (hread : files.read path = .ok (bytesOf saved entries)) (now : Double)
    (e : String × Kept) : redate files path now e = e := by
  have hd := documentIn?_of_written h hread
  have hnames := (proper_fieldsOf (proper_documentIn? hd)).1
  have hdated : undated files path e.1 = false := by
    rw [undated, hd, Option.any_some]
    rcases hf : Json.field? e.1 (.object (fieldsOf
        (documentOf saved entries))) with _ | v
    · rfl
    · have hmem := (field?_eq_some_iff hnames).1 hf
      rw [fieldsOf_documentOf] at hmem
      obtain ⟨f, -, hv⟩ := List.mem_map.1 hmem
      rw [← (Prod.mk.inj hv).2]
      simp [isUndated, Kept.toJson, Analysis.toJson, field?]
  rw [redate, hdated]
  rfl

end Cache

end CallTrace
