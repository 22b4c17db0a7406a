/-
The document of the durable tier, written and read again.

What is read of a document that was written holds no entry that was not
written, except that times may differ. Nothing is said of entries that are
not read; a document with an integer of too many digits is not read at
all.
-/
import CallTrace.Cache.DurableTier
import CallTrace.Proofs.Json.RoundTrip

namespace CallTrace

open Json
open Number (Double)

-- ============================================================== readers

namespace Json

/-- No double-precision number is in the document. -/
abbrev Exact : Json → Prop := Regular fun _ => False

section

variable {α β : Type}

@[simp] theorem map_good (f : α → β) (a : α) :
    f <$> Reading.good a = .good (f a) := rfl

@[simp] theorem seq_good (f : α → β) (a : α) :
    Reading.good f <*> Reading.good a = .good (f a) := rfl

@[simp] theorem under_good (place : Place) (a : α) :
    (Reading.good a).under place = .good a := rfl

theorem readItemsFrom_map {r : Reader α} {f : α → Json}
    (h : ∀ a, r (f a) = .good a) (as : List α) (i : Nat) :
    readItemsFrom r i (as.map f) = .good as := by
  induction as generalizing i with
  | nil => rfl
  | cons a as ih => simp [readItemsFrom, h, ih]

theorem readTuple_map {r : Reader α} {f : α → Json}
    (h : ∀ a, r (f a) = .good a) (as : List α) :
    readTuple r (.list (as.map f)) = .good as := readItemsFrom_map h as 0

/-- A name of a closed set is read back. -/
theorem readName_text {ofName? : String → Option α} {name : String} {a : α}
    (h : ofName? name = some a) : readName ofName? (.text name) = .good a := by
  rw [readName, h]

theorem readNullable_ofText? (s : Option String) :
    readNullable readText (ofText? s) = .good s := by
  cases s <;> rfl

end

/-- A weaker demand on the numbers of a value. -/
theorem Regular.mono {P Q : Double → Prop} (h : ∀ x, P x → Q x) {v : Json}
    (hv : Regular P v) : Regular Q v := by
  induction hv with
  | null => exact .null
  | bool b => exact .bool b
  | int n => exact .int n
  | float hx => exact .float (h _ hx)
  | text s => exact .text s
  | list _ ih => exact .list ih
  | object hnames _ ih => exact .object hnames ih

theorem Exact.regular {P : Double → Prop} {v : Json} (h : v.Exact) :
    Regular P v := h.mono fun _ => False.elim

theorem exact_ofText? (s : Option String) : (ofText? s).Exact := by
  cases s with
  | none => exact .null
  | some s => exact .text s

theorem exact_map {α : Type} {f : α → Json} (h : ∀ a, (f a).Exact)
    (as : List α) : (Json.list (as.map f)).Exact := by
  refine .list fun v hv => ?_
  obtain ⟨a, -, rfl⟩ := List.mem_map.1 hv
  exact h a

theorem FieldsReadAs.cons_inv {k : String} {v : Json}
    {fs r : List (String × Json)} (h : FieldsReadAs ((k, v) :: fs) r) :
    ∃ w gs, r = (k, w) :: gs ∧ ReadsAs v w ∧ FieldsReadAs fs gs := by
  cases h with
  | cons h rest => exact ⟨_, _, rfl, h, rest⟩

theorem ReadsAs.object_inv {fs : List (String × Json)} {w : Json}
    (h : ReadsAs (.object fs) w) : ∃ gs, w = .object gs ∧ FieldsReadAs fs gs := by
  cases h with
  | object h => exact ⟨_, rfl, h⟩

/-- In an object with one double-precision number, only that may be
different. -/
theorem FieldsReadAs.eq_of_float (fs : List (String × Json))
    {gs r : List (String × Json)} {k : String} {x : Double}
    (h : FieldsReadAs (fs ++ (k, .float x) :: gs) r)
    (hf : ∀ f ∈ fs, f.2.Exact) (hg : ∀ g ∈ gs, g.2.Exact) :
    ∃ y, r = fs ++ (k, .float y) :: gs := by
  induction fs generalizing r with
  | nil =>
    cases h with
    | cons h rest =>
      cases h with
      | @float _ y _ =>
        exact ⟨y, by rw [rest.eq fun g hmem => (hg g hmem).regular]; rfl⟩
  | cons f fs ih =>
    cases h with
    | cons h rest =>
      obtain ⟨y, hy⟩ := ih rest fun f hmem =>
        hf f (List.mem_cons_of_mem _ hmem)
      refine ⟨y, ?_⟩
      rw [hy, h.eq (hf _ (List.mem_cons_self ..)).regular]
      rfl

end Json

-- ============================================================= records

theorem Status.ofName?_name (s : Status) : ofName? s.name = some s := by
  cases s <;> decide

theorem Decision.ofName?_name (d : Decision) : ofName? d.name = some d := by
  cases d <;> decide

theorem BlockKind.ofName?_name (k : BlockKind) : ofName? k.name = some k := by
  cases k <;> decide

theorem readNullable_status (s : Option Status) :
    readNullable readStatus (ofText? (s.map Status.name)) = .good s := by
  cases s with
  | none => rfl
  | some s =>
    show (readStatus (.text s.name)).map some = _
    rw [readStatus, readName_text (Status.ofName?_name s)]
    rfl

theorem CallSite.exact_toJson (c : CallSite) : c.toJson.Exact := by
  refine .object (by simp) ?_
  simp only [List.forall_mem_cons, List.not_mem_nil, false_implies,
    implies_true, and_true]
  exact ⟨.text _, .text _, .text _, .text _, .text _, .text _, .int _,
    exact_ofText? _, exact_ofText? _, exact_ofText? _⟩

theorem CallSite.read_toJson (c : CallSite) : read c.toJson = .good c := by
  simp [read, toJson, readObject, required, withDefault, field?, readText,
    readInt, readName_text (Decision.ofName?_name _), readNullable_status,
    readNullable_ofText?]

theorem Block.exact_toJson (b : Block) : b.toJson.Exact := by
  refine .object (by simp) ?_
  simp only [List.forall_mem_cons, List.not_mem_nil, false_implies,
    implies_true, and_true]
  exact ⟨.text _, .text _, .text _, .text _,
    exact_map CallSite.exact_toJson _, exact_map .text _⟩

theorem Block.read_toJson (b : Block) : read b.toJson = .good b := by
  simp [read, toJson, readObject, required, withDefault, field?,
    readName_text (BlockKind.ofName?_name _),
    readTuple_map CallSite.read_toJson, readTuple_map (r := readText)
      (f := Json.text) fun _ => rfl, readText]

theorem CallSummary.exact_toJson (s : CallSummary) : s.toJson.Exact := by
  refine .object (by simp) ?_
  simp only [List.forall_mem_cons, List.not_mem_nil, false_implies,
    implies_true, and_true]
  exact ⟨exact_map CallSite.exact_toJson _, exact_map CallSite.exact_toJson _,
    exact_map CallSite.exact_toJson _, exact_map CallSite.exact_toJson _⟩

theorem CallSummary.read_toJson (s : CallSummary) :
    read s.toJson = .good s := by
  simp [read, toJson, readObject, withDefault, field?,
    readTuple_map CallSite.read_toJson]

namespace Analysis

theorem read_toJson (a : Analysis) (now : Double) :
    read now a.toJson = .good a := by
  simp [read, toJson, readObject, required, withDefault, field?, readText,
    readStatus, readName_text (Status.ofName?_name _), readDouble,
    readTuple_map Block.read_toJson, CallSummary.read_toJson,
    readNullable_ofText?]

/-- The analysis as of another time. -/
def stamped (a : Analysis) (time : Double) : Analysis :=
  { a with createdAt := time }

/-- An analysis writes finite numbers only, whatever its times are. -/
theorem regular_toJson (a : Analysis) :
    Regular (fun _ => True) a.toJson := by
  refine .object (by simp) ?_
  simp only [List.forall_mem_cons, List.not_mem_nil, false_implies,
    implies_true, and_true]
  exact ⟨.text _, .text _, .text _, .text _,
    (exact_map Block.exact_toJson _).regular, a.summary.exact_toJson.regular,
    .text _, .float trivial, (exact_ofText? _).regular,
    (exact_ofText? _).regular⟩

/-- A written analysis is read as it was, but for its time. -/
theorem eq_stamped {a : Analysis} {w : Json} (h : ReadsAs a.toJson w) :
    ∃ time, w = (a.stamped time).toJson := by
  cases h with
  | object h =>
    obtain ⟨y, hy⟩ := h.eq_of_float
      [("type_name", .text a.typeName),
        ("method_name", .text a.methodName), ("language", .text a.language),
        ("status", .text a.status.name),
        ("blocks", .list (a.blocks.map Block.toJson)),
        ("call_summary", a.summary.toJson),
        ("fingerprint", .text a.fingerprint)]
      (by
        simp only [List.forall_mem_cons, List.not_mem_nil, false_implies,
          implies_true, and_true]
        exact ⟨.text _, .text _, .text _, .text _,
          exact_map Block.exact_toJson _, a.summary.exact_toJson, .text _⟩)
      (by
        simp only [List.forall_mem_cons, List.not_mem_nil, false_implies,
          implies_true, and_true]
        exact ⟨exact_ofText? _, exact_ofText? _⟩)
    exact ⟨y, by rw [hy]; rfl⟩

end Analysis

-- ============================================================= entries

namespace Cache

theorem Kept.regular_toJson (e : Kept) :
    Regular (fun _ => True) e.toJson := by
  refine .object (by simp) ?_
  simp only [List.forall_mem_cons, List.not_mem_nil, false_implies,
    implies_true, and_true]
  exact ⟨e.analysis.regular_toJson, .text _, .text _, .float trivial,
    .text _, .text _⟩

theorem Kept.read_toJson (e : Kept) (now : Double) :
    read now e.toJson = .good e := by
  simp [read, toJson, readObject, required, withDefault, field?, readText,
    readDouble, Analysis.read_toJson]

/-- A written entry is read as it was, but for its times. -/
theorem Kept.eq_of_readsAs {e : Kept} {w : Json}
    (h : ReadsAs e.toJson w) : ∃ time timestamp, w = Kept.toJson
      { e with analysis := e.analysis.stamped time, timestamp := timestamp } := by
  cases h with
  | object h =>
    cases h with
    | cons ha h =>
      obtain ⟨time, rfl⟩ := Analysis.eq_stamped ha
      obtain ⟨timestamp, rfl⟩ := h.eq_of_float
        [("fingerprint", .text e.fingerprint),
          ("oracle_identity", .text e.identity)]
        (by simpa using ⟨Regular.text _, Regular.text _⟩)
        (by simpa using ⟨Regular.text _, Regular.text _⟩)
      exact ⟨time, timestamp, rfl⟩

/-- The document of a tier writes finite numbers only. -/
theorem regular_documentOf (now : Double) (entries : KeptTable) :
    Regular (fun _ => True) (documentOf now entries) := by
  refine .object (by simp) ?_
  simp only [List.forall_mem_cons, List.not_mem_nil, false_implies,
    implies_true, and_true]
  refine ⟨.text _, .text _, .object ?_ fun f hf => ?_⟩
  · rw [List.map_map]
    exact entries.nodup
  · obtain ⟨e, -, rfl⟩ := List.mem_map.1 hf
    exact e.2.regular_toJson

/-- A written document is read with entries that are read as those
written. -/
theorem readsAs_documentOf {now : Double} {entries : KeptTable}
    {document : Json} (h : ReadsAs (documentOf now entries) document) :
    ∃ fields, document = .object
        [("version", .text formatVersion), ("last_saved", .text (Time.text now)),
          ("entries", .object fields)] ∧
      FieldsReadAs (entries.entries.map fun e => (e.1, e.2.toJson)) fields := by
  obtain ⟨all, rfl, hall⟩ := h.object_inv
  obtain ⟨version, behind, rfl, hversion, hbehind⟩ := hall.cons_inv
  obtain ⟨saved, last, rfl, hsaved, hlast⟩ := hbehind.cons_inv
  obtain ⟨entries', none, rfl, hentries, hnone⟩ := hlast.cons_inv
  obtain ⟨fields, rfl, hfields⟩ := hentries.object_inv
  refine ⟨fields, ?_, hfields⟩
  rw [hversion.eq (.text _), hsaved.eq (.text _), hnone.eq (by simp)]

/-- A field that is read back was written, under the same name. -/
theorem exists_of_fieldsReadAs {fs gs : List (String × Json)}
    (h : FieldsReadAs fs gs) {g : String × Json} (hg : g ∈ gs) :
    ∃ f ∈ fs, f.1 = g.1 ∧ ReadsAs f.2 g.2 := by
  induction gs generalizing fs with
  | nil => exact absurd hg List.not_mem_nil
  | cons g' gs ih =>
    cases h with
    | cons hv rest =>
      rcases List.mem_cons.1 hg with rfl | hg
      · exact ⟨_, List.mem_cons_self .., rfl, hv⟩
      · obtain ⟨f, hf, hfg⟩ := ih rest hg
        exact ⟨f, List.mem_cons_of_mem _ hf, hfg⟩

/-- The entries of a document of the right version. -/
theorem entriesOf_document (now : Double) (saved : Json)
    (fields : List (String × Json)) :
    entriesOf now (.object [("version", .text formatVersion),
        ("last_saved", saved), ("entries", .object fields)]) =
      Table.ofList (fields.filterMap fun f =>
        (Kept.read now f.2).toOption.map (f.1, ·)) := by
  simp [entriesOf, field?]

/-- What is read of a written document was written, but for times. -/
theorem mem_of_written {entries : KeptTable} {then_ now : Double}
    {cs : List Char} {document : Json}
    (hd : Text.Utf8.decode (Text.Utf8.encode
      (String.ofList (indented (documentOf then_ entries)))) = .ok cs)
    (hr : Json.read cs = .ok document) {e : String × Kept}
    (he : e ∈ (entriesOf now document).entries) :
    ∃ f ∈ entries.entries, e.1 = f.1 ∧
      (∃ time, e.2.analysis = f.2.analysis.stamped time) ∧
      e.2.fingerprint = f.2.fingerprint ∧ e.2.identity = f.2.identity := by
  obtain ⟨fields, rfl, hfields⟩ := readsAs_documentOf
    (read_encoded (regular_documentOf then_ entries) hd hr)
  rw [entriesOf_document] at he
  obtain ⟨g, hg, hread⟩ := List.mem_filterMap.1 (Table.mem_of_mem_ofList he)
  obtain ⟨_, hmem, hk, hreads⟩ := exists_of_fieldsReadAs hfields hg
  obtain ⟨f, hf, rfl⟩ := List.mem_map.1 hmem
  obtain ⟨time, timestamp, hw⟩ := Kept.eq_of_readsAs hreads
  rw [hw, Kept.read_toJson] at hread
  obtain rfl := Option.some.inj hread
  exact ⟨f, hf, hk.symm, ⟨time, rfl⟩, rfl, rfl⟩

end Cache

end CallTrace
