/-
Reading back a written document.

A document that is written with its parts indented is plain ASCII. If it
is read at all, it is read as it was, double-precision numbers of the
format included; of other such numbers nothing is said here but that they
are read as double-precision numbers again. It may not be read at all,
since an integer of too many digits is written and not taken.
-/
import CallTrace.Proofs.Json.Leaves
import CallTrace.Proofs.Text.Utf8

namespace CallTrace.Json

open Number (Double intText digitsOf)

-- ========================================================= plain ASCII

/-- Only ASCII. -/
def IsAscii (cs : List Char) : Prop := ∀ c ∈ cs, c.toNat < 0x80

instance (cs : List Char) : Decidable (IsAscii cs) :=
  List.decidableBAll (fun c : Char => c.toNat < 0x80) cs

theorem IsAscii.append {cs ds : List Char} (hc : IsAscii cs)
    (hd : IsAscii ds) : IsAscii (cs ++ ds) := by
  intro c h
  rcases List.mem_append.1 h with h | h
  · exact hc c h
  · exact hd c h

theorem IsAscii.cons {c : Char} {cs : List Char} (hc : c.toNat < 0x80)
    (hcs : IsAscii cs) : IsAscii (c :: cs) :=
  List.forall_mem_cons.2 ⟨hc, hcs⟩

theorem isAscii_nil : IsAscii [] := fun _ h => absurd h List.not_mem_nil

theorem isAscii_of_isDigit {cs : List Char}
    (h : ∀ c ∈ cs, c.isDigit = true) : IsAscii cs := by
  intro c hc
  have hd := h c hc
  simp only [Char.isDigit, Bool.and_eq_true, decide_eq_true_eq] at hd
  have : c.val.toNat ≤ 57 := hd.2
  exact Nat.lt_of_le_of_lt this (by decide)

theorem isAscii_digitsOf (n : Nat) : IsAscii (digitsOf n) :=
  isAscii_of_isDigit fun _ => Number.isDigit_of_mem_digitsOf

theorem isAscii_hex4 {n : Nat} (h : n < 0x10000) : IsAscii (hex4 n) := by
  have hdigit : ∀ k < 16, (Nat.digitChar k).toNat < 0x80 := by decide
  rw [hex4_eq h]
  exact .cons (hdigit _ (by omega)) (.cons (hdigit _ (by omega))
    (.cons (hdigit _ (by omega)) (.cons (hdigit _ (by omega)) isAscii_nil)))

/-- An escape is written in ASCII, whichever the code point. -/
theorem isAscii_escapeUnits {n : Nat} (hn : n < 0x110000) :
    IsAscii (escapeUnits n) := by
  rw [escapeUnits]
  split
  · rename_i h
    exact .cons (by decide) (.cons (by decide) (isAscii_hex4 h))
  · refine .append (.cons (by decide) (.cons (by decide)
      (isAscii_hex4 ?_))) (.cons (by decide) (.cons (by decide)
        (isAscii_hex4 ?_))) <;> omega

/-- A character of a text is written in ASCII. -/
theorem isAscii_escapeChar (c : Char) : IsAscii (escapeChar c) := by
  have hc : c.toNat < 0x110000 := by
    rcases toNat_char c with h | h <;> omega
  rw [escapeChar]
  split
  · decide
  split
  · decide
  split
  · decide
  split
  · decide
  split
  · decide
  split
  · decide
  split
  · decide
  split
  · rename_i h
    simp only [Bool.and_eq_true, decide_eq_true_eq] at h
    exact .cons (by omega) isAscii_nil
  · exact isAscii_escapeUnits hc

theorem isAscii_stringText (s : String) : IsAscii (stringText s) := by
  refine .append (.cons (by decide) fun c hc => ?_)
    (.cons (by decide) isAscii_nil)
  obtain ⟨d, -, hd⟩ := List.mem_flatMap.1 hc
  exact isAscii_escapeChar d c hd

/-- The shortest form of a number is written in ASCII. -/
theorem isAscii_shortText {d : Double.Digits} (hd : d.Proper) :
    IsAscii (shortText d) := by
  have hdigits : IsAscii d.digits :=
    isAscii_of_isDigit fun _ => hd.isWhole.isDigit
  have hexp : ∀ e, IsAscii (Double.exponentText e) := by
    intro e
    rw [Double.exponentText]
    refine .cons (by decide) (.cons (by split <;> decide) ?_)
    split
    · exact .cons (by decide) (isAscii_digitsOf _)
    · exact isAscii_digitsOf _
  rw [shortText]
  split
  · obtain ⟨whole, fraction, htext, hwhole, -, hfraction, -⟩ :=
      exists_positional hd
    rw [htext]
    exact .append (isAscii_of_isDigit fun _ => hwhole.isDigit)
      (.cons (by decide) (isAscii_of_isDigit hfraction))
  · rw [Double.Digits.scientific]
    split
    · exact isAscii_nil
    · rename_i c h
      rw [h] at hdigits
      exact .cons (hdigits c (by simp)) (hexp _)
    · rename_i c cs _ h
      rw [h] at hdigits
      exact .append (.cons (hdigits c (by simp)) (.cons (by decide)
        fun c hc => hdigits c (List.mem_cons_of_mem _ hc))) (hexp _)

/-- A number is written in ASCII. -/
theorem isAscii_numberText (x : Double) : IsAscii (numberText x) := by
  cases x with
  | nan => decide
  | infinite negative => cases negative <;> decide
  | finite negative m e =>
    have htext : numberText (.finite negative m e) =
        Double.signed negative (shortText (Double.shortest negative m e)) :=
      rfl
    have hshort := isAscii_shortText (Double.proper_shortest negative m e)
    rw [htext, Double.signed]
    split
    · exact .cons (by decide) hshort
    · exact hshort

/-- A leaf is written in ASCII. -/
theorem isAscii_leafText (v : Json) : IsAscii (leafText v) := by
  cases v with
  | int n =>
    rw [leafText, intText]
    split
    · exact .cons (by decide) (isAscii_digitsOf _)
    · exact isAscii_digitsOf _
  | float x => exact isAscii_numberText x
  | text s | brokenText s => exact isAscii_stringText s
  | bool b => cases b <;> decide
  | _ => unfold IsAscii; simp [leafText]

theorem isAscii_newLine (level : Nat) : IsAscii (newLine level) := by
  refine .cons (by decide) fun c hc => ?_
  rw [List.eq_of_mem_replicate hc]
  decide

mutual

/-- A value is written in ASCII, at any indentation. -/
theorem isAscii_indentedAt (level : Nat) :
    (v : Json) → IsAscii (indentedAt level v)
  | .list [] => by unfold IsAscii; simp [indentedAt]
  | .object [] => by unfold IsAscii; simp [indentedAt]
  | .list (v :: vs) => by
    simp only [indentedAt]
    exact .append (.append (.append (.cons (by decide) (isAscii_newLine _))
      (isAscii_indentedItems _ (v :: vs))) (isAscii_newLine _))
      (.cons (by decide) isAscii_nil)
  | .object (f :: fs) => by
    simp only [indentedAt]
    exact .append (.append (.append (.cons (by decide) (isAscii_newLine _))
      (isAscii_indentedFields _ (f :: fs))) (isAscii_newLine _))
      (.cons (by decide) isAscii_nil)
  | .null | .bool _ | .int _ | .float _ | .text _ | .brokenText _ => by
    simp only [indentedAt]
    exact isAscii_leafText _

/-- So are the items of a list. -/
theorem isAscii_indentedItems (level : Nat) :
    (vs : List Json) → IsAscii (indentedItems level vs)
  | [] => isAscii_nil
  | [v] => isAscii_indentedAt level v
  | v :: w :: vs => by
    simp only [indentedItems]
    exact .append (.append (isAscii_indentedAt level v)
      (.cons (by decide) (isAscii_newLine _)))
      (isAscii_indentedItems level (w :: vs))

/-- So are the fields of an object. -/
theorem isAscii_indentedFields (level : Nat) :
    (fs : List (String × Json)) → IsAscii (indentedFields level fs)
  | [] => isAscii_nil
  | [(k, v)] => by
    simp only [indentedFields]
    exact .append (isAscii_stringText k) (.cons (by decide)
      (.cons (by decide) (isAscii_indentedAt level v)))
  | (k, v) :: f :: fs => by
    simp only [indentedFields]
    exact .append (.append (.append (isAscii_stringText k)
      (.cons (by decide) (.cons (by decide) (isAscii_indentedAt level v))))
      (.cons (by decide) (isAscii_newLine _)))
      (isAscii_indentedFields level (f :: fs))

end

-- =========================================================== documents

/-- A document that can be written so that it is read back: no text in it
is broken, and no object has two fields of one name. `P` holds of every
double-precision number in it. -/
inductive Regular (P : Double → Prop) : Json → Prop where
  | null : Regular P .null
  | bool (b : Bool) : Regular P (.bool b)
  | int (n : Int) : Regular P (.int n)
  | float {x : Double} (h : P x) : Regular P (.float x)
  | text (s : String) : Regular P (.text s)
  | list {vs : List Json} (h : ∀ v ∈ vs, Regular P v) : Regular P (.list vs)
  | object {fs : List (String × Json)} (hnames : (fs.map (·.1)).Nodup)
      (h : ∀ f ∈ fs, Regular P f.2) : Regular P (.object fs)

mutual

/-- The document `w` is `v`, but for double-precision numbers that are not
of the format. -/
inductive ReadsAs : Json → Json → Prop where
  | null : ReadsAs .null .null
  | bool (b : Bool) : ReadsAs (.bool b) (.bool b)
  | int (n : Int) : ReadsAs (.int n) (.int n)
  | float {x y : Double} (h : x.Canonical → y = x) :
    ReadsAs (.float x) (.float y)
  | text (s : String) : ReadsAs (.text s) (.text s)
  | list {vs ws : List Json} (h : ItemsReadAs vs ws) :
    ReadsAs (.list vs) (.list ws)
  | object {fs gs : List (String × Json)} (h : FieldsReadAs fs gs) :
    ReadsAs (.object fs) (.object gs)

inductive ItemsReadAs : List Json → List Json → Prop where
  | nil : ItemsReadAs [] []
  | cons {v w : Json} {vs ws : List Json} (h : ReadsAs v w)
      (rest : ItemsReadAs vs ws) : ItemsReadAs (v :: vs) (w :: ws)

inductive FieldsReadAs :
    List (String × Json) → List (String × Json) → Prop where
  | nil : FieldsReadAs [] []
  | cons {k : String} {v w : Json} {fs gs : List (String × Json)}
      (h : ReadsAs v w) (rest : FieldsReadAs fs gs) :
    FieldsReadAs ((k, v) :: fs) ((k, w) :: gs)

end

mutual

/-- A document whose double-precision numbers are of the format is read as
it was. -/
theorem ReadsAs.eq {v w : Json} (h : ReadsAs v w)
    (hv : Regular Double.Canonical v) : w = v := by
  cases h with
  | float h => cases hv with | float hv => rw [h hv]
  | list h => cases hv with | list hv => rw [h.eq hv]
  | object h => cases hv with | object _ hv => rw [h.eq hv]
  | _ => rfl

theorem ItemsReadAs.eq {vs ws : List Json} (h : ItemsReadAs vs ws)
    (hv : ∀ v ∈ vs, Regular Double.Canonical v) : ws = vs := by
  cases h with
  | nil => rfl
  | cons h rest =>
    rw [h.eq (hv _ (List.mem_cons_self ..)),
      rest.eq fun v hmem => hv v (List.mem_cons_of_mem _ hmem)]

theorem FieldsReadAs.eq {fs gs : List (String × Json)}
    (h : FieldsReadAs fs gs)
    (hf : ∀ f ∈ fs, Regular Double.Canonical f.2) : gs = fs := by
  cases h with
  | nil => rfl
  | cons h rest =>
    rw [h.eq (hf _ (List.mem_cons_self ..)),
      rest.eq fun f hmem => hf f (List.mem_cons_of_mem _ hmem)]

end

-- ============================================================== blanks

theorem skipSpace_newLine (level : Nat) (cs : List Char) :
    skipSpace (newLine level ++ cs) = skipSpace cs := by
  refine List.dropWhile_append_of_pos fun c hc => ?_
  rcases List.mem_cons.1 hc with rfl | hc
  · rfl
  · rw [List.eq_of_mem_replicate hc]
    rfl

theorem skipSpace_cons {c : Char} (h : isSpace c = false)
    (cs : List Char) : skipSpace (c :: cs) = c :: cs := by
  simp [skipSpace, h]

/-- Something other than a blank or the end of a list comes first. -/
def Opens (cs : List Char) : Prop :=
  ∃ c rest, cs = c :: rest ∧ isSpace c = false ∧ c ≠ ']'

theorem Opens.append {cs : List Char} (h : Opens cs) (ds : List Char) :
    Opens (cs ++ ds) := by
  obtain ⟨c, rest, rfl, hspace, hne⟩ := h
  exact ⟨c, rest ++ ds, rfl, hspace, hne⟩

theorem Opens.skipSpace {cs : List Char} (h : Opens cs) :
    skipSpace cs = cs := by
  obtain ⟨c, rest, rfl, hspace, -⟩ := h
  exact skipSpace_cons hspace rest

/-- What comes first is no blank, and starts no string, list or object. -/
def OpensLeaf (cs : List Char) : Prop :=
  ∃ c rest, cs = c :: rest ∧ isSpace c = false ∧ c ≠ ']' ∧ c ≠ '"' ∧
    c ≠ '[' ∧ c ≠ '{'

theorem OpensLeaf.opens {cs : List Char} (h : OpensLeaf cs) : Opens cs := by
  obtain ⟨c, rest, rfl, hspace, hne, -⟩ := h
  exact ⟨c, rest, rfl, hspace, hne⟩

/-- What starts no string, list or object is read as a leaf. -/
theorem OpensLeaf.readValue {cs : List Char} (h : OpensLeaf cs)
    (fuel levels : Nat) (rest : List Char) :
    readValue (fuel + 1) levels (cs ++ rest) = readLeaf (cs ++ rest) := by
  obtain ⟨c, cs, rfl, -, -, hquote, hlist, hobject⟩ := h
  rw [List.cons_append, Json.readValue]
  all_goals
    intro r hr
    have hc := (List.cons.inj hr).1
    contradiction

/-- A digit opens a leaf. -/
theorem opensLeaf_digit {c : Char} (h : c.isDigit = true)
    (cs : List Char) : OpensLeaf (c :: cs) := by
  refine ⟨c, cs, rfl, ?_, ?_, ?_, ?_, ?_⟩
  · rw [Bool.eq_false_iff]
    intro hs
    simp only [isSpace, Bool.or_eq_true, beq_iff_eq] at hs
    rcases hs with ((rfl | rfl) | rfl) | rfl <;> exact absurd h (by decide)
  all_goals
    rintro rfl
    exact absurd h (by decide)

theorem opensLeaf_minus (cs : List Char) : OpensLeaf ('-' :: cs) :=
  ⟨'-', cs, rfl, by decide⟩

/-- The text of an integer opens a leaf. -/
theorem opensLeaf_intText (n : Int) : OpensLeaf (intText n) := by
  rw [intText]
  split
  · exact opensLeaf_minus _
  · obtain ⟨c, cs, hc⟩ :=
      List.exists_cons_of_ne_nil (Number.digitsOf_ne_nil n.natAbs)
    rw [hc]
    exact opensLeaf_digit (Number.isDigit_of_mem_digitsOf
      (n := n.natAbs) (by simp [hc])) cs

/-- The text of a number opens a leaf. -/
theorem opensLeaf_numberText (x : Double) : OpensLeaf (numberText x) := by
  cases x with
  | nan => exact ⟨'N', _, rfl, by decide⟩
  | infinite negative =>
    cases negative with
    | false => exact ⟨'I', _, rfl, by decide⟩
    | true => exact opensLeaf_minus _
  | finite negative m e =>
    obtain ⟨c, cs, hcs, hc⟩ :=
      exists_cons_shortText (Double.proper_shortest negative m e)
    have htext : numberText (.finite negative m e) =
        Double.signed negative (c :: cs) := by
      rw [← hcs]
      rfl
    rw [htext]
    cases negative with
    | false => exact opensLeaf_digit hc cs
    | true => exact opensLeaf_minus _

/-- A value starts with neither a blank nor the end of a list, at any
indentation. -/
theorem opens_indentedAt {P : Double → Prop} (level : Nat) {v : Json}
    (hv : Regular P v) : Opens (indentedAt level v) := by
  cases hv with
  | null => exact ⟨'n', _, rfl, by decide⟩
  | bool b =>
    cases b with
    | false => exact ⟨'f', _, rfl, by decide⟩
    | true => exact ⟨'t', _, rfl, by decide⟩
  | int n =>
    rw [indentedAt]
    · exact (opensLeaf_intText n).opens
    all_goals simp
  | @float x _ =>
    rw [indentedAt]
    · exact (opensLeaf_numberText x).opens
    all_goals simp
  | text s =>
    rw [indentedAt]
    · exact ⟨'"', _, rfl, by decide⟩
    all_goals simp
  | @list vs _ => cases vs <;> exact ⟨'[', _, rfl, by decide⟩
  | @object fs _ _ => cases fs <;> exact ⟨'{', _, rfl, by decide⟩

-- ============================================================= reading

theorem fuel_pos {α : Type} {fuel : Nat} {r : α}
    {f : Nat → Except ReadError α} (hzero : f 0 = .error .malformed)
    (h : f fuel = .ok r) : ∃ n, fuel = n + 1 := by
  cases fuel with
  | zero => exact absurd (hzero.symm.trans h) (by simp)
  | succ n => exact ⟨n, rfl⟩

/-- What is read where a string stands. -/
theorem readValue_stringText (s : String) (rest : List Char)
    {fuel levels : Nat} {r : Json × List Char}
    (h : readValue fuel levels (stringText s ++ rest) = .ok r) :
    r = (.text s, rest) := by
  obtain ⟨fuel, rfl⟩ := fuel_pos (f := fun n => readValue n levels _)
    (by simp [readValue]) h
  simp only [stringText, List.cons_append, List.append_assoc] at h
  rw [readValue] at h
  generalize hs : readString _ [] false _ = result at h
  cases result with
  | error e => exact absurd h (by simp [bind, Except.bind])
  | ok found =>
    rw [readString_stringText s rest hs] at h
    simpa [bind, Except.bind, ofString] using h.symm

/-- A value without parts is read back. -/
theorem readLeaf_leafText {P : Double → Prop} {v : Json} (hv : Regular P v)
    (hopens : OpensLeaf (leafText v)) {rest : List Char}
    (hrest : Ended rest) {r : Json × List Char}
    (h : readLeaf (leafText v ++ rest) = .ok r) :
    ∃ w, ReadsAs v w ∧ r = (w, rest) := by
  cases hv with
  | null => exact ⟨_, .null, (Except.ok.inj h).symm⟩
  | bool b =>
    cases b <;> exact ⟨_, .bool _, (Except.ok.inj h).symm⟩
  | int n =>
    have hread := readLeaf_intText n hrest
    split at hread
    · exact absurd (h.symm.trans hread) (by simp)
    · exact ⟨_, .int n, Except.ok.inj (h.symm.trans hread)⟩
  | @float x _ =>
    obtain ⟨y, hy, hsame⟩ := readLeaf_numberText x hrest
    exact ⟨_, .float hsame, Except.ok.inj (h.symm.trans hy)⟩
  | text | list | object =>
    obtain ⟨c, cs, hc, -, -, hquote, -, -⟩ := hopens
    exact absurd (List.cons.inj hc).1.symm hquote

/-- However a leaf is read, it is read as what it was written for. -/
theorem readValue_leafText {P : Double → Prop} {v : Json}
    (hv : Regular P v) (hopens : OpensLeaf (leafText v))
    {fuel levels : Nat} {rest : List Char} (hrest : Ended rest)
    {r : Json × List Char}
    (h : readValue fuel levels (leafText v ++ rest) = .ok r) :
    ∃ w, ReadsAs v w ∧ r = (w, rest) := by
  obtain ⟨fuel, rfl⟩ := fuel_pos (f := fun n => readValue n levels _)
    (by simp [readValue]) h
  rw [hopens.readValue] at h
  exact readLeaf_leafText hv hopens hrest h

/-- Reading goes on after a value only if the value is read. -/
theorem exists_of_bind {α β : Type} {x : Except ReadError α}
    {f : α → Except ReadError β} {r : β} (h : (x >>= f) = .ok r) :
    ∃ a, x = .ok a ∧ f a = .ok r := by
  cases x with
  | error e => exact absurd h (by simp [bind, Except.bind])
  | ok a => exact ⟨a, rfl, h⟩

/-- The items of a list that is not empty start with neither a blank nor
its end. -/
theorem opens_indentedItems {P : Double → Prop} (level : Nat) {v : Json}
    (hv : Regular P v) (vs : List Json) :
    Opens (indentedItems level (v :: vs)) := by
  have h := opens_indentedAt level hv
  cases vs with
  | nil => exact h
  | cons w vs =>
    simp only [indentedItems, List.append_assoc]
    exact h.append _

/-- A list takes one level, and its items have those that are left. -/
theorem readValue_list {cs : List Char} (h : Opens cs)
    (level fuel levels : Nat) :
    readValue (fuel + 1) (levels + 1) ('[' :: (newLine level ++ cs)) =
      readItems fuel levels [] cs := by
  rw [readValue, skipSpace_newLine, h.skipSpace]
  obtain ⟨c, cs, rfl, -, hne⟩ := h
  split
  · rename_i heq
    exact absurd (List.cons.inj heq).1 hne
  · rfl

/-- So does an object. -/
theorem readValue_object (cs : List Char) (level fuel levels : Nat) :
    readValue (fuel + 1) (levels + 1) ('{' :: (newLine level ++ '"' :: cs)) =
      readFields fuel levels [] ('"' :: cs) := by
  rw [readValue, skipSpace_newLine, skipSpace_cons (by decide)]
  rfl

/-- Where a list or an object is read there is a level for it. -/
theorem levels_pos {fuel levels : Nat} {c : Char} {cs : List Char}
    {r : Json × List Char} (hc : c = '[' ∨ c = '{')
    (h : readValue (fuel + 1) levels (c :: cs) = .ok r) :
    ∃ n, levels = n + 1 := by
  cases levels with
  | zero => rcases hc with rfl | rfl <;> exact absurd h (by simp [readValue])
  | succ n => exact ⟨n, rfl⟩

/-- A name that is new comes last. -/
theorem setField_of_new {fields : List (String × Json)} {k : String}
    (h : k ∉ fields.map (·.1)) (v : Json) :
    setField fields k v = fields ++ [(k, v)] := by
  rw [setField, if_neg]
  intro hany
  obtain ⟨f, hf, hk⟩ := List.any_eq_true.1 hany
  exact h (List.mem_map.2 ⟨f, hf, by simpa using hk⟩)

/-- What is read of a field, before what comes behind its value. -/
theorem readFields_field {fuel levels : Nat}
    {done : List (String × Json)} {k : String} {cs : List Char}
    {r : Json × List Char} (hcs : Opens cs)
    (h : readFields fuel levels done
      (stringText k ++ ':' :: ' ' :: cs) = .ok r) :
    ∃ fuel' w rest, readValue fuel' levels cs = .ok (w, rest) ∧
      (match skipSpace rest with
        | '}' :: after => .ok (.object (setField done k w), after)
        | ',' :: after =>
          readFields fuel' levels (setField done k w) (skipSpace after)
        | _ => .error .malformed) = Except.ok r := by
  obtain ⟨fuel, rfl⟩ := fuel_pos (f := fun n => readFields n levels done _)
    (by simp [readFields]) h
  simp only [stringText, List.cons_append, List.append_assoc] at h
  rw [readFields] at h
  obtain ⟨key, hkey, h⟩ := exists_of_bind h
  rw [readString_stringText k _ hkey] at h
  have hcolon : skipSpace ([] ++ ':' :: ' ' :: cs) = ':' :: ' ' :: cs := rfl
  have hblank : skipSpace (' ' :: cs) = cs := by
    show skipSpace cs = cs
    exact hcs.skipSpace
  simp only [hcolon, hblank, String.ofList_toList] at h
  obtain ⟨⟨w, rest⟩, hw, h⟩ := exists_of_bind h
  exact ⟨fuel, w, rest, hw, h⟩

mutual

/-- A document is read back, if it is read. -/
theorem readValue_indentedAt {P : Double → Prop} (level : Nat) :
    (v : Json) → Regular P v → ∀ {fuel levels : Nat} {rest : List Char}
      {r : Json × List Char}, Ended rest →
      readValue fuel levels (indentedAt level v ++ rest) = .ok r →
      ∃ w, ReadsAs v w ∧ r = (w, rest)
  | .list [], _, fuel, levels, rest, r, _, h => by
    obtain ⟨fuel, rfl⟩ := fuel_pos (f := fun n => readValue n levels _)
      (by simp [readValue]) h
    obtain ⟨levels, rfl⟩ := levels_pos (.inl rfl) h
    exact ⟨.list [], .list .nil, (Except.ok.inj h).symm⟩
  | .object [], _, fuel, levels, rest, r, _, h => by
    obtain ⟨fuel, rfl⟩ := fuel_pos (f := fun n => readValue n levels _)
      (by simp [readValue]) h
    obtain ⟨levels, rfl⟩ := levels_pos (.inr rfl) h
    exact ⟨.object [], .object .nil, (Except.ok.inj h).symm⟩
  | .list (v :: vs), hv, fuel, levels, rest, r, _, h => by
    obtain ⟨fuel, rfl⟩ := fuel_pos (f := fun n => readValue n levels _)
      (by simp [readValue]) h
    have hitems : ∀ w ∈ v :: vs, Regular P w := by cases hv; assumption
    simp only [indentedAt, List.cons_append, List.append_assoc,
      List.nil_append] at h
    obtain ⟨levels, rfl⟩ := levels_pos (.inl rfl) h
    rw [readValue_list ((opens_indentedItems (level + 1)
      (hitems v (List.mem_cons_self ..)) vs).append _)] at h
    obtain ⟨ws, hws, hr⟩ :=
      readItems_indentedItems (level + 1) v vs hitems level h
    exact ⟨.list ws, .list hws, hr⟩
  | .object ((k, v) :: fs), hv, fuel, levels, rest, r, _, h => by
    obtain ⟨fuel, rfl⟩ := fuel_pos (f := fun n => readValue n levels _)
      (by simp [readValue]) h
    have hfields : (((k, v) :: fs).map (·.1)).Nodup ∧
        ∀ f ∈ (k, v) :: fs, Regular P f.2 := by
      cases hv
      constructor <;> assumption
    obtain ⟨cs, hcs⟩ : ∃ cs, indentedFields (level + 1) ((k, v) :: fs) =
        '"' :: cs := by cases fs <;> exact ⟨_, rfl⟩
    simp only [indentedAt, List.cons_append, List.append_assoc,
      List.nil_append] at h
    obtain ⟨levels, rfl⟩ := levels_pos (.inr rfl) h
    rw [hcs, List.cons_append, readValue_object, ← List.cons_append,
      ← hcs] at h
    obtain ⟨gs, hgs, hr⟩ := readFields_indentedFields (level + 1) (k, v) fs
      hfields.2 level [] hfields.1 h
    exact ⟨.object gs, .object hgs, hr⟩
  | .null, hv, _, _, _, _, hrest, h =>
    readValue_leafText hv ⟨'n', _, rfl, by decide⟩ hrest h
  | .bool true, hv, _, _, _, _, hrest, h =>
    readValue_leafText hv ⟨'t', _, rfl, by decide⟩ hrest h
  | .bool false, hv, _, _, _, _, hrest, h =>
    readValue_leafText hv ⟨'f', _, rfl, by decide⟩ hrest h
  | .int n, hv, _, _, _, _, hrest, h =>
    readValue_leafText hv (opensLeaf_intText n) hrest h
  | .float x, hv, _, _, _, _, hrest, h =>
    readValue_leafText hv (opensLeaf_numberText x) hrest h
  | .text s, _, _, _, rest, _, _, h =>
    ⟨.text s, .text s, readValue_stringText s rest h⟩
  | .brokenText _, hv, _, _, _, _, _, _ => nomatch hv
termination_by v => sizeOf v

/-- The items of a list are read back behind others. -/
theorem readItems_indentedItems {P : Double → Prop} (level : Nat) :
    (v : Json) → (vs : List Json) → (∀ w ∈ v :: vs, Regular P w) →
      ∀ (outer : Nat) {fuel levels : Nat} {done : List Json}
        {rest : List Char} {r : Json × List Char},
      readItems fuel levels done (indentedItems level (v :: vs) ++
        (newLine outer ++ ']' :: rest)) = .ok r →
      ∃ ws, ItemsReadAs (v :: vs) ws ∧
        r = (.list (done.reverse ++ ws), rest)
  | v, [], hv, outer, fuel, levels, done, rest, r, h => by
    obtain ⟨fuel, rfl⟩ := fuel_pos (f := fun n => readItems n levels done _)
      (by simp [readItems]) h
    rw [readItems] at h
    obtain ⟨p, hp, h⟩ := exists_of_bind h
    obtain ⟨w, hw, rfl⟩ := readValue_indentedAt level v
      (hv v (List.mem_cons_self ..)) (ended_newLine outer _) hp
    have hend : skipSpace (newLine outer ++ ']' :: rest) = ']' :: rest :=
      skipSpace_newLine outer _
    simp only [hend, Except.ok.injEq] at h
    exact ⟨[w], .cons hw .nil, by rw [← h, List.reverse_cons]⟩
  | v, v' :: vs, hv, outer, fuel, levels, done, rest, r, h => by
    obtain ⟨fuel, rfl⟩ := fuel_pos (f := fun n => readItems n levels done _)
      (by simp [readItems]) h
    have hv' := fun w hw => hv w (List.mem_cons_of_mem _ hw)
    simp only [indentedItems, List.append_assoc, List.cons_append] at h
    rw [readItems] at h
    obtain ⟨p, hp, h⟩ := exists_of_bind h
    obtain ⟨w, hw, rfl⟩ := readValue_indentedAt level v
      (hv v (List.mem_cons_self ..)) (ended_comma _) hp
    have hopens := (opens_indentedItems level
      (hv' v' (List.mem_cons_self ..)) vs).append
        (newLine outer ++ ']' :: rest)
    simp only [skipSpace_cons (c := ',') (by decide), skipSpace_newLine,
      hopens.skipSpace] at h
    obtain ⟨ws, hws, hr⟩ := readItems_indentedItems level v' vs hv' outer h
    exact ⟨w :: ws, .cons hw hws, by rw [hr]; simp⟩
termination_by v vs => sizeOf v + sizeOf vs

/-- So are the fields of an object, behind fields of other names. -/
theorem readFields_indentedFields {P : Double → Prop} (level : Nat) :
    (f : String × Json) → (fs : List (String × Json)) →
      (∀ g ∈ f :: fs, Regular P g.2) →
      ∀ (outer : Nat) (done : List (String × Json)) {fuel levels : Nat}
        {rest : List Char} {r : Json × List Char},
      ((done ++ f :: fs).map (·.1)).Nodup →
      readFields fuel levels done (indentedFields level (f :: fs) ++
        (newLine outer ++ '}' :: rest)) = .ok r →
      ∃ gs, FieldsReadAs (f :: fs) gs ∧ r = (.object (done ++ gs), rest)
  | (k, v), [], hf, outer, done, fuel, levels, rest, r, hnames, h => by
    have hv := hf (k, v) (List.mem_cons_self ..)
    have hopens := (opens_indentedAt level hv).append
      (newLine outer ++ '}' :: rest)
    simp only [indentedFields, List.append_assoc, List.cons_append] at h
    obtain ⟨fuel', w, behind, hw, h⟩ := readFields_field hopens h
    obtain ⟨w', hread, heq⟩ := readValue_indentedAt level v hv
      (ended_newLine outer _) hw
    obtain ⟨rfl, rfl⟩ := Prod.mk.inj heq
    have hend : skipSpace (newLine outer ++ '}' :: rest) = '}' :: rest :=
      skipSpace_newLine outer _
    have hnew : k ∉ done.map (·.1) := by
      rw [List.map_append] at hnames
      exact fun hk => (List.nodup_append.1 hnames).2.2 k hk k
        (List.mem_cons_self ..) rfl
    simp only [hend, setField_of_new hnew, Except.ok.injEq] at h
    exact ⟨[(k, w)], .cons hread .nil, h.symm⟩
  | (k, v), f :: fs, hf, outer, done, fuel, levels, rest, r, hnames, h => by
    have hv := hf (k, v) (List.mem_cons_self ..)
    obtain ⟨cs, hcs⟩ : ∃ cs, indentedFields level (f :: fs) =
        '"' :: cs := by cases fs <;> exact ⟨_, rfl⟩
    have hopens := (opens_indentedAt level hv).append (',' :: (newLine level ++
      (indentedFields level (f :: fs) ++ (newLine outer ++ '}' :: rest))))
    simp only [indentedFields, List.append_assoc, List.cons_append] at h
    obtain ⟨fuel', w, behind, hw, h⟩ := readFields_field hopens h
    obtain ⟨w', hread, heq⟩ := readValue_indentedAt level v hv
      (ended_comma _) hw
    obtain ⟨rfl, rfl⟩ := Prod.mk.inj heq
    have hnew : k ∉ done.map (·.1) := by
      rw [List.map_append] at hnames
      exact fun hk => (List.nodup_append.1 hnames).2.2 k hk k
        (List.mem_cons_self ..) rfl
    have hquote : skipSpace (indentedFields level (f :: fs) ++
        (newLine outer ++ '}' :: rest)) =
        indentedFields level (f :: fs) ++
          (newLine outer ++ '}' :: rest) := by
      rw [hcs]
      exact skipSpace_cons (by decide) _
    simp only [skipSpace_cons (c := ',') (by decide), skipSpace_newLine,
      hquote, setField_of_new hnew] at h
    obtain ⟨gs, hgs, hr⟩ := readFields_indentedFields level f fs
      (fun g hg => hf g (List.mem_cons_of_mem _ hg)) outer
      (done ++ [(k, w)])
      (by simpa only [List.append_assoc, List.map_append, List.map_cons,
        List.map_nil, List.singleton_append] using hnames) h
    exact ⟨(k, w) :: gs, .cons hread hgs, by rw [hr]; simp⟩
termination_by f fs => sizeOf f + sizeOf fs

end

/-- A written document is read back, if it is read. -/
theorem read_indented {P : Double → Prop} {v w : Json} (hv : Regular P v)
    (h : read (indented v) = .ok w) : ReadsAs v w := by
  rw [read] at h
  obtain ⟨⟨w', rest⟩, hw, h⟩ := exists_of_bind h
  have hopens := opens_indentedAt 0 hv
  rw [indented, hopens.skipSpace, ← List.append_nil (indentedAt 0 v)] at hw
  obtain ⟨w'', hread, heq⟩ := readValue_indentedAt 0 v hv ended_nil hw
  obtain ⟨rfl, rfl⟩ := Prod.mk.inj heq
  obtain rfl := Except.ok.inj h
  exact hread

/-- What is read of the bytes of a written document. -/
theorem read_encoded {P : Double → Prop} {v w : Json} (hv : Regular P v)
    {cs : List Char}
    (hcs : Text.Utf8.decode (Text.Utf8.encode (String.ofList (indented v))) =
      .ok cs) (h : read cs = .ok w) : ReadsAs v w := by
  rw [indented, Text.Utf8.decode_encode (isAscii_indentedAt 0 v)] at hcs
  obtain rfl := Except.ok.inj hcs
  exact read_indented hv h

end CallTrace.Json
