/-
Documents that are read as they were written.

A document is legible if no text in it is broken, no object in it has two
fields of one name, no integer has too many digits, its double-precision
numbers are of the format, and its lists and objects are nested no deeper
than is read. A legible document is read back from its written form.

That the reader's fuel is enough is shown along the way: each part is read
with more fuel than it has characters, and a list or an object gives up
one unit for each of its parts, which has a character of its own.
-/
import CallTrace.Proofs.Json.Proper

namespace CallTrace.Json

open Number (Double)

/-- A document that is read as it is written, where `levels` lists and
objects may stand inside one another. -/
inductive Legible : Nat → Json → Prop where
  | null {levels : Nat} : Legible levels .null
  | bool {levels : Nat} (b : Bool) : Legible levels (.bool b)
  | int {levels : Nat} {n : Int} (h : Short n) : Legible levels (.int n)
  | float {levels : Nat} {x : Double} (h : x.Canonical) :
    Legible levels (.float x)
  | text {levels : Nat} (s : String) : Legible levels (.text s)
  | list {levels : Nat} {vs : List Json} (h : ∀ v ∈ vs, Legible levels v) :
    Legible (levels + 1) (.list vs)
  | object {levels : Nat} {fs : List (String × Json)}
      (hnames : (fs.map (·.1)).Nodup) (h : ∀ f ∈ fs, Legible levels f.2) :
    Legible (levels + 1) (.object fs)

/-- What can be read back exactly has canonical numbers. -/
theorem Legible.regular {levels : Nat} {v : Json} (h : Legible levels v) :
    Regular Double.Canonical v := by
  induction h with
  | null => exact .null
  | bool b => exact .bool b
  | int => exact .int _
  | float h => exact .float h
  | text s => exact .text s
  | list _ ih => exact .list ih
  | object hnames _ ih => exact .object hnames ih

-- ============================================================= strings

theorem escapeChar_ne_nil (c : Char) : escapeChar c ≠ [] := by
  have hunits : ∀ n, escapeUnits n ≠ [] := by
    intro n
    rw [escapeUnits]
    split <;> exact List.cons_ne_nil _ _
  rw [escapeChar]
  repeat' split
  all_goals first | exact List.cons_ne_nil _ _ | exact hunits _

theorem length_le_flatMap (cs : List Char) :
    cs.length ≤ (cs.flatMap escapeChar).length := by
  induction cs with
  | nil => exact Nat.le_refl _
  | cons c cs ih =>
    have hc := List.length_pos_iff.2 (escapeChar_ne_nil c)
    rw [List.flatMap_cons, List.length_append, List.length_cons]
    omega

/-- Characters are read up to the closing quote. -/
theorem readString_ok (cs rest : List Char) :
    ∀ (done : List Char) {fuel : Nat}, cs.length < fuel →
      readString fuel done false (cs.flatMap escapeChar ++ '"' :: rest) =
        .ok ⟨done.reverse ++ cs, false, rest⟩ := by
  induction cs with
  | nil =>
    intro done fuel hfuel
    obtain ⟨fuel, rfl⟩ := Nat.exists_eq_add_one.2 hfuel
    simp [readString]
  | cons c cs ih =>
    intro done fuel hfuel
    obtain ⟨fuel, rfl⟩ := Nat.exists_eq_add_one.2
      (Nat.lt_of_le_of_lt (Nat.zero_le _) hfuel)
    rw [List.flatMap_cons, List.append_assoc, readString_escapeChar,
      ih (c :: done) (by simpa using hfuel)]
    simp

theorem readString_quoted (s : String) (rest : List Char) :
    readString ((s.toList.flatMap escapeChar ++ '"' :: rest).length + 1) []
        false (s.toList.flatMap escapeChar ++ '"' :: rest) =
      .ok ⟨s.toList, false, rest⟩ := by
  refine readString_ok s.toList rest [] ?_
  have h := length_le_flatMap s.toList
  rw [List.length_append]
  omega

-- ============================================================== values

theorem not_mem_of_nodup {done fs : List (String × Json)}
    {f : String × Json} (h : ((done ++ f :: fs).map (·.1)).Nodup) :
    f.1 ∉ done.map (·.1) := by
  rw [List.map_append] at h
  exact fun hmem => (List.nodup_append.1 h).2.2 _ hmem f.1
    (List.mem_cons_self ..) rfl

theorem readValue_text (s : String) (rest : List Char)
    (fuel levels : Nat) :
    readValue (fuel + 1) levels (stringText s ++ rest) =
      .ok (.text s, rest) := by
  simp only [stringText, List.cons_append, List.append_assoc]
  rw [readValue, List.nil_append, readString_quoted]
  simp [bind, Except.bind, ofString]

/-- A leaf is read back exactly, at any depth. -/
theorem readValue_leaf {levels : Nat} {v : Json} (hv : Legible levels v)
    (hopens : OpensLeaf (leafText v)) (fuel : Nat) {rest : List Char}
    (hrest : Ended rest) :
    readValue (fuel + 1) levels (leafText v ++ rest) = .ok (v, rest) := by
  rw [hopens.readValue]
  cases hv with
  | null => rfl
  | bool b => cases b <;> rfl
  | int h =>
    rw [leafText, readLeaf_intText _ hrest, if_neg (Nat.not_lt.2 h)]
  | float h =>
    obtain ⟨y, hy, hsame⟩ := readLeaf_numberText _ hrest
    rw [leafText, hy, hsame h]
  | text | list | object =>
    obtain ⟨c, cs, hc, -, -, hquote, -, -⟩ := hopens
    exact absurd (List.cons.inj hc).1.symm hquote

section

variable {fuel levels : Nat} {done : List (String × Json)} {k : String}
  {cs rest after : List Char} {w : Json}

/-- What is read of the last field of an object. -/
theorem readFields_last (hcs : Opens cs)
    (hw : readValue fuel levels cs = .ok (w, rest))
    (hrest : skipSpace rest = '}' :: after) :
    readFields (fuel + 1) levels done (stringText k ++ ':' :: ' ' :: cs) =
      .ok (.object (setField done k w), after) := by
  simp only [stringText, List.cons_append, List.append_assoc]
  rw [readFields, List.nil_append, readString_quoted]
  have hcolon : skipSpace (':' :: ' ' :: cs) = ':' :: ' ' :: cs := rfl
  have hblank : skipSpace (' ' :: cs) = cs := hcs.skipSpace
  simp only [bind, Except.bind, hcolon, hblank, hw, hrest,
    String.ofList_toList]

/-- What is read of a field that another one follows. -/
theorem readFields_more (hcs : Opens cs)
    (hw : readValue fuel levels cs = .ok (w, rest))
    (hrest : skipSpace rest = ',' :: after) :
    readFields (fuel + 1) levels done (stringText k ++ ':' :: ' ' :: cs) =
      readFields fuel levels (setField done k w) (skipSpace after) := by
  simp only [stringText, List.cons_append, List.append_assoc]
  rw [readFields, List.nil_append, readString_quoted]
  have hcolon : skipSpace (':' :: ' ' :: cs) = ':' :: ' ' :: cs := rfl
  have hblank : skipSpace (' ' :: cs) = cs := hcs.skipSpace
  simp only [bind, Except.bind, hcolon, hblank, hw, hrest,
    String.ofList_toList]

end

mutual

/-- A legible document is read back. -/
theorem readValue_legible (level : Nat) :
    (v : Json) → ∀ {levels : Nat}, Legible levels v →
      ∀ {fuel : Nat} {rest : List Char}, Ended rest →
      (indentedAt level v).length < fuel →
      readValue fuel levels (indentedAt level v ++ rest) = .ok (v, rest)
  | .list [], _, hv, fuel, rest, _, hfuel => by
    obtain ⟨fuel, rfl⟩ := Nat.exists_eq_add_one.2 (Nat.zero_lt_of_lt hfuel)
    cases hv
    rfl
  | .object [], _, hv, fuel, rest, _, hfuel => by
    obtain ⟨fuel, rfl⟩ := Nat.exists_eq_add_one.2 (Nat.zero_lt_of_lt hfuel)
    cases hv
    rfl
  | .list (v :: vs), _, .list hitems, fuel, rest, _, hfuel => by
    obtain ⟨fuel, rfl⟩ := Nat.exists_eq_add_one.2 (Nat.zero_lt_of_lt hfuel)
    simp only [indentedAt, List.cons_append, List.append_assoc,
      List.length_cons, List.length_append, newLine] at hfuel
    simp only [indentedAt, List.cons_append, List.append_assoc,
      List.nil_append]
    rw [readValue_list ((opens_indentedItems (level + 1)
      (hitems v (List.mem_cons_self ..)).regular vs).append _)]
    exact readItems_legible (level + 1) v vs hitems level [] (by omega)
  | .object ((k, v) :: fs), _, .object hnames hfields, fuel, rest, _,
    hfuel => by
    obtain ⟨fuel, rfl⟩ := Nat.exists_eq_add_one.2 (Nat.zero_lt_of_lt hfuel)
    obtain ⟨cs, hcs⟩ : ∃ cs, indentedFields (level + 1) ((k, v) :: fs) =
        '"' :: cs := by cases fs <;> exact ⟨_, rfl⟩
    simp only [indentedAt, List.cons_append, List.append_assoc,
      List.length_cons, List.length_append, newLine] at hfuel
    simp only [indentedAt, List.cons_append, List.append_assoc,
      List.nil_append]
    rw [hcs, List.cons_append, readValue_object, ← List.cons_append, ← hcs]
    exact readFields_legible (level + 1) (k, v) fs hfields level [] hnames
      (by omega)
  | .null, _, hv, fuel, _, hrest, hfuel => by
    obtain ⟨fuel, rfl⟩ := Nat.exists_eq_add_one.2 (Nat.zero_lt_of_lt hfuel)
    exact readValue_leaf hv ⟨'n', _, rfl, by decide⟩ fuel hrest
  | .bool true, _, hv, fuel, _, hrest, hfuel => by
    obtain ⟨fuel, rfl⟩ := Nat.exists_eq_add_one.2 (Nat.zero_lt_of_lt hfuel)
    exact readValue_leaf hv ⟨'t', _, rfl, by decide⟩ fuel hrest
  | .bool false, _, hv, fuel, _, hrest, hfuel => by
    obtain ⟨fuel, rfl⟩ := Nat.exists_eq_add_one.2 (Nat.zero_lt_of_lt hfuel)
    exact readValue_leaf hv ⟨'f', _, rfl, by decide⟩ fuel hrest
  | .int n, _, hv, fuel, _, hrest, hfuel => by
    obtain ⟨fuel, rfl⟩ := Nat.exists_eq_add_one.2 (Nat.zero_lt_of_lt hfuel)
    exact readValue_leaf hv (opensLeaf_intText n) fuel hrest
  | .float x, _, hv, fuel, _, hrest, hfuel => by
    obtain ⟨fuel, rfl⟩ := Nat.exists_eq_add_one.2 (Nat.zero_lt_of_lt hfuel)
    exact readValue_leaf hv (opensLeaf_numberText x) fuel hrest
  | .text s, levels, _, fuel, rest, _, hfuel => by
    obtain ⟨fuel, rfl⟩ := Nat.exists_eq_add_one.2 (Nat.zero_lt_of_lt hfuel)
    exact readValue_text s rest fuel levels
  | .brokenText _, _, hv, _, _, _, _ => by cases hv
termination_by v => sizeOf v

/-- The items of a list are read back behind others. -/
theorem readItems_legible (level : Nat) :
    (v : Json) → (vs : List Json) → ∀ {levels : Nat},
      (∀ w ∈ v :: vs, Legible levels w) →
      ∀ (outer : Nat) (done : List Json) {fuel : Nat} {rest : List Char},
      (indentedItems level (v :: vs)).length + 1 < fuel →
      readItems fuel levels done (indentedItems level (v :: vs) ++
        (newLine outer ++ ']' :: rest)) =
        .ok (.list (done.reverse ++ v :: vs), rest)
  | v, [], levels, hv, outer, done, fuel, rest, hfuel => by
    obtain ⟨fuel, rfl⟩ := Nat.exists_eq_add_one.2 (Nat.zero_lt_of_lt hfuel)
    have hend : skipSpace (newLine outer ++ ']' :: rest) = ']' :: rest :=
      skipSpace_newLine outer _
    have hread : readValue fuel levels (indentedAt level v ++
        (newLine outer ++ ']' :: rest)) = .ok (v, newLine outer ++ ']' :: rest) :=
      readValue_legible level v (hv v (List.mem_cons_self ..))
        (ended_newLine outer _) (by simpa [indentedItems] using hfuel)
    simp only [indentedItems, readItems, hread, bind, Except.bind, hend]
    rw [List.reverse_cons]
  | v, v' :: vs, levels, hv, outer, done, fuel, rest, hfuel => by
    obtain ⟨fuel, rfl⟩ := Nat.exists_eq_add_one.2 (Nat.zero_lt_of_lt hfuel)
    have hv' := fun w hw => hv w (List.mem_cons_of_mem _ hw)
    simp only [indentedItems, List.length_append, List.length_cons,
      newLine] at hfuel
    have hread : readValue fuel levels (indentedAt level v ++ ',' ::
        (newLine level ++ (indentedItems level (v' :: vs) ++
          (newLine outer ++ ']' :: rest)))) = .ok (v, ',' ::
        (newLine level ++ (indentedItems level (v' :: vs) ++
          (newLine outer ++ ']' :: rest)))) :=
      readValue_legible level v (hv v (List.mem_cons_self ..))
        (ended_comma _) (by omega)
    have hopens := (opens_indentedItems level
      (hv' v' (List.mem_cons_self ..)).regular vs).append
        (newLine outer ++ ']' :: rest)
    simp only [indentedItems, List.append_assoc, List.cons_append, readItems,
      hread, bind, Except.bind, skipSpace_cons (c := ',') (by decide),
      skipSpace_newLine, hopens.skipSpace]
    rw [readItems_legible level v' vs hv' outer (v :: done) (by omega)]
    simp
termination_by v vs => sizeOf v + sizeOf vs

/-- So are the fields of an object, behind fields of other names. -/
theorem readFields_legible (level : Nat) :
    (f : String × Json) → (fs : List (String × Json)) →
      ∀ {levels : Nat}, (∀ g ∈ f :: fs, Legible levels g.2) →
      ∀ (outer : Nat) (done : List (String × Json)) {fuel : Nat}
        {rest : List Char}, ((done ++ f :: fs).map (·.1)).Nodup →
      (indentedFields level (f :: fs)).length + 1 < fuel →
      readFields fuel levels done (indentedFields level (f :: fs) ++
        (newLine outer ++ '}' :: rest)) =
        .ok (.object (done ++ f :: fs), rest)
  | (k, v), [], levels, hf, outer, done, fuel, rest, hnames, hfuel => by
    obtain ⟨fuel, rfl⟩ := Nat.exists_eq_add_one.2 (Nat.zero_lt_of_lt hfuel)
    have hv := hf (k, v) (List.mem_cons_self ..)
    simp only [indentedFields, List.length_append, List.length_cons] at hfuel
    have hread : readValue fuel levels (indentedAt level v ++
        (newLine outer ++ '}' :: rest)) = .ok (v, newLine outer ++ '}' :: rest) :=
      readValue_legible level v hv (ended_newLine outer _) (by omega)
    simp only [indentedFields, List.append_assoc, List.cons_append]
    rw [readFields_last ((opens_indentedAt level hv.regular).append _) hread
      (skipSpace_newLine outer _), setField_of_new (not_mem_of_nodup hnames)]
  | (k, v), f :: fs, levels, hf, outer, done, fuel, rest, hnames,
    hfuel => by
    obtain ⟨fuel, rfl⟩ := Nat.exists_eq_add_one.2 (Nat.zero_lt_of_lt hfuel)
    have hv := hf (k, v) (List.mem_cons_self ..)
    obtain ⟨cs, hcs⟩ : ∃ cs, indentedFields level (f :: fs) =
        '"' :: cs := by cases fs <;> exact ⟨_, rfl⟩
    simp only [indentedFields, List.length_append, List.length_cons,
      newLine] at hfuel
    have hread : readValue fuel levels (indentedAt level v ++ ',' ::
        (newLine level ++ (indentedFields level (f :: fs) ++
          (newLine outer ++ '}' :: rest)))) = .ok (v, ',' ::
        (newLine level ++ (indentedFields level (f :: fs) ++
          (newLine outer ++ '}' :: rest)))) :=
      readValue_legible level v hv (ended_comma _) (by omega)
    have hquote : skipSpace (indentedFields level (f :: fs) ++
        (newLine outer ++ '}' :: rest)) =
        indentedFields level (f :: fs) ++
          (newLine outer ++ '}' :: rest) := by
      rw [hcs]
      exact skipSpace_cons (by decide) _
    simp only [indentedFields, List.append_assoc, List.cons_append]
    rw [readFields_more ((opens_indentedAt level hv.regular).append _) hread
      (skipSpace_cons (by decide) _), skipSpace_newLine, hquote,
      setField_of_new (not_mem_of_nodup hnames),
      readFields_legible level f fs
        (fun g hg => hf g (List.mem_cons_of_mem _ hg)) outer
        (done ++ [(k, v)])
        (by simpa only [List.append_assoc, List.map_append, List.map_cons,
          List.map_nil, List.singleton_append] using hnames) (by omega)]
    simp
termination_by f fs => sizeOf f + sizeOf fs

end

/-- The bytes of a document are its written form. -/
theorem decode_indented (v : Json) :
    Text.Utf8.decode (Text.Utf8.encode (String.ofList (indented v))) =
      .ok (indented v) := Text.Utf8.decode_encode (isAscii_indentedAt 0 v)

/-- A legible document is read back from its written form. -/
theorem read_legible {v : Json} (hv : Legible maxNesting v) :
    read (indented v) = .ok v := by
  have hopens := opens_indentedAt 0 hv.regular
  have hread : readValue (2 * (indentedAt 0 v).length + 1) maxNesting
      (indentedAt 0 v ++ []) = .ok (v, []) :=
    readValue_legible 0 v hv ended_nil (by omega)
  rw [List.append_nil] at hread
  rw [read, indented, hopens.skipSpace, hread]
  rfl

end CallTrace.Json
