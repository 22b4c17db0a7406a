/-
What every document that is read is like.

No object in it has two fields of one name: a name that comes again takes
a new value in its old place, in an object however deep inside the
document. So what is read of a field does not depend on which of several
fields of that name is meant. And its numbers are such as can be written
and read again: an integer with too many digits is not taken, and a
double-precision number is rounded to one of the format.
-/
import CallTrace.Proofs.Json.RoundTrip

namespace CallTrace.Json

open Number (Double digitsOf natOfDigits)

/-- The integer has no more digits than are read. -/
def Short (n : Int) : Prop := (digitsOf n.natAbs).length ≤ maxIntDigits

instance (n : Int) : Decidable (Short n) :=
  inferInstanceAs (Decidable (_ ≤ _))

/-- No object in the document has two fields of one name, no integer in it
has too many digits, and its double-precision numbers are of the format. -/
inductive Proper : Json → Prop where
  | null : Proper .null
  | bool (b : Bool) : Proper (.bool b)
  | int {n : Int} (h : Short n) : Proper (.int n)
  | float {x : Double} (h : x.Canonical) : Proper (.float x)
  | text (s : String) : Proper (.text s)
  | brokenText (s : String) : Proper (.brokenText s)
  | list {vs : List Json} (h : ∀ v ∈ vs, Proper v) : Proper (.list vs)
  | object {fs : List (String × Json)} (hnames : (fs.map (·.1)).Nodup)
      (h : ∀ f ∈ fs, Proper f.2) : Proper (.object fs)

/-- Setting a field leaves no name twice. -/
theorem nodup_setField {fields : List (String × Json)} (k : String)
    (v : Json) (h : (fields.map (·.1)).Nodup) :
    ((setField fields k v).map (·.1)).Nodup := by
  by_cases hk : k ∈ fields.map (·.1)
  · have hany : fields.any (·.1 == k) = true := by
      obtain ⟨f, hf, rfl⟩ := List.mem_map.1 hk
      exact List.any_eq_true.2 ⟨f, hf, by simp⟩
    have hnames : (setField fields k v).map (·.1) = fields.map (·.1) := by
      rw [setField, if_pos hany, List.map_map]
      refine List.map_congr_left fun f _ => ?_
      by_cases hf : f.1 = k <;> simp [hf]
    rw [hnames]
    exact h
  · rw [setField_of_new hk, List.map_append, List.map_singleton]
    refine List.nodup_append.2 ⟨h, by simp, fun x hx y hy => ?_⟩
    rw [List.mem_singleton.1 hy]
    rintro rfl
    exact hk hx

/-- After a field is set there is that field, and what was there before. -/
theorem mem_setField {fields : List (String × Json)} {k : String}
    {v : Json} {f : String × Json} (h : f ∈ setField fields k v) :
    f = (k, v) ∨ f ∈ fields := by
  rw [setField] at h
  split at h
  · obtain ⟨g, hg, rfl⟩ := List.mem_map.1 h
    split
    · exact .inl rfl
    · exact .inr hg
  · rcases List.mem_append.1 h with h | h
    · exact .inr h
    · exact .inl (List.mem_singleton.1 h)

/-- A field that is replaced is found as it was put there. -/
theorem find?_map_replaced {fs : List (String × Json)} {k : String}
    (h : fs.any (·.1 == k) = true) (v : Json) :
    (fs.map fun f => if f.1 == k then (k, v) else f).find? (·.1 == k) =
      some (k, v) := by
  induction fs with
  | nil => cases h
  | cons f fs ih =>
    by_cases hf : (f.1 == k) = true
    · rw [List.map_cons, if_pos hf, List.find?_cons_of_pos (by simp)]
    · rw [List.any_cons, Bool.or_eq_true] at h
      rw [List.map_cons, if_neg hf, List.find?_cons_of_neg (by exact hf)]
      exact ih (h.resolve_left hf)

/-- A field that was set is there. -/
theorem field?_setField (fs : List (String × Json)) (k : String) (v : Json) :
    (Json.object (setField fs k v)).field? k = some v := by
  rw [setField, field?]
  split
  · rename_i hany
    rw [find?_map_replaced hany]
    rfl
  · rename_i hnone
    have hnone : fs.find? (·.1 == k) = none :=
      List.find?_eq_none.2 fun f hf => by
        simpa using fun heq => hnone (List.any_eq_true.2 ⟨f, hf, heq⟩)
    rw [List.find?_append, hnone]
    simp

-- ============================================================ reading

theorem short_iff {n : Int} : Short n ↔ n.natAbs < 10 ^ maxIntDigits :=
  Nat.length_toDigits_le_iff (by decide) (by decide)

/-- Up to that many digits give a number that is not too great. -/
theorem short_of_digits {ds : List Char}
    (hds : ∀ c ∈ ds, c.isDigit = true) (hlen : ds.length ≤ maxIntDigits)
    {n : Int} (hn : n.natAbs = natOfDigits ds) : Short n := by
  rw [short_iff, hn]
  exact Nat.lt_of_lt_of_le (Number.natOfDigits_lt hds)
    (Nat.pow_le_pow_right (by decide) hlen)

/-- What is read as a whole number consists of digits. -/
theorem isDigit_of_readWhole {cs ds rest : List Char}
    (h : readWhole cs = some (ds, rest)) : ∀ c ∈ ds, c.isDigit = true := by
  rw [readWhole.eq_def] at h
  split at h
  · cases h
    simp
  · split at h
    · exact absurd h (by simp)
    · have hds : cs.takeWhile (·.isDigit) = ds := by
        rw [List.span_eq_takeWhile_dropWhile] at h
        exact (Prod.mk.inj (Option.some.inj h)).1
      rw [← hds]
      exact fun c hc => List.all_eq_true.1 List.all_takeWhile c hc

/-- A number that is read is short, or of the format. -/
theorem proper_readNumber {negative : Bool} {cs : List Char} {v : Json}
    {rest : List Char} (h : readNumber negative cs = .ok (v, rest)) :
    Proper v := by
  rw [readNumber] at h
  split at h
  · exact absurd h (by simp)
  rename_i whole _ hwhole
  dsimp only at h
  split at h
  · cases h
    exact .float (Double.canonical_ofDecimal ..)
  split at h
  · split at h
    · exact absurd h (by simp)
    · rename_i hlen
      cases h
      refine .int (short_of_digits (isDigit_of_readWhole hwhole)
        (Nat.not_lt.1 hlen) ?_)
      split <;> omega
  · cases h
    exact .float (Double.canonical_ofDecimal ..)

/-- A leaf that is read is proper. -/
theorem proper_readLeaf {cs : List Char} {v : Json} {rest : List Char}
    (h : readLeaf cs = .ok (v, rest)) : Proper v := by
  rw [readLeaf.eq_def] at h
  split at h
  · cases h; exact .null
  · cases h; exact .bool true
  · cases h; exact .bool false
  · cases h; exact .float trivial
  · cases h; exact .float trivial
  · cases h; exact .float trivial
  · split at h <;> exact proper_readNumber h

theorem proper_ofString (r : StringRead) : Proper (ofString r) := by
  rw [ofString]
  split
  · exact .brokenText _
  · exact .text _

/-- What is read with some fuel, of a value, of the items of a list and of
the fields of an object. -/
theorem proper_readValue (fuel : Nat) :
    (∀ levels cs v rest, readValue fuel levels cs = .ok (v, rest) →
      Proper v) ∧
    (∀ levels done cs v rest, (∀ w ∈ done, Proper w) →
      readItems fuel levels done cs = .ok (v, rest) → Proper v) ∧
    (∀ levels done cs v rest, (done.map (·.1)).Nodup →
      (∀ f ∈ done, Proper f.2) →
      readFields fuel levels done cs = .ok (v, rest) → Proper v) := by
  induction fuel with
  | zero =>
    exact ⟨fun _ _ _ _ h => absurd h (by simp [readValue]),
      fun _ _ _ _ _ _ h => absurd h (by simp [readItems]),
      fun _ _ _ _ _ _ _ h => absurd h (by simp [readFields])⟩
  | succ fuel ih =>
    obtain ⟨ihValue, ihItems, ihFields⟩ := ih
    refine ⟨fun levels cs v rest h => ?_,
      fun levels done cs v rest hdone h => ?_,
      fun levels done cs v rest hnames hdone h => ?_⟩
    · rw [readValue.eq_def] at h
      dsimp only at h
      split at h
      · obtain ⟨r, -, h⟩ := exists_of_bind h
        cases h
        exact proper_ofString r
      · split at h
        · cases h
        split at h
        · cases h
          exact .list fun v hv => absurd hv List.not_mem_nil
        · exact ihItems _ _ _ _ _ (fun w hw => absurd hw List.not_mem_nil) h
      · split at h
        · cases h
        split at h
        · cases h
          exact .object List.nodup_nil fun f hf => absurd hf List.not_mem_nil
        · exact ihFields _ [] _ _ _ List.nodup_nil
            (fun f hf => absurd hf List.not_mem_nil) h
      · exact proper_readLeaf h
    · rw [readItems] at h
      obtain ⟨⟨w, after⟩, hw, h⟩ := exists_of_bind h
      have hall : ∀ x ∈ w :: done, Proper x := by
        intro x hx
        rcases List.mem_cons.1 hx with rfl | hx
        · exact ihValue _ _ _ _ hw
        · exact hdone x hx
      dsimp only at h
      split at h
      · cases h
        exact .list fun x hx => hall x (List.mem_reverse.1 hx)
      · exact ihItems _ _ _ _ _ hall h
      · exact absurd h (by simp)
    · rw [readFields.eq_def] at h
      dsimp only at h
      split at h
      · obtain ⟨key, -, h⟩ := exists_of_bind h
        split at h
        · obtain ⟨⟨w, after⟩, hw, h⟩ := exists_of_bind h
          have hset := nodup_setField (String.ofList key.chars) w hnames
          have hall : ∀ f ∈ setField done (String.ofList key.chars) w,
              Proper f.2 := by
            intro f hf
            rcases mem_setField hf with rfl | hf
            · exact ihValue _ _ _ _ hw
            · exact hdone f hf
          dsimp only at h
          split at h
          · cases h
            exact .object hset hall
          · exact ihFields _ _ _ _ _ hset hall h
          · exact absurd h (by simp)
        · exact absurd h (by simp)
      · exact absurd h (by simp)

/-- A document that is read is proper. -/
theorem proper_read {cs : List Char} {v : Json} (h : read cs = .ok v) :
    Proper v := by
  rw [read] at h
  obtain ⟨⟨w, rest⟩, hw, h⟩ := exists_of_bind h
  dsimp only at h
  split at h
  · cases h
    exact (proper_readValue _).1 _ _ _ _ hw
  · exact absurd h (by simp)

/-- A field of an object without repeated names is found under its
name. -/
theorem field?_eq_some_iff {fs : List (String × Json)}
    (hnames : (fs.map (·.1)).Nodup) {k : String} {v : Json} :
    field? k (.object fs) = some v ↔ (k, v) ∈ fs := by
  induction fs with
  | nil => simp [field?]
  | cons f fs ih =>
    obtain ⟨hf, hrest⟩ := List.nodup_cons.1 hnames
    have ih := ih hrest
    simp only [field?] at ih ⊢
    by_cases hk : f.1 = k
    · have hkey : k ∉ fs.map (·.1) := hk ▸ hf
      rw [List.find?_cons_of_pos (by simpa using hk)]
      constructor
      · intro h
        have hv : f.2 = v := by simpa using h
        rw [← hk, ← hv]
        exact List.mem_cons_self ..
      · intro h
        rcases List.mem_cons.1 h with h | h
        · rw [← h]; rfl
        · exact absurd (List.mem_map.2 ⟨_, h, rfl⟩) hkey
    · rw [List.find?_cons_of_neg (by simpa using hk), ih]
      refine ⟨fun h => List.mem_cons_of_mem _ h, fun h => ?_⟩
      rcases List.mem_cons.1 h with h | h
      · exact absurd (congrArg Prod.fst h).symm hk
      · exact h

end CallTrace.Json
