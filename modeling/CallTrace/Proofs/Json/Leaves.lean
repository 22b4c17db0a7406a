/-
Reading back what stands without parts in a written document.

A text, an integer, a truth value and null are read back as they were
written. A double-precision number is read as the number that its shortest
digits are read as, and so, if it is one of the format, as itself. In each
case just what was written is read, and the text goes on behind it: with a
comma, with the end of a line, or not at all.
-/
import CallTrace.Json.Reader
import CallTrace.Json.Writer
import CallTrace.Proofs.Number.ReadBack
import CallTrace.Proofs.Text.Blank

namespace CallTrace.Json

open Number (Double IsWhole intText digitsOf natOfDigits)
open Text (span_append)

-- ============================================================= borders

/-- What comes behind a value: a comma, the end of a line, or nothing. -/
def Ended (rest : List Char) : Prop :=
  ∀ c ∈ rest.head?, c = ',' ∨ c = '\n'

theorem ended_nil : Ended [] := fun c hc => by simp at hc

theorem ended_comma (rest : List Char) : Ended (',' :: rest) :=
  fun c hc => .inl (by simpa using hc.symm)

theorem ended_newLine (level : Nat) (rest : List Char) :
    Ended (newLine level ++ rest) :=
  fun c hc => .inr (by simpa [newLine] using hc.symm)

theorem Ended.not {rest : List Char} (h : Ended rest) {p : Char → Bool}
    (hcomma : p ',' = false) (hline : p '\n' = false) :
    ∀ c ∈ rest.head?, p c = false := by
  intro c hc
  rcases h c hc with rfl | rfl
  · exact hcomma
  · exact hline

-- ============================================================= numbers

theorem readWhole_append {ds : List Char} (hds : IsWhole ds)
    (rest : List Char) (hrest : ∀ c ∈ rest.head?, c.isDigit = false) :
    readWhole (ds ++ rest) = some (ds, rest) := by
  rcases hds with rfl | ⟨d, more, rfl, hd, hdigits⟩
  · rfl
  · rw [readWhole, span_append hdigits hrest]
    rintro r h
    exact hd (List.cons.inj h).1

/-- A fraction is read up to its last digit. -/
theorem readFraction_append {ds : List Char} (hne : ds ≠ [])
    (hds : ∀ c ∈ ds, c.isDigit = true) (rest : List Char)
    (hrest : ∀ c ∈ rest.head?, c.isDigit = false) :
    readFraction ('.' :: (ds ++ rest)) = (ds, rest) := by
  simp only [readFraction, span_append hds hrest]
  split
  · rename_i h
    exact absurd (Prod.mk.inj h).1 hne
  · rfl

theorem readFraction_none {rest : List Char}
    (hrest : ∀ c ∈ rest.head?, (c == '.') = false) :
    readFraction rest = ([], rest) := by
  rw [readFraction]
  rintro r rfl
  exact absurd (hrest '.' rfl) (by decide)

theorem readExponent_none {rest : List Char}
    (hrest : ∀ c ∈ rest.head?, (c == 'e' || c == 'E') = false) :
    readExponent rest = none := by
  cases rest with
  | nil => rfl
  | cons c rest =>
    have hc := hrest c rfl
    simp only [readExponent, hc, Bool.false_eq_true, if_false]

/-- A written exponent is read back. -/
theorem readExponent_append (e : Int) {rest : List Char}
    (hrest : ∀ c ∈ rest.head?, c.isDigit = false) :
    readExponent (Double.exponentText e ++ rest) = some (e, rest) := by
  obtain ⟨ds, hne, hds, hnumber, htext⟩ : ∃ ds, ds ≠ [] ∧
      (∀ c ∈ ds, c.isDigit = true) ∧ natOfDigits ds = e.natAbs ∧
      Double.exponentText e = 'e' :: (if e < 0 then '-' else '+') :: ds := by
    refine ⟨_, ?_, ?_, ?_, rfl⟩
    · split
      · simp
      · exact Number.digitsOf_ne_nil _
    · intro c hc
      split at hc
      · rcases List.mem_cons.1 hc with rfl | hc
        · decide
        · exact Number.isDigit_of_mem_digitsOf hc
      · exact Number.isDigit_of_mem_digitsOf hc
    · split
      · exact Number.natOfDigits_digitsOf _
      · exact Number.natOfDigits_digitsOf _
  rw [htext, List.cons_append, List.cons_append]
  by_cases he : e < 0
  · simp only [if_pos he, readExponent, span_append hds hrest]
    cases ds with
    | nil => exact absurd rfl hne
    | cons d ds =>
      simp only [hnumber, beq_self_eq_true, Bool.true_or, if_true,
        show -((e.natAbs : Nat) : Int) = e by omega]
  · simp only [if_neg he, readExponent, span_append hds hrest]
    cases ds with
    | nil => exact absurd rfl hne
    | cons d ds =>
      simp only [hnumber, beq_self_eq_true, Bool.true_or, if_true,
        Bool.false_eq_true, if_false,
        show ((e.natAbs : Nat) : Int) = e by omega]

/-- All digits in their places: digits before the point and behind it,
which are read as the number that the digits alone are read as. -/
theorem exists_positional {d : Double.Digits} (hd : d.Proper) :
    ∃ whole fraction, d.positional ".0".toList = whole ++ '.' :: fraction ∧
      IsWhole whole ∧ fraction ≠ [] ∧ (∀ c ∈ fraction, c.isDigit = true) ∧
      ∀ negative, Double.ofDecimal negative
        (natOfDigits (whole ++ fraction)) (-fraction.length) =
          d.read negative := by
  have hzeros : ∀ n, ∀ c ∈ List.replicate n '0', c.isDigit = true := by
    intro n c hc
    rw [List.eq_of_mem_replicate hc]
    decide
  rw [Double.Digits.positional]
  by_cases hpoint : d.point ≤ 0
  · rw [if_pos hpoint]
    refine ⟨['0'], List.replicate (-d.point).toNat '0' ++ d.digits, rfl,
      .inl rfl, by simp [hd.isWhole.ne_nil], fun c hc => ?_,
      fun negative => ?_⟩
    · rcases List.mem_append.1 hc with hc | hc
      · exact hzeros _ c hc
      · exact hd.isWhole.isDigit hc
    · have hzero : natOfDigits ['0'] = 0 := rfl
      rw [Number.natOfDigits_append, hzero, Number.natOfDigits_append,
        Number.natOfDigits_zeros, Nat.zero_mul, Nat.zero_add, Nat.zero_mul,
        Nat.zero_add, Double.Digits.read, List.length_append,
        List.length_replicate]
      congr 1
      omega
  rw [if_neg hpoint]
  dsimp only
  by_cases hlen : d.digits.length ≤ d.point.toNat
  · rw [if_pos hlen]
    refine ⟨_, ['0'], rfl, ?_, by simp, by simp, fun negative => ?_⟩
    · rcases hd.isWhole with hz | ⟨c, rest, hc, hne, hdigits⟩
      · have := hd.zero hz
        simp [hz, this, IsWhole]
      · refine .inr ⟨c, rest ++ List.replicate _ '0', by rw [hc]; rfl, hne,
          fun c' hc' => ?_⟩
        rw [← List.cons_append] at hc'
        rcases List.mem_append.1 hc' with h | h
        · exact hdigits c' h
        · exact hzeros _ c' h
    · rw [List.append_assoc, show ['0'] = List.replicate 1 '0' from rfl,
        List.replicate_append_replicate, Number.natOfDigits_append_zeros,
        Double.ofDecimal_mul, Double.Digits.read, List.length_replicate]
      congr 1
      push_cast [Nat.cast_sub hlen]
      omega
  · rw [if_neg hlen]
    refine ⟨_, _, rfl, ?_, by simpa using hlen, fun c hc =>
      hd.isWhole.isDigit (List.mem_of_mem_drop hc), fun negative => ?_⟩
    · rcases hd.isWhole with hz | ⟨c, rest, hc, hne, hdigits⟩
      · have := hd.zero hz
        simp [hz, this] at hlen
      · obtain ⟨n, hn⟩ := Nat.exists_eq_add_one.2
          (show 0 < d.point.toNat by omega)
        rw [hn, hc]
        refine .inr ⟨c, rest.take n, rfl, hne, fun c' hc' => ?_⟩
        rcases List.mem_cons.1 hc' with rfl | h
        · exact hdigits _ (List.mem_cons_self ..)
        · exact hdigits _ (List.mem_cons_of_mem _ (List.mem_of_mem_take h))
    · rw [List.take_append_drop, Double.Digits.read, List.length_drop]
      congr 1
      omega

/-- What is read of a number with places. -/
theorem readNumber_positional (negative : Bool)
    {whole fraction rest : List Char} (hwhole : IsWhole whole)
    (hne : fraction ≠ []) (hfraction : ∀ c ∈ fraction, c.isDigit = true)
    (hrest : Ended rest) :
    readNumber negative (whole ++ '.' :: (fraction ++ rest)) =
      .ok (.float (Double.ofDecimal negative
        (natOfDigits (whole ++ fraction)) (-fraction.length)), rest) := by
  have hw : readWhole (whole ++ '.' :: (fraction ++ rest)) =
      some (whole, '.' :: (fraction ++ rest)) :=
    readWhole_append hwhole _ fun c hc => by
      rw [← Option.some.inj hc]
      decide
  have hf := readFraction_append hne hfraction _
    (hrest.not (by decide) (by decide))
  have he : readExponent rest = none :=
    readExponent_none (hrest.not (by decide) (by decide))
  simp only [readNumber, hw, hf, he, List.isEmpty_iff, hne, if_false]

/-- What is read of a number with one digit before the point and an
exponent. -/
theorem readNumber_scientific (negative : Bool) {d : Double.Digits}
    (hd : d.Proper) {rest : List Char} (hrest : Ended rest) :
    readNumber negative (d.scientific ++ rest) =
      .ok (.float (d.read negative), rest) := by
  have hexp := fun e => readExponent_append e
    (hrest.not (p := Char.isDigit) (by decide) (by decide))
  have hmark : ∀ (e : Int) (c : Char),
      c ∈ (Double.exponentText e ++ rest).head? → c = 'e' := by
    intro e c hc
    rw [Double.exponentText] at hc
    exact (Option.some.inj hc).symm
  rw [Double.Digits.scientific]
  split
  · rename_i h
    exact absurd h hd.isWhole.ne_nil
  · rename_i first h
    have hfirst : first.isDigit = true := hd.isWhole.isDigit (by simp [h])
    have hw := readWhole_append (Number.isWhole_singleton hfirst)
      (Double.exponentText (d.point - 1) ++ rest)
      fun c hc => by rw [hmark _ c hc]; decide
    have hf : readFraction (Double.exponentText (d.point - 1) ++ rest) =
        ([], Double.exponentText (d.point - 1) ++ rest) :=
      readFraction_none fun c hc => by rw [hmark _ c hc]; decide
    rw [List.singleton_append] at hw
    simp only [List.cons_append, readNumber, hw, hf, hexp, List.append_nil,
      Double.Digits.read, h, List.length_nil, List.length_singleton]
    norm_num
  · rename_i first more hmore h
    have hfirst : first.isDigit = true := hd.isWhole.isDigit (by simp [h])
    have hw := readWhole_append (Number.isWhole_singleton hfirst)
      ('.' :: (more ++ (Double.exponentText (d.point - 1) ++ rest)))
      fun c hc => by rw [← Option.some.inj hc]; decide
    have hne : more ≠ [] := fun hnil => hmore hnil
    have hf := readFraction_append hne
      (fun c hc => hd.isWhole.isDigit (by simp [h, hc]))
      (Double.exponentText (d.point - 1) ++ rest)
      fun c hc => by rw [hmark _ c hc]; decide
    have hplaces : d.point - 1 - (more.length : Int) =
        d.point - (first :: more).length := by
      rw [List.length_cons]
      omega
    rw [List.singleton_append] at hw
    simp only [List.cons_append, List.append_assoc, readNumber, hw, hf, hexp,
      Double.Digits.read, h, hplaces, List.nil_append]

/-- The shortest form of a number, without its sign. -/
def shortText (d : Double.Digits) : List Char :=
  if -4 < d.point ∧ d.point ≤ 16 then d.positional ".0".toList
  else d.scientific

/-- The shortest form of a number begins with a digit. -/
theorem exists_cons_shortText {d : Double.Digits} (hd : d.Proper) :
    ∃ c cs, shortText d = c :: cs ∧ c.isDigit = true := by
  rw [shortText]
  split
  · obtain ⟨whole, fraction, htext, hwhole, -⟩ := exists_positional hd
    obtain ⟨c, cs, hc⟩ := List.exists_cons_of_ne_nil hwhole.ne_nil
    rw [htext, hc]
    exact ⟨c, _, rfl, hwhole.isDigit (by simp [hc])⟩
  · obtain ⟨c, cs, hc⟩ := List.exists_cons_of_ne_nil hd.isWhole.ne_nil
    have hdigit : c.isDigit = true := hd.isWhole.isDigit (by simp [hc])
    rw [Double.Digits.scientific, hc]
    cases cs <;> exact ⟨c, _, rfl, hdigit⟩

/-- What is read of a number in its shortest form. -/
theorem readNumber_finite (negative : Bool) {d : Double.Digits}
    (hd : d.Proper) {rest : List Char} (hrest : Ended rest) :
    readNumber negative (shortText d ++ rest) =
      .ok (.float (d.read negative), rest) := by
  rw [shortText]
  split
  · obtain ⟨whole, fraction, htext, hwhole, hne, hdigits, hread⟩ :=
      exists_positional hd
    rw [htext, List.append_assoc, List.cons_append, ← hread]
    exact readNumber_positional negative hwhole hne hdigits hrest
  · exact readNumber_scientific negative hd hrest

-- ============================================================== leaves

/-- No word stands at the start of a text that starts otherwise. -/
theorem afterWord?_eq_none {w : String} {c d : Char} {cs ws : List Char}
    (hw : w.toList = d :: ws) (h : d ≠ c) : afterWord? w (c :: cs) = none := by
  simp [afterWord?, hw, h]

/-- What starts with a digit is read as a number. -/
theorem readLeaf_digit {c : Char} (hc : c.isDigit = true) (cs : List Char) :
    readLeaf (c :: cs) = readNumber false (c :: cs) := by
  have hne : ∀ d : Char, d.isDigit = false → d ≠ c := by
    rintro d hd rfl
    rw [hd] at hc
    exact absurd hc (by decide)
  rw [readLeaf, afterWord?_eq_none (d := 'n') rfl (hne _ (by decide)),
    afterWord?_eq_none (d := 't') rfl (hne _ (by decide)),
    afterWord?_eq_none (d := 'f') rfl (hne _ (by decide)),
    afterWord?_eq_none (d := 'N') rfl (hne _ (by decide)),
    afterWord?_eq_none (d := 'I') rfl (hne _ (by decide)),
    afterWord?_eq_none (d := '-') rfl (hne _ (by decide))]
  rintro rest h
  exact hne '-' (by decide) (List.cons.inj h).1.symm

/-- What starts with a minus and a digit is read as a negative number. -/
theorem readLeaf_minus {c : Char} (hc : c.isDigit = true)
    (cs : List Char) :
    readLeaf ('-' :: c :: cs) = readNumber true (c :: cs) := by
  have hword : afterWord? "-Infinity" ('-' :: c :: cs) = none := by
    have hne : 'I' ≠ c := by
      rintro rfl
      exact absurd hc (by decide)
    simp [afterWord?, hne]
  rw [readLeaf, afterWord?_eq_none (d := 'n') rfl (by decide),
    afterWord?_eq_none (d := 't') rfl (by decide),
    afterWord?_eq_none (d := 'f') rfl (by decide),
    afterWord?_eq_none (d := 'N') rfl (by decide),
    afterWord?_eq_none (d := 'I') rfl (by decide), hword]

/-- Digits are read as the number they give, unless there are too many. -/
theorem readNumber_digitsOf (negative : Bool) (n : Nat) {rest : List Char}
    (hrest : Ended rest) :
    readNumber negative (digitsOf n ++ rest) =
      if (digitsOf n).length > maxIntDigits then
        .error (.oversized (digitsOf n).length)
      else .ok (.int (if negative then -n else n), rest) := by
  have hw : readWhole (digitsOf n ++ rest) = some (digitsOf n, rest) :=
    readWhole_append (Number.isWhole_digitsOf n) _
      (hrest.not (by decide) (by decide))
  have hf : readFraction rest = ([], rest) :=
    readFraction_none (hrest.not (by decide) (by decide))
  have he : readExponent rest = none :=
    readExponent_none (hrest.not (by decide) (by decide))
  simp only [readNumber, hw, hf, he, List.isEmpty_nil, if_true,
    Number.natOfDigits_digitsOf]

/-- An integer is read back, unless it has too many digits. -/
theorem readLeaf_intText (n : Int) {rest : List Char}
    (hrest : Ended rest) :
    readLeaf (intText n ++ rest) =
      if (digitsOf n.natAbs).length > maxIntDigits then
        .error (.oversized (digitsOf n.natAbs).length)
      else .ok (.int n, rest) := by
  have hdigits : ∃ d ds, digitsOf n.natAbs ++ rest = d :: ds ∧
      d.isDigit = true := by
    cases hd : digitsOf n.natAbs with
    | nil => exact absurd hd (Number.digitsOf_ne_nil _)
    | cons d ds =>
      exact ⟨d, ds ++ rest, rfl, Number.isDigit_of_mem_digitsOf
        (n := n.natAbs) (by rw [hd]; exact List.mem_cons_self ..)⟩
  obtain ⟨d, ds, hds, hd⟩ := hdigits
  rw [intText]
  by_cases hn : n < 0
  · rw [if_pos hn, List.cons_append, hds, readLeaf_minus hd, ← hds,
      readNumber_digitsOf true _ hrest, if_pos rfl,
      show -((n.natAbs : Nat) : Int) = n by omega]
  · rw [if_neg hn, hds, readLeaf_digit hd, ← hds,
      readNumber_digitsOf false _ hrest, if_neg Bool.false_ne_true,
      show ((n.natAbs : Nat) : Int) = n by omega]

/-- A double-precision number is read as one, and as itself if it is one of
the format. -/
theorem readLeaf_numberText (x : Double) {rest : List Char}
    (hrest : Ended rest) :
    ∃ y, readLeaf (numberText x ++ rest) = .ok (.float y, rest) ∧
      (x.Canonical → y = x) := by
  cases x with
  | nan => exact ⟨.nan, rfl, fun _ => rfl⟩
  | infinite negative =>
    refine ⟨.infinite negative, ?_, fun _ => rfl⟩
    cases negative <;> rfl
  | finite negative m e =>
    have hd := Double.proper_shortest negative m e
    have htext : numberText (.finite negative m e) =
        Double.signed negative (shortText (Double.shortest negative m e)) :=
      rfl
    obtain ⟨c, cs, hcs, hc⟩ := exists_cons_shortText hd
    refine ⟨_, ?_, Double.read_shortest⟩
    rw [htext, ← readNumber_finite negative hd hrest, Double.signed, hcs,
      List.cons_append]
    cases negative with
    | false => exact readLeaf_digit hc _
    | true => exact readLeaf_minus hc _

-- =============================================================== texts

theorem hexValue?_digitChar :
    ∀ k < 16, hexValue? (Nat.digitChar k) = some k := by decide

/-- Four digits, each of a quarter of the number. -/
theorem hex4_eq {n : Nat} (h : n < 0x10000) :
    hex4 n = [Nat.digitChar (n / 0x1000), Nat.digitChar (n / 0x100 % 16),
      Nat.digitChar (n / 16 % 16), Nat.digitChar (n % 16)] := by
  have hzero : '0' = Nat.digitChar 0 := rfl
  have hstep : ∀ k, 16 ≤ k → Nat.toDigits 16 k =
      Nat.toDigits 16 (k / 16) ++ [Nat.digitChar (k % 16)] :=
    fun k hk => Nat.toDigits_of_base_le (by decide) hk
  have hlast : ∀ k, k < 16 → Nat.toDigits 16 k = [Nat.digitChar k] :=
    fun k hk => Nat.toDigits_of_lt_base hk
  rw [hex4]
  by_cases h₁ : n < 16
  · have : n / 0x1000 = 0 ∧ n / 0x100 % 16 = 0 ∧ n / 16 % 16 = 0 ∧
        n % 16 = n := by omega
    rw [hlast n h₁, this.1, this.2.1, this.2.2.1, this.2.2.2]
    rfl
  by_cases h₂ : n < 0x100
  · have : n / 0x1000 = 0 ∧ n / 0x100 % 16 = 0 ∧ n / 16 % 16 = n / 16 := by
      omega
    rw [hstep n (by omega), hlast _ (by omega), this.1, this.2.1, this.2.2]
    rfl
  by_cases h₃ : n < 0x1000
  · have : n / 0x1000 = 0 ∧ n / 0x100 % 16 = n / 16 / 16 := by omega
    rw [hstep n (by omega), hstep (n / 16) (by omega), hlast _ (by omega),
      this.1, this.2]
    rfl
  · have : n / 0x1000 = n / 16 / 16 / 16 ∧
        n / 0x100 % 16 = n / 16 / 16 % 16 := by omega
    rw [hstep n (by omega), hstep (n / 16) (by omega),
      hstep (n / 16 / 16) (by omega), hlast _ (by omega), this.1, this.2]
    rfl

/-- Four digits are read back as the number they were written for. -/
theorem hex4?_hex4 {n : Nat} (h : n < 0x10000) (rest : List Char) :
    hex4? (hex4 n ++ rest) = some (n, rest) := by
  have hn : ((n / 0x1000 * 16 + n / 0x100 % 16) * 16 + n / 16 % 16) * 16 +
      n % 16 = n := by omega
  rw [hex4_eq h]
  simp only [List.cons_append, List.nil_append, hex4?,
    hexValue?_digitChar _ (show n / 0x1000 < 16 by omega),
    hexValue?_digitChar _ (show n / 0x100 % 16 < 16 by omega),
    hexValue?_digitChar _ (show n / 16 % 16 < 16 by omega),
    hexValue?_digitChar _ (show n % 16 < 16 by omega),
    Option.bind_eq_bind, Option.bind_some, hn]

/-- No character is half of a surrogate pair. -/
theorem toNat_char (c : Char) :
    c.toNat < 0xd800 ∨ (0xdfff < c.toNat ∧ c.toNat < 0x110000) := c.valid

/-- One code unit that is no half of a surrogate pair. -/
theorem readString_unit {n : Nat} (h : n < 0x10000)
    (hn : n < 0xd800 ∨ 0xdfff < n) (fuel : Nat) (done : List Char)
    (broken : Bool) (rest : List Char) :
    readString (fuel + 1) done broken ('\\' :: 'u' :: (hex4 n ++ rest)) =
      readString fuel (Char.ofNat n :: done) broken rest := by
  have hhigh : ¬(0xd800 ≤ n ∧ n ≤ 0xdbff) := by omega
  have hlow : ¬(0xdc00 ≤ n ∧ n ≤ 0xdfff) := by omega
  simp only [readString, hex4?_hex4 h, if_neg hhigh, if_neg hlow]

/-- The two halves of a surrogate pair. -/
theorem readString_pair {hi lo : Nat} (hhigh : 0xd800 ≤ hi ∧ hi ≤ 0xdbff)
    (hlow : 0xdc00 ≤ lo ∧ lo ≤ 0xdfff) (fuel : Nat) (done : List Char)
    (broken : Bool) (rest : List Char) :
    readString (fuel + 1) done broken ('\\' :: 'u' ::
        (hex4 hi ++ '\\' :: 'u' :: (hex4 lo ++ rest))) =
      readString fuel (Char.ofNat (0x10000 + (hi - 0xd800) * 0x400 +
        (lo - 0xdc00)) :: done) broken rest := by
  have hhi : hi < 0x10000 := by omega
  have hlo : lo < 0x10000 := by omega
  simp only [readString, hex4?_hex4 hhi, hex4?_hex4 hlo, if_pos hhigh,
    if_pos hlow]

/-- Escapes by code unit are read as their character. -/
theorem readString_escapeUnits {n : Nat}
    (hn : n < 0xd800 ∨ (0xdfff < n ∧ n < 0x110000)) (fuel : Nat)
    (done : List Char) (broken : Bool) (rest : List Char) :
    readString (fuel + 1) done broken (escapeUnits n ++ rest) =
      readString fuel (Char.ofNat n :: done) broken rest := by
  rw [escapeUnits]
  split
  · rename_i h
    exact readString_unit h (by omega) fuel done broken rest
  · rename_i h
    obtain ⟨m, rfl⟩ : ∃ m, n = 0x10000 + m := ⟨n - 0x10000, by omega⟩
    have hm : 0x10000 + m - 0x10000 = m := by omega
    have hunits : 0x10000 + (0xd800 + m / 0x400 - 0xd800) * 0x400 +
        (0xdc00 + m % 0x400 - 0xdc00) = 0x10000 + m := by omega
    simp only [List.cons_append, List.append_assoc, hm]
    rw [readString_pair (by omega) (by omega), hunits]

/-- A character is read back from its escape. -/
theorem readString_escapeChar (c : Char) (fuel : Nat) (done : List Char)
    (broken : Bool) (rest : List Char) :
    readString (fuel + 1) done broken (escapeChar c ++ rest) =
      readString fuel (c :: done) broken rest := by
  have hcode : ∀ n, (c.toNat == n) = true → c = Char.ofNat n := by
    intro n hn
    rw [← beq_iff_eq.1 hn, Char.ofNat_toNat]
  rw [escapeChar]
  split
  · rename_i h
    rw [beq_iff_eq.1 h]
    rfl
  rename_i hquote
  split
  · rename_i h
    rw [beq_iff_eq.1 h]
    rfl
  rename_i hslash
  split
  · rename_i h
    rw [beq_iff_eq.1 h]
    rfl
  split
  · rename_i h
    rw [beq_iff_eq.1 h]
    rfl
  split
  · rename_i h
    rw [beq_iff_eq.1 h]
    rfl
  split
  · rename_i h
    rw [hcode _ h]
    rfl
  split
  · rename_i h
    rw [hcode _ h]
    rfl
  split
  · rename_i h
    have hlow : ¬c.toNat < 0x20 := by
      simp only [Bool.and_eq_true, decide_eq_true_eq] at h
      omega
    rw [List.singleton_append, readString]
    · rw [if_neg hlow]
    all_goals
      intros
      simp_all
  · rw [readString_escapeUnits (toNat_char c), Char.ofNat_toNat]

/-- Characters are read back up to the closing quote. -/
theorem readString_flatMap (cs rest : List Char) {fuel : Nat} :
    ∀ {done : List Char} {broken : Bool} {r : StringRead},
      readString fuel done broken
          (cs.flatMap escapeChar ++ '"' :: rest) = .ok r →
        r = ⟨done.reverse ++ cs, broken, rest⟩ := by
  induction cs generalizing fuel with
  | nil =>
    intro done broken r h
    cases fuel with
    | zero => exact absurd h (by simp [readString])
    | succ fuel => simpa [readString] using h.symm
  | cons c cs ih =>
    intro done broken r h
    cases fuel with
    | zero => exact absurd h (by simp [readString])
    | succ fuel =>
      rw [List.flatMap_cons, List.append_assoc,
        readString_escapeChar] at h
      simpa using ih h

/-- A string is read back. -/
theorem readString_stringText (s : String) (rest : List Char) {fuel : Nat}
    {r : StringRead}
    (h : readString fuel [] false
      (s.toList.flatMap escapeChar ++ '"' :: rest) = .ok r) :
    r = ⟨s.toList, false, rest⟩ := readString_flatMap _ _ h

end CallTrace.Json
