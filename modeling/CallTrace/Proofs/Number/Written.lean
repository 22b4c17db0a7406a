/-
What the decimal text of a number looks like.

The digits of a natural number start with no zero, unless it is zero
itself, and give the number back. The shortest form of a double-precision
number starts the same way, and has a point or an exponent, so that it is
told from an integer.
-/
import CallTrace.Number.Written

namespace CallTrace.Number

/-- Digits of a whole number: a zero alone, or digits that do not start
with a zero. -/
def IsWhole (ds : List Char) : Prop :=
  ds = ['0'] ∨ ∃ d rest, ds = d :: rest ∧ d ≠ '0' ∧
    ∀ c ∈ d :: rest, c.isDigit = true

theorem IsWhole.isDigit {ds : List Char} (h : IsWhole ds) {c : Char}
    (hc : c ∈ ds) : c.isDigit = true := by
  rcases h with rfl | ⟨d, rest, rfl, -, hds⟩
  · rw [List.mem_singleton.1 hc]
    decide
  · exact hds c hc

theorem IsWhole.ne_nil {ds : List Char} (h : IsWhole ds) : ds ≠ [] := by
  rcases h with rfl | ⟨d, rest, rfl, -, -⟩ <;> simp

/-- One digit is a whole number. -/
theorem isWhole_singleton {d : Char} (h : d.isDigit = true) :
    IsWhole [d] := by
  by_cases hd : d = '0'
  · exact .inl (by rw [hd])
  · exact .inr ⟨d, [], rfl, hd, by simpa using h⟩

theorem isDigit_of_mem_digitsOf {n : Nat} {c : Char}
    (h : c ∈ digitsOf n) : c.isDigit = true :=
  Nat.isDigit_of_mem_toDigits (by decide) (by decide) h

theorem digitsOf_ne_nil (n : Nat) : digitsOf n ≠ [] := Nat.toDigits_ne_nil

theorem natOfDigits_digitsOf (n : Nat) : natOfDigits (digitsOf n) = n :=
  Nat.ofDigitChars_ten_toDigits

/-- No digit of a positive number stands behind a leading zero. -/
theorem exists_cons_digitsOf {n : Nat} (hn : 0 < n) :
    ∃ d rest, digitsOf n = d :: rest ∧ d ≠ '0' := by
  induction n using Nat.strongRecOn with
  | ind n ih =>
    rw [digitsOf, Nat.toDigits_eq_if (by decide)]
    split
    · exact ⟨_, [], rfl, by rw [Ne, Nat.digitChar_eq_zero]; omega⟩
    · obtain ⟨d, rest, hd, hne⟩ := ih (n / 10) (by omega) (by omega)
      rw [digitsOf] at hd
      exact ⟨d, rest ++ [Nat.digitChar (n % 10)], by rw [hd]; rfl, hne⟩

theorem isWhole_digitsOf (n : Nat) : IsWhole (digitsOf n) := by
  rcases Nat.eq_zero_or_pos n with rfl | hn
  · exact .inl rfl
  · obtain ⟨d, rest, hd, hne⟩ := exists_cons_digitsOf hn
    refine .inr ⟨d, rest, hd, hne, fun c hc => ?_⟩
    rw [← hd] at hc
    exact isDigit_of_mem_digitsOf hc

namespace Double

-- ======================================================= shortest forms

/-- Zeros at the end are dropped, and the first digit stays. -/
theorem dropZeros_cons {d : Char} (hd : d ≠ '0') (rest : List Char) :
    ∃ kept, dropZeros (d :: rest) = d :: kept ∧ ∀ c ∈ kept, c ∈ rest := by
  have hdrop : ∀ l : List Char, (l ++ [d]).dropWhile (· == '0') =
      l.dropWhile (· == '0') ++ [d] := by
    intro l
    induction l with
    | nil => simp [hd]
    | cons c l ih =>
      by_cases hc : c = '0'
      · simp [hc, ih]
      · simp [hc]
  refine ⟨(rest.reverse.dropWhile (· == '0')).reverse, ?_, fun c hc => ?_⟩
  · rw [dropZeros, List.reverse_cons, hdrop]
    simp
  · exact List.mem_reverse.1
      ((List.dropWhile_sublist _).mem (List.mem_reverse.1 hc))

/-- Digits that start with no zero, or a zero alone before the point. -/
structure Digits.Proper (d : Digits) : Prop where
  isWhole : IsWhole d.digits
  zero : d.digits = ['0'] → d.point = 1

/-- The digits of a scaled number start with no zero. -/
theorem Digits.proper_ofScaled {n : Nat} (hn : 0 < n) (e : Int) :
    (Digits.ofScaled n e).Proper := by
  obtain ⟨d, rest, hd, hne⟩ := exists_cons_digitsOf hn
  obtain ⟨kept, hkept, hmem⟩ := dropZeros_cons hne rest
  have hdigits : (Digits.ofScaled n e).digits = d :: kept := by
    rw [Digits.ofScaled, hd, hkept]
  constructor
  · refine .inr ⟨d, kept, hdigits, hne, fun c hc => ?_⟩
    refine isDigit_of_mem_digitsOf (n := n) ?_
    rw [hd]
    rcases List.mem_cons.1 hc with rfl | hc
    · exact List.mem_cons_self ..
    · exact List.mem_cons_of_mem _ (hmem c hc)
  · rw [hdigits]
    intro h
    exact absurd (List.cons.inj h).1 hne

/-- A decimal without digits is zero. -/
theorem ofDecimal_zero (negative : Bool) (e : Int) :
    ofDecimal negative 0 e = zeroOf negative := by
  simp [ofDecimal]

/-- The shortest digits of a number start with no zero, or are a zero alone
before the point. -/
theorem proper_shortest (negative : Bool) (m : Nat) (e : Int) :
    (shortest negative m e).Proper := by
  rw [shortest]
  dsimp only
  by_cases hm : m = 0
  · rw [if_pos hm]
    exact ⟨.inl rfl, fun _ => rfl⟩
  rw [if_neg hm]
  generalize hfound : List.findSome? _ (List.range 17) = found
  cases found with
  | none =>
    refine Digits.proper_ofScaled (Nat.mul_pos (Nat.mul_pos ?_ ?_) ?_) _
    · exact Nat.pos_of_ne_zero hm
    · exact Nat.pow_pos (by decide)
    · exact Nat.pow_pos (by decide)
  | some d =>
    obtain ⟨i, -, hi⟩ := List.exists_of_findSome?_eq_some hfound
    obtain ⟨n, hn, rfl⟩ := Option.map_eq_some_iff.1 hi
    refine Digits.proper_ofScaled (Nat.pos_of_ne_zero fun h => ?_) _
    have hread := List.find?_some hn
    simp only [h, ofDecimal_zero, zeroOf, decide_eq_true_eq,
      Double.finite.injEq] at hread
    exact hm hread.2.1.symm

end Double

end CallTrace.Number
