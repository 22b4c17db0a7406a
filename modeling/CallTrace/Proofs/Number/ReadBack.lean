/-
The shortest text of a number reads back as that number.

The shortest digits are found by reading back, so what is to be shown is
that nothing is lost between the digits that were tried and those that are
written: zeros at the end are dropped, and the point is moved by as many
places. Where no short decimal was found all digits of the exact value are
given, and these read back because a number of the format is nearest to
itself.
-/
import CallTrace.Proofs.Number.Rounding
import CallTrace.Proofs.Number.Written

namespace CallTrace.Number

-- ============================================================== digits

theorem natOfDigits_append (ds es : List Char) :
    natOfDigits (ds ++ es) =
      natOfDigits ds * 10 ^ es.length + natOfDigits es := by
  show Nat.ofDigitChars 10 (ds ++ es) 0 = _
  rw [Nat.ofDigitChars_append, Nat.ofDigitChars_eq_ofDigitChars_zero,
    Nat.mul_comm]
  rfl

theorem natOfDigits_zeros (n : Nat) :
    natOfDigits (List.replicate n '0') = 0 := by
  show Nat.ofDigitChars 10 (List.replicate n '0') 0 = 0
  rw [Nat.ofDigitChars_replicate_zero, Nat.mul_zero]

/-- Zeros at the end are factors of ten. -/
theorem natOfDigits_append_zeros (ds : List Char) (n : Nat) :
    natOfDigits (ds ++ List.replicate n '0') = natOfDigits ds * 10 ^ n := by
  rw [natOfDigits_append, natOfDigits_zeros, List.length_replicate,
    Nat.add_zero]

/-- Digits stand for less than the power of ten of their count. -/
theorem natOfDigits_lt {ds : List Char}
    (h : ∀ c ∈ ds, c.isDigit = true) : natOfDigits ds < 10 ^ ds.length := by
  induction ds with
  | nil => exact Nat.one_pos
  | cons c ds ih =>
    have hds := ih fun d hd => h d (List.mem_cons_of_mem _ hd)
    have hc : natOfDigits [c] ≤ 9 := by
      have hdigit := h c (List.mem_cons_self ..)
      simp only [Char.isDigit, Bool.and_eq_true, decide_eq_true_eq] at hdigit
      have hle : c.val.toNat ≤ 57 := hdigit.2
      show 10 * 0 + (c.toNat - 48) ≤ 9
      have : c.toNat = c.val.toNat := rfl
      omega
    have hmul := Nat.mul_le_mul_right (10 ^ ds.length) hc
    rw [← List.singleton_append, natOfDigits_append, List.length_append,
      List.length_singleton, Nat.pow_add]
    omega

theorem digitsOf_mul_ten {n : Nat} (hn : 0 < n) :
    digitsOf (n * 10) = digitsOf n ++ ['0'] := by
  rw [digitsOf, Nat.toDigits_of_base_le (by decide) (by omega),
    Nat.mul_div_cancel _ (by decide), Nat.mul_mod_left]
  rfl

theorem length_digitsOf_mul {n : Nat} (hn : 0 < n) (k : Nat) :
    (digitsOf (n * 10 ^ k)).length = (digitsOf n).length + k := by
  induction k with
  | zero => rw [Nat.pow_zero, Nat.mul_one, Nat.add_zero]
  | succ k ih =>
    rw [Nat.pow_succ, ← Nat.mul_assoc,
      digitsOf_mul_ten (Nat.mul_pos hn (Nat.pow_pos (by decide))),
      List.length_append, ih, List.length_singleton, Nat.add_assoc]

namespace Double

/-- Dropping zeros from the end drops nothing but zeros. -/
theorem dropZeros_append (ds : List Char) (h : ∃ d ∈ ds, d ≠ '0') :
    ∃ k, ds = dropZeros ds ++ List.replicate k '0' := by
  obtain ⟨d, hd, hne⟩ := h
  have hsplit := List.takeWhile_append_dropWhile
    (p := (· == '0')) (l := ds.reverse)
  have hzeros : ds.reverse.takeWhile (· == '0') =
      List.replicate (ds.reverse.takeWhile (· == '0')).length '0' := by
    refine List.eq_replicate_iff.2 ⟨rfl, fun c hc => ?_⟩
    exact beq_iff_eq.1 (List.all_eq_true.1 List.all_takeWhile c hc)
  refine ⟨(ds.reverse.takeWhile (· == '0')).length, ?_⟩
  have hds : ds = (ds.reverse.dropWhile (· == '0')).reverse ++
      (ds.reverse.takeWhile (· == '0')).reverse := by
    rw [← List.reverse_append, hsplit, List.reverse_reverse]
  rw [dropZeros]
  split
  · rename_i hnil
    rw [hnil, List.nil_append] at hds
    rw [hds, List.mem_reverse] at hd
    have hzero := List.all_eq_true.1 List.all_takeWhile d hd
    exact absurd (beq_iff_eq.1 hzero) hne
  · conv_lhs => rw [hds, hzeros, List.reverse_replicate]

-- ====================================================== reading digits

theorem pow10_pos (e : Int) : 0 < pow10 e := Nat.pow_pos (by decide)

theorem pow10_div (e : Int) :
    ((pow10 e : Nat) : ℚ) / (pow10 (-e) : Nat) = 10 ^ e := by
  simpa [pow10] using pow_toNat_div (b := 10) (by norm_num) e

/-- A zero more and a place less are the same decimal. -/
theorem ofDecimal_mul (negative : Bool) (n k : Nat) (e : Int) :
    ofDecimal negative (n * 10 ^ k) e = ofDecimal negative n (e + k) := by
  rcases Nat.eq_zero_or_pos n with rfl | hn
  · rw [Nat.zero_mul, ofDecimal_zero, ofDecimal_zero]
  have hpos : n * 10 ^ k ≠ 0 :=
    (Nat.mul_pos hn (Nat.pow_pos (by decide))).ne'
  have hsize : ((digitsOf (n * 10 ^ k)).length : Int) + e =
      (digitsOf n).length + (e + k) := by
    rw [length_digitsOf_mul hn]
    push_cast
    ring
  have hratio : ((n * 10 ^ k * pow10 e : Nat) : ℚ) / (pow10 (-e) : Nat) =
      (n * pow10 (e + k) : Nat) / (pow10 (-(e + k)) : Nat) := by
    rw [Nat.cast_mul, Nat.cast_mul, Nat.cast_mul, mul_div_assoc,
      mul_div_assoc, pow10_div, pow10_div, zpow_add₀ (by norm_num),
      zpow_natCast, Nat.cast_pow]
    push_cast
    ring
  simp only [ofDecimal, hsize, hpos, hn.ne', false_or,
    ofRatio_congr negative (pow10_pos _) (pow10_pos _) hratio]

theorem canonical_ofDecimal (negative : Bool) (n : Nat) (e : Int) :
    (ofDecimal negative n e).Canonical := by
  simp only [ofDecimal]
  split
  · exact canonical_zeroOf _
  split
  · trivial
  · exact canonical_ofRatio _ _ (pow10_pos _)

/-- The number that digits are read as. -/
def Digits.read (negative : Bool) (d : Digits) : Double :=
  ofDecimal negative (natOfDigits d.digits) (d.point - d.digits.length)

/-- The digits of a scaled number are read as that number. -/
theorem Digits.read_ofScaled (negative : Bool) {n : Nat} (hn : 0 < n)
    (e : Int) : (Digits.ofScaled n e).read negative =
      ofDecimal negative n e := by
  obtain ⟨d, rest, hd, hne⟩ := exists_cons_digitsOf hn
  obtain ⟨k, hk⟩ := dropZeros_append (digitsOf n)
    ⟨d, by simp [hd], hne⟩
  have hnumber : natOfDigits (dropZeros (digitsOf n)) * 10 ^ k = n := by
    rw [← natOfDigits_append_zeros, ← hk, natOfDigits_digitsOf]
  have hlength : ((digitsOf n).length : Int) =
      (dropZeros (digitsOf n)).length + k := by
    conv_lhs => rw [hk, List.length_append, List.length_replicate]
    push_cast
    rfl
  rw [read, Digits.ofScaled]
  dsimp only
  rw [show ((digitsOf n).length : Int) + e -
    (dropZeros (digitsOf n)).length = e + k by omega, ← ofDecimal_mul,
    hnumber]

/-- The digits of a number that is not too small and not too great are
read as the number nearest to it. -/
theorem ofDecimal_of_bounds (negative : Bool) {n : Nat} {e : Int}
    (hn : 0 < n) (hlow : 10 ^ (-401 - e).toNat ≤ n)
    (hhigh : n < 10 ^ (400 - e).toNat) :
    ofDecimal negative n e =
      ofRatio negative (n * pow10 e) (pow10 (-e)) := by
  have hlen : 0 < (digitsOf n).length := Nat.length_toDigits_pos
  have hsmall : ¬((digitsOf n).length : Int) + e < -400 := by
    intro h
    rcases Nat.eq_zero_or_pos (-401 - e).toNat with hzero | hpos
    · omega
    · have hlt := (Nat.length_toDigits_le_iff (n := n) (by decide) hpos).1
        (show (digitsOf n).length ≤ _ by omega)
      exact absurd hlow (by omega)
  have hgreat : ¬((digitsOf n).length : Int) + e > 400 := by
    intro h
    rcases Nat.eq_zero_or_pos (400 - e).toNat with hzero | hpos
    · rw [hzero] at hhigh
      omega
    · have hle := (Nat.length_toDigits_le_iff (n := n) (by decide) hpos).2
        hhigh
      have hle : (digitsOf n).length ≤ (400 - e).toNat := hle
      omega
  simp only [ofDecimal, hn.ne', hsmall, hgreat, or_self, if_false]

theorem two_pow_le {n k : Nat} (h : n ≤ 3 * k) : 2 ^ n ≤ 10 ^ k :=
  calc 2 ^ n ≤ 2 ^ (3 * k) := Nat.pow_le_pow_right (by decide) h
    _ = 8 ^ k := Nat.pow_mul 2 3 k
    _ ≤ 10 ^ k := Nat.pow_le_pow_left (by decide) k

theorem ten_pow_eq (n : Nat) : 10 ^ n = 5 ^ n * 2 ^ n := by
  rw [← Nat.mul_pow]

/-- Ten to at most two thirds of `n` is at most five to `n`. -/
theorem ten_pow_sub_le {n k : Nat} (h : n ≤ 3 * k) :
    10 ^ (n - k) ≤ 5 ^ n := by
  rcases Nat.le_total n k with hn | hn
  · rw [Nat.sub_eq_zero_of_le hn]
    exact Nat.pow_pos (by decide)
  · refine Nat.le_of_mul_le_mul_right ?_
      (show 0 < 10 ^ k from Nat.pow_pos (by decide))
    rw [← Nat.pow_add, Nat.sub_add_cancel hn, ten_pow_eq n]
    exact Nat.mul_le_mul_left _ (two_pow_le h)

/-- All digits of the exact value are read as the number. -/
theorem ofDecimal_exact {negative : Bool} {m : Nat} {e : Int}
    (h : (Double.finite negative m e).Canonical) (hm : 0 < m) :
    ofDecimal negative (m * Nat.pow 5 (-e).toNat * pow2 e) (min e 0) =
      .finite negative m e := by
  obtain ⟨hlt, hmin, hmax⟩ : m < 2 ^ 53 ∧ -1074 ≤ e ∧ e ≤ 971 := by
    rcases h with ⟨rfl, -⟩ | ⟨-, hlt, hmin, hmax, -⟩
    · omega
    · exact ⟨hlt, hmin, hmax⟩
  rw [← ofRatio_exact h]
  rcases Int.le_total 0 e with he | he
  · obtain ⟨k, rfl⟩ := Int.eq_ofNat_of_zero_le he
    have hpow : pow2 k = 2 ^ k := by simp [pow2]
    have hbound : m * 2 ^ k < 10 ^ (400 - (0 : Int)).toNat :=
      calc m * 2 ^ k < 2 ^ 53 * 2 ^ k :=
            Nat.mul_lt_mul_of_pos_right hlt (Nat.pow_pos (by decide))
        _ = 2 ^ (53 + k) := (Nat.pow_add 2 53 k).symm
        _ ≤ 10 ^ (400 - (0 : Int)).toNat := two_pow_le (by omega)
    rw [Int.min_eq_right he, Int.toNat_of_nonpos (by omega), hpow,
      show m * Nat.pow 5 0 * 2 ^ k = m * 2 ^ k by simp,
      ofDecimal_of_bounds negative (Nat.mul_pos hm (Nat.pow_pos (by decide)))
        (Nat.mul_pos hm (Nat.pow_pos (by decide))) hbound]
    refine ofRatio_congr negative (pow10_pos _) (pow2_pos _) ?_
    rw [pow2_of_nonpos (by omega)]
    simp [pow10]
  · obtain ⟨k, rfl⟩ : ∃ k : Nat, e = -k := ⟨(-e).toNat, by omega⟩
    have hk : k ≤ 1074 := by omega
    have hpos : 0 < m * 5 ^ k := Nat.mul_pos hm (Nat.pow_pos (by decide))
    have hlow : 10 ^ (k - 401) ≤ m * 5 ^ k :=
      Nat.le_trans (ten_pow_sub_le (by omega)) (Nat.le_mul_of_pos_left _ hm)
    have hhigh : m * 5 ^ k < 10 ^ (400 + k) :=
      calc m * 5 ^ k < 2 ^ 53 * 5 ^ k :=
            Nat.mul_lt_mul_of_pos_right hlt (Nat.pow_pos (by decide))
        _ ≤ 10 ^ 400 * 10 ^ k := Nat.mul_le_mul (two_pow_le (by decide))
            (Nat.pow_le_pow_left (by decide) k)
        _ = 10 ^ (400 + k) := by rw [Nat.pow_add]
    have hsmall : (-401 - -(k : Int)).toNat = k - 401 := by omega
    have hgreat : (400 - -(k : Int)).toNat = 400 + k := by omega
    rw [Int.min_eq_left he, pow2_of_nonpos he, Nat.mul_one,
      show (- -(k : Int)).toNat = k by omega,
      show Nat.pow 5 k = 5 ^ k from rfl,
      ofDecimal_of_bounds negative hpos (hsmall.symm ▸ hlow)
        (hgreat.symm ▸ hhigh)]
    refine ofRatio_congr negative (pow10_pos _) (pow2_pos _) ?_
    have hpow : pow2 (- -(k : Int)) = 2 ^ k := by simp [pow2]
    have hpow' : pow10 (- -(k : Int)) = 10 ^ k := by simp [pow10]
    have hone : pow10 (-(k : Int)) = 1 := by simp [pow10]
    rw [hpow, hpow', hone, ten_pow_eq k, Nat.mul_one, Nat.mul_one]
    push_cast
    field_simp

/-- The shortest digits of a number of the format are read as that
number. -/
theorem read_shortest {negative : Bool} {m : Nat} {e : Int}
    (h : (Double.finite negative m e).Canonical) :
    (shortest negative m e).read negative = .finite negative m e := by
  rw [shortest]
  dsimp only
  by_cases hm : m = 0
  · rcases h with ⟨-, rfl⟩ | ⟨hpos, -⟩
    · rw [if_pos hm, hm, Digits.read]
      exact ofDecimal_zero negative _
    · omega
  rw [if_neg hm]
  have hpos := Nat.pos_of_ne_zero hm
  generalize hfound : List.findSome? _ (List.range 17) = found
  cases found with
  | none =>
    rw [Option.getD_none, Digits.read_ofScaled, ofDecimal_exact h hpos]
    exact Nat.mul_pos (Nat.mul_pos hpos (Nat.pow_pos (by decide)))
      (pow2_pos e)
  | some d =>
    obtain ⟨i, -, hi⟩ := List.exists_of_findSome?_eq_some hfound
    obtain ⟨n, hn, rfl⟩ := Option.map_eq_some_iff.1 hi
    have hread := List.find?_some hn
    rw [decide_eq_true_eq] at hread
    rw [Option.getD_some, Digits.read_ofScaled negative
      (Nat.pos_of_ne_zero fun h0 => ?_), hread]
    rw [h0, ofDecimal_zero, zeroOf, Double.finite.injEq] at hread
    exact hm hread.2.1.symm

end Double

end CallTrace.Number
