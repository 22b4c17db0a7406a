/-
What rounding makes of a ratio.

A double-precision number stands for a rational number, and the number
nearest to a ratio depends on the ratio alone, not on the two integers it
is given by. It is a number of the format; a number of the format is
nearest to itself; and of two ratios the greater one has no smaller nearest
number. The last is proved on the grid that rounding brings a ratio to:
either both ratios have the same grid, and the nearest integers are
compared, or a power of two lies between them that is on both grids.
-/
import CallTrace.Number.Double
import Mathlib.Algebra.Order.Field.Power
import Mathlib.Data.Int.Log
import Mathlib.Data.Rat.Floor
import Mathlib.Tactic.FieldSimp
import Mathlib.Tactic.Linarith
import Mathlib.Tactic.Positivity
import Mathlib.Tactic.Ring

namespace CallTrace.Number.Double

-- ====================================================== powers of two

theorem pow2_pos (e : Int) : 0 < pow2 e := Nat.pow_pos (by decide)

theorem pow2_of_nonpos {e : Int} (h : e ≤ 0) : pow2 e = 1 := by
  rw [pow2, Int.toNat_of_nonpos h]

theorem cast_pow2 {e : Int} (h : 0 ≤ e) : ((pow2 e : Nat) : ℚ) = 2 ^ e := by
  obtain ⟨n, rfl⟩ := Int.eq_ofNat_of_zero_le h
  simp [pow2]

/-- A power as a ratio of two powers that are no fractions. -/
theorem pow_toNat_div {b : ℚ} (hb : b ≠ 0) (e : Int) :
    b ^ e.toNat / b ^ (-e).toNat = b ^ e := by
  rw [← zpow_natCast, ← zpow_natCast, ← zpow_sub₀ hb]
  congr 1
  omega

theorem pow2_div (e : Int) :
    ((pow2 e : Nat) : ℚ) / (pow2 (-e) : Nat) = 2 ^ e := by
  simpa [pow2] using pow_toNat_div (b := 2) (by norm_num) e

/-- A ratio of integers over a power of two. -/
theorem ratio_scaled (num den : Nat) (e : Int) :
    ((num * pow2 (-e) : Nat) : ℚ) / (den * pow2 e : Nat) =
      num / den / 2 ^ e := by
  rw [← pow2_div e, div_div_eq_mul_div, Nat.cast_mul, Nat.cast_mul,
    div_mul_eq_mul_div, div_div]

/-- The greatest power of two below a ratio. -/
theorem floorLog2_eq {num den : Nat} (hnum : 0 < num) (hden : 0 < den) :
    floorLog2 num den = Int.log 2 ((num : ℚ) / den) := by
  have hpos : (0 : ℚ) < (num : ℚ) / den := by positivity
  have hnum₁ : 2 ^ num.log2 ≤ num := Nat.log2_self_le (by omega)
  have hnum₂ : num < 2 ^ (num.log2 + 1) := Nat.lt_log2_self
  have hden₁ : 2 ^ den.log2 ≤ den := Nat.log2_self_le (by omega)
  have hden₂ : den < 2 ^ (den.log2 + 1) := Nat.lt_log2_self
  have hbelow : (num.log2 : Int) - den.log2 - 1 ≤ Int.log 2 ((num : ℚ) / den) := by
    rw [← Int.zpow_le_iff_le_log (by decide) hpos, le_div_iff₀ (by positivity)]
    have hd : (den : ℚ) ≤ 2 ^ (den.log2 + 1) := by exact_mod_cast hden₂.le
    have hn : (2 : ℚ) ^ num.log2 ≤ num := by exact_mod_cast hnum₁
    calc ((2 : Nat) : ℚ) ^ ((num.log2 : Int) - den.log2 - 1) * den
        ≤ 2 ^ ((num.log2 : Int) - den.log2 - 1) * 2 ^ (den.log2 + 1) := by
          push_cast
          gcongr
      _ = 2 ^ num.log2 := by
          rw [← zpow_natCast, ← zpow_natCast, ← zpow_add₀ (by norm_num)]
          congr 1
          push_cast
          ring
      _ ≤ num := hn
  have habove : Int.log 2 ((num : ℚ) / den) < (num.log2 : Int) - den.log2 + 1 := by
    rw [← Int.lt_zpow_iff_log_lt (by decide) hpos, div_lt_iff₀ (by positivity)]
    have hd : (2 : ℚ) ^ den.log2 ≤ den := by exact_mod_cast hden₁
    have hn : (num : ℚ) < 2 ^ (num.log2 + 1) := by exact_mod_cast hnum₂
    calc (num : ℚ) < 2 ^ (num.log2 + 1) := hn
      _ = 2 ^ ((num.log2 : Int) - den.log2 + 1) * 2 ^ den.log2 := by
          rw [← zpow_natCast, ← zpow_natCast, ← zpow_add₀ (by norm_num)]
          congr 1
          push_cast
          ring
      _ ≤ ((2 : Nat) : ℚ) ^ ((num.log2 : Int) - den.log2 + 1) * den := by
          push_cast
          gcongr
  have hcompare : num * pow2 (-((num.log2 : Int) - den.log2)) <
        den * pow2 ((num.log2 : Int) - den.log2) ↔
      Int.log 2 ((num : ℚ) / den) < (num.log2 : Int) - den.log2 := by
    have hscaled := ratio_scaled num den ((num.log2 : Int) - den.log2)
    have hd : (0 : ℚ) < (den * pow2 ((num.log2 : Int) - den.log2) : Nat) :=
      Nat.cast_pos.2 (Nat.mul_pos hden (pow2_pos _))
    rw [← Int.lt_zpow_iff_log_lt (by decide) hpos,
      ← Nat.cast_lt (α := ℚ), ← div_lt_one hd, hscaled,
      div_lt_one (by positivity)]
    push_cast
    rfl
  rw [floorLog2]
  split
  · rename_i h
    rw [hcompare] at h
    omega
  · rename_i h
    rw [hcompare] at h
    omega

-- ==================================================== nearest integers

/-- An integer is nearest to itself. -/
theorem roundHalfEven_mul (n : Nat) {d : Nat} (hd : 0 < d) :
    roundHalfEven (n * d) d = n := by
  rw [roundHalfEven]
  simp [Nat.mul_div_cancel n hd, hd]

/-- Of two ratios the greater one has no smaller nearest integer. -/
theorem roundHalfEven_le {a b : Nat} (d : Nat) (h : a ≤ b) :
    roundHalfEven a d ≤ roundHalfEven b d := by
  have hq : a / d ≤ b / d := Nat.div_le_div_right h
  have hlow : ∀ n, n / d ≤ roundHalfEven n d := by
    intro n
    simp only [roundHalfEven]
    repeat' split
    all_goals omega
  have hhigh : ∀ n, roundHalfEven n d ≤ n / d + 1 := by
    intro n
    simp only [roundHalfEven]
    repeat' split
    all_goals omega
  rcases Nat.lt_or_eq_of_le hq with hlt | heq
  · exact (hhigh a).trans (Nat.le_trans hlt (hlow b))
  · have hr : a % d ≤ b % d := by
      have ha := Nat.div_add_mod a d
      have hb := Nat.div_add_mod b d
      rw [heq] at ha
      omega
    simp only [roundHalfEven, heq]
    repeat' split
    all_goals omega

/-- The nearest integer depends on the ratio alone. -/
theorem roundHalfEven_mul_right (num den : Nat) {c : Nat} (hc : 0 < c) :
    roundHalfEven (num * c) (den * c) = roundHalfEven num den := by
  have hlt : ∀ a b : Nat, 2 * (a * c) < b * c ↔ 2 * a < b := by
    intro a b
    rw [← Nat.mul_assoc, Nat.mul_lt_mul_right hc]
  have hgt : ∀ a b : Nat, b * c < 2 * (a * c) ↔ b < 2 * a := by
    intro a b
    rw [← Nat.mul_assoc, Nat.mul_lt_mul_right hc]
  simp only [roundHalfEven, Nat.mul_div_mul_right _ _ hc,
    Nat.mul_mod_mul_right, hlt, gt_iff_lt, hgt]

/-- The integer nearest to a rational number that is not negative. -/
def nearest (q : ℚ) : Nat := roundHalfEven q.num.natAbs q.den

/-- Rounding a ratio half to even is taking the nearest integer of its
value. -/
theorem roundHalfEven_eq_nearest (num : Nat) {den : Nat} (hden : 0 < den) :
    roundHalfEven num den = nearest ((num : ℚ) / den) := by
  have hq : (0 : ℚ) ≤ (num : ℚ) / den := by positivity
  have hcross : num * ((num : ℚ) / den).den =
      ((num : ℚ) / den).num.natAbs * den := by
    have hnum : ((((num : ℚ) / den).num.natAbs : Nat) : ℚ) =
        ((num : ℚ) / den).num := by
      rw [← Int.cast_natCast,
        Int.natAbs_of_nonneg (Rat.num_nonneg.2 hq)]
    have heq := Rat.num_div_den ((num : ℚ) / den)
    have hd : ((((num : ℚ) / den).den : Nat) : ℚ) ≠ 0 := by
      exact_mod_cast Rat.den_nz _
    have hden' : (den : ℚ) ≠ 0 := by positivity
    have hfield : (num : ℚ) * (((num : ℚ) / den).den : Nat) =
        ((((num : ℚ) / den).num.natAbs : Nat) : ℚ) * den := by
      rw [hnum]
      rw [div_eq_div_iff hd hden'] at heq
      linarith
    exact_mod_cast hfield
  rw [nearest, ← roundHalfEven_mul_right num den (Rat.den_pos ((num : ℚ) / den)),
    hcross, Nat.mul_comm den, roundHalfEven_mul_right _ _ hden]

theorem nearest_natCast (n : Nat) : nearest (n : ℚ) = n := by
  have h := roundHalfEven_eq_nearest n Nat.one_pos
  rw [Nat.cast_one, div_one] at h
  simpa [h] using roundHalfEven_mul n Nat.one_pos

/-- Nearest integers keep the order. -/
theorem nearest_le {p q : ℚ} (hp : 0 ≤ p) (h : p ≤ q) :
    nearest p ≤ nearest q := by
  have hfrac : ∀ r : ℚ, 0 ≤ r → r = (r.num.natAbs : ℚ) / r.den := by
    intro r hr
    rw [← Int.cast_natCast, Int.natAbs_of_nonneg (Rat.num_nonneg.2 hr),
      Rat.num_div_den]
  have hle : p.num.natAbs * q.den ≤ q.num.natAbs * p.den := by
    have h' := h
    rw [hfrac p hp, hfrac q (hp.trans h)] at h'
    rw [div_le_div_iff₀ (by exact_mod_cast p.den_pos)
      (by exact_mod_cast q.den_pos)] at h'
    exact_mod_cast h'
  rw [nearest, nearest, ← roundHalfEven_mul_right p.num.natAbs p.den q.den_pos,
    ← roundHalfEven_mul_right q.num.natAbs q.den p.den_pos,
    Nat.mul_comm q.den]
  exact roundHalfEven_le _ hle

-- ============================================================ the grid

/-- The exponent of the grid that a ratio is brought to. -/
def grid (r : ℚ) : Int := max (Int.log 2 r - 52) minExponent

/-- The ratio brought to its grid, however great it is. -/
def brought (r : ℚ) : ℚ := nearest (r / 2 ^ grid r) * 2 ^ grid r

theorem brought_nonneg (r : ℚ) : 0 ≤ brought r := by
  rw [brought]
  positivity

theorem lt_grid {r : ℚ} (hr : 0 < r) : r < 2 ^ (grid r + 53) := by
  have h := (Int.lt_zpow_iff_log_lt (b := 2) (by decide) hr
    (x := grid r + 53)).2 (by rw [grid]; omega)
  exact_mod_cast h

/-- Above the least exponent the grid has 53 binary digits. -/
theorem grid_le {r : ℚ} (hr : 0 < r) (h : grid r ≠ minExponent) :
    2 ^ (grid r + 52) ≤ r := by
  have h := (Int.zpow_le_iff_le_log (b := 2) (by decide) hr
    (x := grid r + 52)).2 (by rw [grid] at h ⊢; omega)
  exact_mod_cast h

theorem grid_mono {r r' : ℚ} (hr : 0 < r) (h : r ≤ r') :
    grid r ≤ grid r' := by
  have hlog := Int.log_mono_right (b := 2) hr h
  rw [grid, grid]
  omega

/-- Above the least exponent the nearest integer has all the bits of a
number. -/
theorem le_nearest {r : ℚ} (hr : 0 < r) (h : grid r ≠ minExponent) :
    2 ^ 52 ≤ nearest (r / 2 ^ grid r) := by
  rw [← nearest_natCast (2 ^ 52)]
  refine nearest_le (by positivity) ?_
  rw [le_div_iff₀ (by positivity)]
  calc ((2 ^ 52 : Nat) : ℚ) * 2 ^ grid r = 2 ^ (grid r + 52) := by
        rw [zpow_add₀ (by norm_num), mul_comm]
        norm_num
    _ ≤ r := grid_le hr h

/-- The nearest integer on the grid is at most the first one with a bit too
many. -/
theorem nearest_le_grid {r : ℚ} (hr : 0 < r) :
    nearest (r / 2 ^ grid r) ≤ 2 ^ 53 := by
  rw [← nearest_natCast (2 ^ 53)]
  refine nearest_le (by positivity) ?_
  rw [div_le_iff₀ (by positivity)]
  calc r ≤ 2 ^ (grid r + 53) := (lt_grid hr).le
    _ = ((2 ^ 53 : Nat) : ℚ) * 2 ^ grid r := by
        rw [zpow_add₀ (by norm_num), mul_comm]
        norm_num

/-- Of two ratios the greater one is not brought below the other. -/
theorem brought_le {r r' : ℚ} (hr : 0 < r) (h : r ≤ r') :
    brought r ≤ brought r' := by
  have hr' : 0 < r' := hr.trans_le h
  rcases (grid_mono hr h).eq_or_lt with heq | hlt
  · have hn : nearest (r / 2 ^ grid r') ≤ nearest (r' / 2 ^ grid r') :=
      nearest_le (by positivity) (by gcongr)
    rw [brought, brought, heq]
    gcongr
  · have hmin : grid r' ≠ minExponent := by
      have : minExponent ≤ grid r := le_max_right _ _
      omega
    have hhigh : (nearest (r / 2 ^ grid r) : ℚ) ≤ 2 ^ 53 := by
      exact_mod_cast nearest_le_grid hr
    have hlow : (2 ^ 52 : ℚ) ≤ nearest (r' / 2 ^ grid r') := by
      exact_mod_cast le_nearest hr' hmin
    calc brought r ≤ 2 ^ 53 * 2 ^ grid r := by
          rw [brought]
          gcongr
      _ = 2 ^ 52 * 2 ^ (grid r + 1) := by
          rw [zpow_add₀ (by norm_num)]
          norm_num
          ring
      _ ≤ 2 ^ 52 * 2 ^ grid r' := by
          gcongr
          · norm_num
          · omega
      _ ≤ brought r' := by
          rw [brought]
          gcongr

-- =========================================================== the format

/-- The number is one of the format: its significand has 53 binary digits,
or fewer at the least exponent, and a zero has the exponent zero. -/
def Canonical : Double → Prop
  | .finite _ m e =>
    m = 0 ∧ e = 0 ∨ 0 < m ∧ m < 2 ^ 53 ∧ minExponent ≤ e ∧
      e ≤ maxExponent ∧ (2 ^ 52 ≤ m ∨ e = minExponent)
  | _ => True

instance : DecidablePred Canonical := fun x => by
  cases x <;> unfold Canonical <;> infer_instance

theorem canonical_zeroOf (negative : Bool) : (zeroOf negative).Canonical :=
  .inl ⟨rfl, rfl⟩

/-- Beyond this size there are only the infinite numbers. -/
def bound : ℚ := 2 ^ (1024 : Int)

/-- What is nearest to a ratio: the number that it is brought to, or an
infinite one beyond the bound. -/
theorem ofRatio_cases (negative : Bool) {num den : Nat} (hnum : 0 < num)
    (hden : 0 < den) :
    (∃ m e, ofRatio negative num den = .finite negative m e ∧
      (Double.finite negative m e).Canonical ∧
      (m : ℚ) * 2 ^ e = brought ((num : ℚ) / den) ∧
      brought ((num : ℚ) / den) < bound) ∨
    ofRatio negative num den = .infinite negative ∧
      bound ≤ brought ((num : ℚ) / den) := by
  have hr : (0 : ℚ) < (num : ℚ) / den := by positivity
  have hm : roundHalfEven (num * pow2 (-grid ((num : ℚ) / den)))
      (den * pow2 (grid ((num : ℚ) / den))) =
      nearest ((num : ℚ) / den / 2 ^ grid ((num : ℚ) / den)) := by
    rw [roundHalfEven_eq_nearest _ (Nat.mul_pos hden (pow2_pos _)),
      ratio_scaled]
  have he : max (floorLog2 num den - 52) minExponent =
      grid ((num : ℚ) / den) := by rw [floorLog2_eq hnum hden, grid]
  have hmin : minExponent ≤ grid ((num : ℚ) / den) := le_max_right _ _
  have hhigh := nearest_le_grid hr
  have hlow := le_nearest hr
  simp only [ofRatio, if_neg hnum.ne', he, hm]
  rw [brought]
  generalize grid ((num : ℚ) / den) = e at *
  generalize nearest ((num : ℚ) / den / 2 ^ e) = m at *
  by_cases hcarry : m = pow2 53
  · have hvalue : (m : ℚ) * 2 ^ e = (pow2 52 : Nat) * 2 ^ (e + 1) := by
      rw [hcarry, cast_pow2 (by decide), cast_pow2 (by decide),
        ← zpow_add₀ (by norm_num), ← zpow_add₀ (by norm_num)]
      congr 1
      omega
    simp only [if_pos hcarry, hvalue]
    rw [if_neg (pow2_pos 52).ne']
    split
    · rename_i hover
      refine .inr ⟨rfl, ?_⟩
      rw [bound, cast_pow2 (by decide), ← zpow_add₀ (by norm_num)]
      refine zpow_le_zpow_right₀ (by norm_num) ?_
      simp only [maxExponent] at hover
      omega
    · rename_i hover
      refine .inl ⟨_, _, rfl, .inr ⟨pow2_pos _, by decide, by omega,
        by omega, .inl (by decide)⟩, rfl, ?_⟩
      rw [bound, cast_pow2 (by decide), ← zpow_add₀ (by norm_num)]
      refine zpow_lt_zpow_right₀ (by norm_num) ?_
      simp only [maxExponent] at hover
      omega
  · have hlt : m < 2 ^ 53 := lt_of_le_of_ne hhigh hcarry
    simp only [if_neg hcarry]
    by_cases hzero : m = 0
    · rw [if_pos hzero, hzero]
      refine .inl ⟨0, 0, rfl, canonical_zeroOf negative, by simp, ?_⟩
      rw [bound]
      simp
    rw [if_neg hzero]
    split
    · rename_i hover
      have hm : (2 ^ 52 : ℚ) ≤ m := by
        exact_mod_cast hlow (by simp only [maxExponent, minExponent] at *; omega)
      refine .inr ⟨rfl, ?_⟩
      calc bound ≤ 2 ^ 52 * 2 ^ e := by
            rw [bound, ← zpow_natCast, ← zpow_add₀ (by norm_num)]
            refine zpow_le_zpow_right₀ (by norm_num) ?_
            simp only [maxExponent] at hover
            push_cast
            omega
        _ ≤ m * 2 ^ e := by gcongr
    · rename_i hover
      refine .inl ⟨m, e, rfl, .inr ⟨Nat.pos_of_ne_zero hzero, hlt, hmin,
        by omega, ?_⟩, rfl, ?_⟩
      · by_cases hleast : e = minExponent
        · exact .inr hleast
        · exact .inl (hlow hleast)
      · have hm : (m : ℚ) < 2 ^ 53 := by exact_mod_cast hlt
        calc (m : ℚ) * 2 ^ e < 2 ^ 53 * 2 ^ e := by gcongr
          _ ≤ bound := by
            rw [bound, ← zpow_natCast, ← zpow_add₀ (by norm_num)]
            refine zpow_le_zpow_right₀ (by norm_num) ?_
            simp only [maxExponent] at hover
            push_cast
            omega

/-- The number nearest to a ratio is one of the format. -/
theorem canonical_ofRatio (negative : Bool) (num : Nat) {den : Nat}
    (hden : 0 < den) : (ofRatio negative num den).Canonical := by
  rcases Nat.eq_zero_or_pos num with rfl | hnum
  · exact canonical_zeroOf negative
  · rcases ofRatio_cases negative hnum hden with
      ⟨m, e, h, hcanonical, -⟩ | ⟨h, -⟩
    · rw [h]
      exact hcanonical
    · rw [h]
      trivial

/-- The number nearest to a ratio depends on the ratio alone. -/
theorem ofRatio_congr (negative : Bool) {num den num' den' : Nat}
    (hden : 0 < den) (hden' : 0 < den')
    (h : (num : ℚ) / den = num' / den') :
    ofRatio negative num den = ofRatio negative num' den' := by
  have hzero : ∀ {a b : Nat}, 0 < b → ((a : ℚ) / b = 0 ↔ a = 0) := by
    intro a b hb
    rw [div_eq_zero_iff, Nat.cast_eq_zero, Nat.cast_eq_zero]
    omega
  rcases Nat.eq_zero_or_pos num with rfl | hnum
  · have hnum' : num' = 0 := by rw [← hzero hden', ← h, hzero hden]
    rw [ofRatio, ofRatio, if_pos rfl, if_pos hnum']
  · have hnum' : 0 < num' := Nat.pos_of_ne_zero fun h0 => hnum.ne' <| by
      rw [← hzero hden, h, hzero hden', h0]
    have hm : ∀ e, roundHalfEven (num * pow2 (-e)) (den * pow2 e) =
        roundHalfEven (num' * pow2 (-e)) (den' * pow2 e) := by
      intro e
      rw [roundHalfEven_eq_nearest _ (Nat.mul_pos hden (pow2_pos e)),
        roundHalfEven_eq_nearest _ (Nat.mul_pos hden' (pow2_pos e)),
        ratio_scaled, ratio_scaled, h]
    simp only [ofRatio, if_neg hnum.ne', if_neg hnum'.ne',
      floorLog2_eq hnum hden, floorLog2_eq hnum' hden', h, hm]

/-- A number of the format is the nearest one to its own size. -/
theorem ofRatio_exact {negative : Bool} {m : Nat} {e : Int}
    (h : (Double.finite negative m e).Canonical) :
    ofRatio negative (m * pow2 e) (pow2 (-e)) = .finite negative m e := by
  rcases h with ⟨rfl, rfl⟩ | ⟨hm, hlt, hmin, hmax, hnormal⟩
  · rw [ofRatio, if_pos (Nat.zero_mul _)]
    rfl
  have hnum : 0 < m * pow2 e := Nat.mul_pos hm (pow2_pos e)
  have hratio : ((m * pow2 e : Nat) : ℚ) / (pow2 (-e) : Nat) = m * 2 ^ e := by
    rw [← pow2_div e, Nat.cast_mul, mul_div_assoc]
  have hr : (0 : ℚ) < m * 2 ^ e := by positivity
  have hlog : Int.log 2 ((m : ℚ) * 2 ^ e) < e + 53 := by
    rw [← Int.lt_zpow_iff_log_lt (by decide) hr, zpow_add₀ (by norm_num),
      mul_comm]
    have hlt : (m : ℚ) < 2 ^ (53 : Int) := by exact_mod_cast hlt
    rw [Nat.cast_ofNat]
    gcongr
  have hgrid : grid ((m : ℚ) * 2 ^ e) = e := by
    rw [grid]
    rcases hnormal with hnormal | rfl
    · have hlow : e + 52 ≤ Int.log 2 ((m : ℚ) * 2 ^ e) := by
        rw [← Int.zpow_le_iff_le_log (by decide) hr,
          zpow_add₀ (by norm_num), mul_comm]
        have hnormal : (2 : ℚ) ^ (52 : Int) ≤ m := by exact_mod_cast hnormal
        rw [Nat.cast_ofNat]
        gcongr
      omega
    · omega
  have hnearest : roundHalfEven (m * pow2 e * pow2 (-e))
      (pow2 (-e) * pow2 e) = m := by
    rw [roundHalfEven_eq_nearest _ (Nat.mul_pos (pow2_pos _) (pow2_pos _)),
      ratio_scaled, hratio, mul_div_cancel_right₀ _ (by positivity),
      nearest_natCast]
  have hexp : max (floorLog2 (m * pow2 e) (pow2 (-e)) - 52) minExponent =
      e := by
    rw [floorLog2_eq hnum (pow2_pos _), hratio]
    exact hgrid
  simp only [ofRatio, if_neg hnum.ne', hexp, hnearest]
  rw [if_neg (show m ≠ pow2 53 from fun h => absurd hlt (by rw [h]; decide))]
  simp only [if_neg hm.ne', if_neg (show ¬e > maxExponent by omega)]

-- =========================================================== ordering

/-- The rational number that a finite number stands for. -/
def value : Double → ℚ
  | .finite negative m e => (if negative then -1 else 1) * (m * 2 ^ e)
  | _ => 0

theorem numerator_mul (negative : Bool) (m : Nat) {e₀ e : Int}
    (h : e₀ ≤ e) : (numerator negative m e e₀ : ℚ) * 2 ^ e₀ =
      (Double.finite negative m e).value := by
  have hpow : ((pow2 (e - e₀) : Nat) : ℚ) * 2 ^ e₀ = 2 ^ e := by
    rw [cast_pow2 (by omega), ← zpow_add₀ (by norm_num)]
    congr 1
    omega
  cases negative <;> simp [numerator, value, mul_assoc, hpow]

/-- Finite numbers are compared as the rational numbers they stand for. -/
theorem lt_iff {x y : Double} (hx : x.isFinite = true)
    (hy : y.isFinite = true) : x.lt y = true ↔ x.value < y.value := by
  obtain ⟨a, m, e, rfl⟩ : ∃ a m e, x = .finite a m e := by
    cases x <;> simp_all [isFinite]
  obtain ⟨b, n, f, rfl⟩ : ∃ b n f, y = .finite b n f := by
    cases y <;> simp_all [isFinite]
  simp only [lt, decide_eq_true_eq]
  rw [← numerator_mul a m (min_le_left e f),
    ← numerator_mul b n (min_le_right e f),
    mul_lt_mul_iff_left₀ (by positivity), Int.cast_lt]

/-- Finite numbers are ordered as their values are. -/
theorem le_iff {x y : Double} (hx : x.isFinite = true)
    (hy : y.isFinite = true) : x.le y = true ↔ x.value ≤ y.value := by
  have hlt := lt_iff hx hy
  obtain ⟨a, m, e, rfl⟩ : ∃ a m e, x = .finite a m e := by
    cases x <;> simp_all [isFinite]
  obtain ⟨b, n, f, rfl⟩ : ∃ b n f, y = .finite b n f := by
    cases y <;> simp_all [isFinite]
  rw [le, Bool.or_eq_true, hlt, le_iff_lt_or_eq]
  refine or_congr_right ?_
  simp only [same, beq_iff_eq]
  rw [← numerator_mul a m (min_le_left e f),
    ← numerator_mul b n (min_le_right e f),
    mul_left_inj' (by positivity), Int.cast_inj]

/-- The number is greater than a rational number. -/
def Exceeds (q : ℚ) : Double → Prop
  | .nan => False
  | .infinite negative => negative = false
  | x => q < x.value

theorem lt_iff_exceeds {x : Double} (hx : x.isFinite = true) (y : Double) :
    x.lt y = true ↔ y.Exceeds x.value := by
  cases y with
  | finite b n f => exact lt_iff hx rfl
  | _ => cases x <;> simp_all [isFinite, lt, Exceeds]

theorem Exceeds.of_le {p q : ℚ} {y : Double} (h : y.Exceeds q)
    (hle : p ≤ q) : y.Exceeds p := by
  cases y with
  | finite => exact hle.trans_lt h
  | _ => exact h

/-- The number nearest to a rational number. -/
def rounded (q : ℚ) : Double := ofRatio (q < 0) q.num.natAbs q.den

theorem natAbs_div_den (q : ℚ) : (q.num.natAbs : ℚ) / q.den = |q| := by
  conv_rhs => rw [← Rat.num_div_den q, abs_div, Nat.abs_cast]
  rw [← Int.cast_abs, Int.abs_eq_natAbs, Int.cast_natCast]

/-- Whether the number of a ratio exceeds a bound is told by where the
ratio is brought. -/
theorem exceeds_ofRatio (negative : Bool) {num den : Nat} (hnum : 0 < num)
    (hden : 0 < den) (q : ℚ) :
    (ofRatio negative num den).Exceeds q ↔
      if negative then brought ((num : ℚ) / den) < bound ∧
        q < -brought ((num : ℚ) / den)
      else bound ≤ brought ((num : ℚ) / den) ∨
        q < brought ((num : ℚ) / den) := by
  rcases ofRatio_cases negative hnum hden with
    ⟨m, e, h, -, hsize, hlt⟩ | ⟨h, hle⟩
  · rw [h]
    cases negative with
    | false => simp [Exceeds, value, hsize, not_le.2 hlt]
    | true => simp [Exceeds, value, hsize, hlt]
  · rw [h]
    cases negative with
    | false => simp [Exceeds, hle]
    | true => simp [Exceeds, not_lt.2 hle]

/-- What is nearest to a rational number, by its sign. -/
theorem exceeds_rounded (q r : ℚ) :
    (rounded r).Exceeds q ↔
      if r = 0 then q < 0
      else if r < 0 then brought (-r) < bound ∧ q < -brought (-r)
      else bound ≤ brought r ∨ q < brought r := by
  rw [rounded]
  rcases eq_or_ne r 0 with rfl | hr
  · simp [ofRatio, Exceeds, zeroOf, value]
  · have hnum : 0 < r.num.natAbs := by
      rw [Int.natAbs_pos]
      exact Rat.num_ne_zero.2 hr
    rw [exceeds_ofRatio _ hnum r.den_pos, natAbs_div_den, if_neg hr]
    by_cases hneg : r < 0
    · simp [hneg, abs_of_neg hneg]
    · simp [hneg, abs_of_nonneg (not_lt.1 hneg)]

/-- Of two rational numbers the greater one has no smaller nearest
number. -/
theorem Exceeds.mono {q r r' : ℚ} (h : (rounded r).Exceeds q)
    (hle : r ≤ r') : (rounded r').Exceeds q := by
  rw [exceeds_rounded] at h ⊢
  rcases lt_trichotomy r 0 with hr | rfl | hr
  · rw [if_neg hr.ne, if_pos hr] at h
    have hq : q < 0 := h.2.trans_le (neg_nonpos.2 (brought_nonneg _))
    rcases lt_trichotomy r' 0 with hr' | rfl | hr'
    · have hb : brought (-r') ≤ brought (-r) :=
        brought_le (by linarith) (by linarith)
      rw [if_neg hr'.ne, if_pos hr']
      exact ⟨hb.trans_lt h.1, by linarith [h.2]⟩
    · rwa [if_pos rfl]
    · rw [if_neg hr'.ne', if_neg hr'.not_gt]
      exact .inr (hq.trans_le (brought_nonneg r'))
  · rw [if_pos rfl] at h
    rcases hle.eq_or_lt with rfl | hr'
    · rwa [if_pos rfl]
    · rw [if_neg hr'.ne', if_neg hr'.not_gt]
      exact .inr (h.trans_le (brought_nonneg r'))
  · have hr' : 0 < r' := hr.trans_le hle
    have hb : brought r ≤ brought r' := brought_le hr hle
    rw [if_neg hr.ne', if_neg hr.not_gt] at h
    rw [if_neg hr'.ne', if_neg hr'.not_gt]
    exact h.imp (·.trans hb) (·.trans_le hb)

-- ========================================================= arithmetic

/-- A sum is the number nearest to the exact sum, but for the sign of a
zero. -/
theorem exceeds_add {x y : Double} (hx : x.isFinite = true)
    (hy : y.isFinite = true) (q : ℚ) :
    (x + y).Exceeds q ↔ (rounded (x.value + y.value)).Exceeds q := by
  obtain ⟨a, m, e, rfl⟩ : ∃ a m e, x = .finite a m e := by
    cases x <;> simp_all [isFinite]
  obtain ⟨b, n, f, rfl⟩ : ∃ b n f, y = .finite b n f := by
    cases y <;> simp_all [isFinite]
  rw [← numerator_mul a m (min_le_left e f),
    ← numerator_mul b n (min_le_right e f), ← add_mul, ← Int.cast_add]
  show (add (.finite a m e) (.finite b n f)).Exceeds q ↔ _
  simp only [add]
  generalize numerator a m e (min e f) + numerator b n f (min e f) = s
  generalize min e f = g
  by_cases hs : s = 0
  · rw [if_pos hs, hs, Int.cast_zero, zero_mul, exceeds_rounded, if_pos rfl]
    simp [zeroOf, Exceeds, value]
  · rw [if_neg hs, ofScaled, rounded]
    have hneg : ((s : ℚ) * 2 ^ g < 0) = (s < 0) := by
      rw [← zero_mul ((2 : ℚ) ^ g), mul_lt_mul_iff_left₀ (by positivity),
        Int.cast_lt_zero]
    have habs : (((s.natAbs * pow2 g : Nat) : ℚ) / (pow2 (-g) : Nat)) =
        (((s : ℚ) * 2 ^ g).num.natAbs : ℚ) / ((s : ℚ) * 2 ^ g).den := by
      rw [natAbs_div_den, abs_mul, ← Int.cast_abs, Int.abs_eq_natAbs,
        Int.cast_natCast, Nat.cast_mul, mul_div_assoc, pow2_div,
        abs_of_pos (show (0 : ℚ) < 2 ^ g by positivity)]
    rw [ofRatio_congr _ (pow2_pos _) (Rat.den_pos _) habs]
    simp only [hneg]

theorem isFinite_neg (x : Double) : x.neg.isFinite = x.isFinite := by
  cases x <;> rfl

/-- A greater minuend makes no smaller difference. -/
theorem Exceeds.sub_mono {x x' c : Double} {q : ℚ}
    (h : (x - c).Exceeds q) (hx : x.isFinite = true)
    (hx' : x'.isFinite = true) (hle : x.value ≤ x'.value) :
    (x' - c).Exceeds q := by
  by_cases hc : c.isFinite = true
  · have hc' : c.neg.isFinite = true := (isFinite_neg c).trans hc
    have h : (x + c.neg).Exceeds q := h
    show (x' + c.neg).Exceeds q
    rw [exceeds_add hx hc'] at h
    rw [exceeds_add hx' hc']
    exact h.mono (by linarith)
  · obtain ⟨a, m, e, rfl⟩ : ∃ a m e, x = .finite a m e := by
      cases x <;> simp_all [isFinite]
    obtain ⟨b, n, f, rfl⟩ : ∃ b n f, x' = .finite b n f := by
      cases x' <;> simp_all [isFinite]
    cases c with
    | finite => exact absurd rfl hc
    | _ => exact h

theorem ofRatio_ne_nan (negative : Bool) (num : Nat) {den : Nat}
    (hden : 0 < den) : ofRatio negative num den ≠ .nan := by
  rcases Nat.eq_zero_or_pos num with rfl | hnum
  · simp [ofRatio, zeroOf]
  · rcases ofRatio_cases negative hnum hden with ⟨m, e, h, -⟩ | ⟨h, -⟩ <;>
      simp [h]

/-- Finite numbers have a difference, if perhaps an infinite one. -/
theorem sub_ne_nan {x y : Double} (hx : x.isFinite = true)
    (hy : y.isFinite = true) : x - y ≠ .nan := by
  show add x y.neg ≠ .nan
  obtain ⟨a, m, e, rfl⟩ : ∃ a m e, x = .finite a m e := by
    cases x <;> simp_all [isFinite]
  obtain ⟨b, n, f, rfl⟩ : ∃ b n f, y = .finite b n f := by
    cases y <;> simp_all [isFinite]
  simp only [neg, add]
  split
  · simp [zeroOf]
  · exact ofRatio_ne_nan _ _ (pow2_pos _)

/-- Of two numbers either the first is smaller or the second is at most as
great. -/
theorem lt_eq_false_iff {x y : Double} (hx : x ≠ .nan) (hy : y ≠ .nan) :
    x.lt y = false ↔ y.le x = true := by
  cases x with
  | nan => exact absurd rfl hx
  | infinite a =>
    cases y with
    | nan => exact absurd rfl hy
    | infinite b => cases a <;> cases b <;> decide
    | finite b n f => cases a <;> simp [lt, le, same]
  | finite a m e =>
    cases y with
    | nan => exact absurd rfl hy
    | infinite b => cases b <;> simp [lt, le, same]
    | finite b n f =>
      rw [← Bool.not_eq_true, lt_iff rfl rfl, le_iff rfl rfl, not_lt]

/-- The place of a number in the order, with the infinite ones at its two
ends. -/
def rank : Double → WithBot (WithTop ℚ)
  | .nan | .infinite true => ⊥
  | .infinite false => (⊤ : WithTop ℚ)
  | x => (x.value : WithTop ℚ)

/-- Whatever is a number is compared by its place. -/
theorem lt_iff_rank {x y : Double} (hx : x ≠ .nan) (hy : y ≠ .nan) :
    x.lt y = true ↔ x.rank < y.rank := by
  cases x with
  | nan => exact absurd rfl hx
  | infinite a =>
    cases y with
    | nan => exact absurd rfl hy
    | infinite b => cases a <;> cases b <;> simp [lt, rank]
    | finite b n f => cases a <;> simp [lt, rank]
  | finite a m e =>
    cases y with
    | nan => exact absurd rfl hy
    | infinite b =>
      cases b with
      | false =>
        exact iff_of_true rfl (WithBot.coe_lt_coe.2 (WithTop.coe_lt_top _))
      | true => simp [lt, rank]
    | finite b n f =>
      rw [lt_iff rfl rfl]
      simp [rank]

theorem le_iff_rank {x y : Double} (hx : x ≠ .nan) (hy : y ≠ .nan) :
    x.le y = true ↔ x.rank ≤ y.rank := by
  rw [← lt_eq_false_iff hy hx, ← Bool.not_eq_true, lt_iff_rank hy hx, not_lt]

/-- A smaller subtrahend makes no smaller difference, and so none that
stays below a bound which the other one exceeds. -/
theorem lt_sub_anti {bound x c c' : Double} (hx : x.isFinite = true)
    (hc : c.isFinite = true) (hc' : c'.isFinite = true)
    (hle : c.le c' = true) (h : bound.lt (x - c') = true) :
    bound.lt (x - c) = true := by
  have hneg : ∀ y : Double, y.neg.value = -y.value := by
    intro y
    cases y with
    | finite negative m e => cases negative <;> simp [neg, value]
    | _ => simp [neg, value]
  have hexceeds : ∀ q, (x - c').Exceeds q → (x - c).Exceeds q := by
    intro q hq
    have hq : (x + c'.neg).Exceeds q := hq
    show (x + c.neg).Exceeds q
    rw [exceeds_add hx ((isFinite_neg c').trans hc'), hneg] at hq
    rw [exceeds_add hx ((isFinite_neg c).trans hc), hneg]
    rw [le_iff hc hc'] at hle
    exact hq.mono (by linarith)
  cases bound with
  | nan => exact absurd h (by simp [lt])
  | finite a m e =>
    rw [lt_iff_exceeds rfl] at h ⊢
    exact hexceeds _ h
  | infinite negative =>
    -- Below every rational number there is only one bound.
    have hbelow : ∀ y : Double, (infinite negative).lt y = true ↔
        negative = true ∧ ∃ q, y.Exceeds q := by
      intro y
      cases y with
      | nan => simp [lt, Exceeds]
      | infinite b => cases negative <;> cases b <;> simp [lt, Exceeds]
      | finite b n f =>
        cases negative with
        | false => simp [lt]
        | true => simpa [lt, Exceeds] using ⟨_, sub_one_lt _⟩
    rw [hbelow] at h ⊢
    exact ⟨h.1, h.2.imp hexceeds⟩

/-- A number of the format is the nearest one to what it stands for, but for
the sign of a zero. -/
theorem exceeds_rounded_value {x : Double} (h : x.Canonical)
    (hx : x.isFinite = true) (q : ℚ) :
    (rounded x.value).Exceeds q ↔ q < x.value := by
  obtain ⟨negative, m, e, rfl⟩ : ∃ negative m e, x = .finite negative m e := by
    cases x <;> simp_all [isFinite]
  rcases Nat.eq_zero_or_pos m with rfl | hm
  · simp [value, exceeds_rounded]
  · have hsize : (0 : ℚ) < m * 2 ^ e := by positivity
    have hsign : decide ((finite negative m e).value < 0) = negative := by
      cases negative with
      | false => simp [value, hsize.le]
      | true => simpa [value] using hsize
    have habs : |(finite negative m e).value| = m * 2 ^ e := by
      rw [value, abs_mul, abs_of_pos hsize]
      cases negative <;> simp
    have hratio : ((finite negative m e).value.num.natAbs : ℚ) /
        (finite negative m e).value.den =
          ((m * pow2 e : Nat) : ℚ) / (pow2 (-e) : Nat) := by
      rw [natAbs_div_den, habs, Nat.cast_mul, mul_div_assoc, pow2_div]
    rw [rounded, hsign, ofRatio_congr negative (Rat.den_pos _) (pow2_pos _)
      hratio, ofRatio_exact h]
    rfl

/-- An integer that is not negative, taken off, makes nothing greater. -/
theorem lt_sub_ofInt {x : Double} (h : x.Canonical)
    (hx : x.isFinite = true) {n : Int} (hn : 0 ≤ n) :
    x.lt (x - ofInt n) = false := by
  have hsign : decide (n < 0) = false := by simpa using hn
  have hneg : (ofInt n).neg = .infinite true ∨
      (ofInt n).neg.isFinite = true ∧ (ofInt n).neg.value ≤ 0 := by
    rw [ofInt, hsign]
    rcases Nat.eq_zero_or_pos n.natAbs with h0 | hpos
    · right
      simp [h0, ofRatio, zeroOf, neg, isFinite, value]
    · rcases ofRatio_cases false hpos Nat.one_pos with
        ⟨m, e, heq, -⟩ | ⟨heq, -⟩
      · right
        rw [heq]
        refine ⟨rfl, ?_⟩
        simp only [neg, value, Bool.not_false, if_true, neg_one_mul,
          neg_nonpos]
        positivity
      · left
        rw [heq]
        rfl
  rw [← Bool.not_eq_true, lt_iff_exceeds hx]
  show ¬(x + (ofInt n).neg).Exceeds x.value
  rcases hneg with hneg | ⟨hfinite, hle⟩
  · obtain ⟨a, m, e, rfl⟩ : ∃ a m e, x = .finite a m e := by
      cases x <;> simp_all [isFinite]
    rw [hneg]
    exact Bool.noConfusion
  · rw [exceeds_add hx hfinite]
    intro hexceeds
    have hself : (rounded x.value).Exceeds x.value :=
      hexceeds.mono (by linarith)
    rw [exceeds_rounded_value h hx] at hself
    exact lt_irrefl _ hself

end CallTrace.Number.Double
