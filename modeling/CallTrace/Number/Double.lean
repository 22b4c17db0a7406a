/-
Double-precision numbers, given exactly.

Times, rates and sizes are double-precision numbers: 53 binary digits and
a bounded exponent. Here a number is its sign, significand and exponent,
and an operation is the exact result brought to the nearest such number,
a tie going to the even neighbour. So a law about limits, ages or
statistics is a law about integers, and closed cases are computed by the
kernel.

`ofRatio` is the only place where rounding happens.
-/

namespace CallTrace.Number

/-- A double-precision number: `significand · 2 ^ exponent`, with a sign
that zero has too. -/
inductive Double where
  | nan
  | infinite (negative : Bool)
  | finite (negative : Bool) (significand : Nat) (exponent : Int)
deriving DecidableEq, Inhabited

namespace Double

/-- The least exponent: numbers below `2 ^ 52` times it lose digits. -/
def minExponent : Int := -1074

/-- The greatest exponent. -/
def maxExponent : Int := 971

/-- Zero with a sign; its exponent is written as zero. -/
def zeroOf (negative : Bool) : Double := .finite negative 0 0

def zero : Double := zeroOf false

-- ========================================================== rounding

/-- The integer nearest to a ratio, of two the even one. -/
def roundHalfEven (num den : Nat) : Nat :=
  let q := num / den
  let r := num % den
  if 2 * r < den then q
  else if 2 * r > den then q + 1
  else if q % 2 = 0 then q else q + 1

/-- `2 ^ e`, or one when `e` is negative. -/
def pow2 (e : Int) : Nat := Nat.pow 2 e.toNat

/-- The greatest `k` with `2 ^ k ≤ num / den`. -/
def floorLog2 (num den : Nat) : Int :=
  let k : Int := (num.log2 : Int) - den.log2
  if num * pow2 (-k) < den * pow2 k then k - 1 else k

/-- The double-precision number nearest to `num / den`. -/
def ofRatio (negative : Bool) (num den : Nat) : Double :=
  if num = 0 then zeroOf negative
  else
    let e := max (floorLog2 num den - 52) minExponent
    let m := roundHalfEven (num * pow2 (-e)) (den * pow2 e)
    let (m, e) := if m = pow2 53 then (pow2 52, e + 1) else (m, e)
    if m = 0 then zeroOf negative
    else if e > maxExponent then .infinite negative
    else .finite negative m e

/-- The double-precision number nearest to `m · 2 ^ e`. -/
def ofScaled (negative : Bool) (m : Nat) (e : Int) : Double :=
  ofRatio negative (m * pow2 e) (pow2 (-e))

/-- The number nearest to an integer. -/
def ofInt (n : Int) : Double := ofRatio (n < 0) n.natAbs 1

/-- The number nearest to a quotient of integers, the divisor positive. -/
def ofQuotient (num : Int) (den : Nat) : Double :=
  ofRatio (num < 0) num.natAbs den

-- ====================================================== exact reading

def isNegative : Double → Bool
  | .nan => false
  | .infinite negative => negative
  | .finite negative _ _ => negative

def isFinite : Double → Bool
  | .finite .. => true
  | _ => false

/-- A finite number's size as a ratio of integers. -/
def magnitude : Double → Nat × Nat
  | .finite _ m e => (m * pow2 e, pow2 (-e))
  | _ => (0, 1)

/-- The signed numerator of a finite number over `2 ^ e`, for an `e` that
is at most the number's exponent. -/
def numerator (negative : Bool) (m : Nat) (exponent e : Int) : Int :=
  let n : Int := m * pow2 (exponent - e)
  if negative then -n else n

/-- A finite number without its fraction. -/
def truncate : Double → Int
  | .finite negative m e =>
    let n : Int := (m * pow2 e) / pow2 (-e)
    if negative then -n else n
  | _ => 0

-- ======================================================== arithmetic

def neg : Double → Double
  | .nan => .nan
  | .infinite negative => .infinite !negative
  | .finite negative m e => .finite (!negative) m e

def add : Double → Double → Double
  | .nan, _ | _, .nan => .nan
  | .infinite a, .infinite b => if a = b then .infinite a else .nan
  | .infinite a, _ => .infinite a
  | _, .infinite b => .infinite b
  | .finite na ma ea, .finite nb mb eb =>
    let e := min ea eb
    let s := numerator na ma ea e + numerator nb mb eb e
    if s = 0 then zeroOf (na && nb)
    else ofScaled (s < 0) s.natAbs e

def sub (a b : Double) : Double := add a b.neg

def mul : Double → Double → Double
  | .nan, _ | _, .nan => .nan
  | .infinite a, .infinite b => .infinite (a != b)
  | .infinite a, .finite b m _ =>
    if m = 0 then .nan else .infinite (a != b)
  | .finite a m _, .infinite b =>
    if m = 0 then .nan else .infinite (a != b)
  | .finite na ma ea, .finite nb mb eb =>
    ofScaled (na != nb) (ma * mb) (ea + eb)

/-- Division; by zero it follows the sign of the dividend. -/
def div : Double → Double → Double
  | .nan, _ | _, .nan => .nan
  | .infinite _, .infinite _ => .nan
  | .infinite a, .finite b _ _ => .infinite (a != b)
  | .finite a _ _, .infinite b => zeroOf (a != b)
  | .finite na ma ea, .finite nb mb eb =>
    if mb = 0 then
      if ma = 0 then .nan else .infinite (na != nb)
    else
      ofRatio (na != nb) (ma * pow2 (ea - eb)) (mb * pow2 (eb - ea))

instance : Add Double := ⟨add⟩
instance : Sub Double := ⟨sub⟩
instance : Mul Double := ⟨mul⟩
instance : Div Double := ⟨div⟩

-- =========================================================== ordering

/-- `a < b`; false as soon as one of them is no number. -/
def lt : Double → Double → Bool
  | .nan, _ | _, .nan => false
  | .infinite a, .infinite b => a && !b
  | .infinite a, _ => a
  | _, .infinite b => !b
  | .finite na ma ea, .finite nb mb eb =>
    let e := min ea eb
    numerator na ma ea e < numerator nb mb eb e

/-- `a = b` as numbers, so the two zeros are equal. -/
def same : Double → Double → Bool
  | .nan, _ | _, .nan => false
  | .infinite a, .infinite b => a == b
  | .infinite _, _ | _, .infinite _ => false
  | .finite na ma ea, .finite nb mb eb =>
    let e := min ea eb
    numerator na ma ea e == numerator nb mb eb e

/-- `a ≤ b`; false as soon as one of them is no number. -/
def le (a b : Double) : Bool := lt a b || same a b

end Double

end CallTrace.Number
