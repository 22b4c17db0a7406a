/-
Decimal text of double-precision numbers.

Three forms are written. The shortest form has the fewest digits that read
back as the same number, and of those the nearest. The fixed form has a
given number of places. The general form has six significant digits
without trailing zeros. All round the exact value, a tie going to the even
digit.

`Double.ofDecimal` reads a decimal; the shortest form is found by reading
back, so that a shortest form reads back as the number it was written for.
-/
import CallTrace.Number.Double

namespace CallTrace.Number

/-- Decimal digits of a natural number. -/
def digitsOf (n : Nat) : List Char := Nat.toDigits 10 n

/-- An integer in decimal. -/
def intText (n : Int) : List Char :=
  if n < 0 then '-' :: digitsOf n.natAbs else digitsOf n.natAbs

namespace Double

/-- `10 ^ e`, or one when `e` is negative. -/
def pow10 (e : Int) : Nat := Nat.pow 10 e.toNat

/-- The number nearest to `digits · 10 ^ e`. Exponents far outside the
range are answered without computing the power. -/
def ofDecimal (negative : Bool) (digits : Nat) (e : Int) : Double :=
  let size : Int := (digitsOf digits).length + e
  if digits = 0 ∨ size < -400 then zeroOf negative
  else if size > 400 then .infinite negative
  else ofRatio negative (digits * pow10 e) (pow10 (-e))

/-- The greatest `k` with `10 ^ k ≤ num / den`, both positive. -/
def floorLog10 (num den : Nat) : Int :=
  if den ≤ num then ((digitsOf (num / den)).length : Int) - 1
  else
    let d := (digitsOf (den / num)).length
    if den ≤ num * Nat.pow 10 (d - 1) then 1 - (d : Int) else -(d : Int)

/-- A decimal number: `0.d₁d₂d₃… · 10 ^ point`. -/
structure Digits where
  digits : List Char
  point : Int
deriving DecidableEq

/-- Digits without trailing zeros, at least one. -/
def dropZeros (ds : List Char) : List Char :=
  match (ds.reverse.dropWhile (· == '0')).reverse with
  | [] => ['0']
  | kept => kept

/-- The digits of `n · 10 ^ e`. -/
def Digits.ofScaled (n : Nat) (e : Int) : Digits :=
  let ds := digitsOf n
  ⟨dropZeros ds, ds.length + e⟩

/-- The two neighbours of `num / den` on the grid of `10 ^ e`, the nearer
one first. -/
def neighbours (num den : Nat) (e : Int) : List Nat :=
  let n := num * pow10 (-e)
  let d := den * pow10 e
  let below := n / d
  let nearest := roundHalfEven n d
  if nearest = below then [below, below + 1] else [below + 1, below]

/-- The fewest digits that read back as the same number, the nearest of
those. Where no such decimal has up to seventeen digits, all digits of the
exact value are given. -/
def shortest (negative : Bool) (m : Nat) (e : Int) : Digits :=
  let x : Double := .finite negative m e
  let (num, den) := x.magnitude
  if m = 0 then ⟨['0'], 1⟩
  else
    let k := floorLog10 num den
    let found := (List.range 17).findSome? fun (i : Nat) =>
      let grid := k - i
      ((neighbours num den grid).find? fun n =>
        ofDecimal negative n grid = x).map (Digits.ofScaled · grid)
    found.getD (Digits.ofScaled (m * Nat.pow 5 (-e).toNat * pow2 e) (min e 0))

/-- An exponent: sign, and at least two digits. -/
def exponentText (e : Int) : List Char :=
  let ds := digitsOf e.natAbs
  let padded := if ds.length < 2 then '0' :: ds else ds
  'e' :: (if e < 0 then '-' else '+') :: padded

/-- One digit before the point, the others after it, and the exponent. -/
def Digits.scientific (d : Digits) : List Char :=
  match d.digits with
  | [] => []
  | first :: [] => first :: exponentText (d.point - 1)
  | first :: rest => first :: '.' :: rest ++ exponentText (d.point - 1)

/-- All digits in their places. `whole` says what stands in for the
fraction of a whole number. -/
def Digits.positional (d : Digits) (whole : List Char) : List Char :=
  if d.point ≤ 0 then
    '0' :: '.' :: List.replicate (-d.point).toNat '0' ++ d.digits
  else
    let n := d.point.toNat
    if d.digits.length ≤ n then
      d.digits ++ List.replicate (n - d.digits.length) '0' ++ whole
    else d.digits.take n ++ '.' :: d.digits.drop n

def signed (negative : Bool) (cs : List Char) : List Char :=
  if negative then '-' :: cs else cs

/-- The shortest form. From `10 ^ 16` on and below `10 ^ -4` it has an
exponent, and a whole number in places has `.0` at its end. -/
def text : Double → List Char
  | .nan => "nan".toList
  | .infinite negative => signed negative "inf".toList
  | .finite negative m e =>
    let d := shortest negative m e
    signed negative <|
      if -4 < d.point ∧ d.point ≤ 16 then d.positional ".0".toList
      else d.scientific

/-- The size of a finite number in units of `10 ^ -places`. -/
private def unitsOf (x : Double) (places : Nat) : Nat :=
  let (num, den) := x.magnitude
  roundHalfEven (num * Nat.pow 10 places) den

/-- The form with a fixed number of places. -/
def fixed (places : Nat) : Double → List Char
  | .nan => "nan".toList
  | .infinite negative => signed negative "inf".toList
  | .finite negative m e =>
    let ds := digitsOf (unitsOf (.finite negative m e) places)
    let ds := List.replicate (places + 1 - ds.length) '0' ++ ds
    let n := ds.length - places
    signed negative <|
      if places = 0 then ds else ds.take n ++ '.' :: ds.drop n

/-- A rate as a whole percentage. -/
def percent (x : Double) : List Char :=
  fixed 0 (x * ofInt 100) ++ ['%']

/-- The general form: six significant digits without trailing zeros, with
an exponent from `10 ^ 6` on and below `10 ^ -4`. -/
def general : Double → List Char
  | .nan => "nan".toList
  | .infinite negative => signed negative "inf".toList
  | .finite negative m e =>
    let (num, den) := magnitude (.finite negative m e)
    let d : Digits :=
      if m = 0 then ⟨['0'], 1⟩
      else
        let grid := floorLog10 num den - 5
        Digits.ofScaled
          (roundHalfEven (num * pow10 (-grid)) (den * pow10 grid))
          grid
    signed negative <|
      if -4 < d.point ∧ d.point ≤ 6 then d.positional [] else d.scientific

/-- The number nearest to this one rounded to a number of places. -/
def roundTo (places : Nat) : Double → Double
  | .finite negative m e =>
    ofRatio negative (unitsOf (.finite negative m e) places) (Nat.pow 10 places)
  | x => x

end Double

end CallTrace.Number
