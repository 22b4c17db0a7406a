/-
Numbers as people write them.

A sign may stand in front. The digits of a whole number may be grouped by
single underscores; a number with places may have a point and an exponent,
or be one of the words for what is not finite. Blanks around a number are
no part of it and are cut off first.
-/
import CallTrace.Number.Decimal
import CallTrace.Text.Blank
import CallTrace.Text.Word

namespace CallTrace.Number

/-- Blanks that may stand around a number: all but the information
separators. -/
def isMargin (c : Char) : Bool :=
  Text.isBlank c && !(0x1c ≤ c.toNat && c.toNat ≤ 0x1f)

/-- The number written by ASCII digits. -/
def natOfDigits (ds : List Char) : Nat :=
  ds.foldl (fun n c => 10 * n + (c.toNat - '0'.toNat)) 0

/-- The sign in front, true if it is a minus, and what follows. -/
def splitSign : List Char → Bool × List Char
  | '-' :: r => (true, r)
  | '+' :: r => (false, r)
  | r => (false, r)

/-- The text without the underscores in it, each of which has to stand
between two digits. -/
def ungroup? (afterDigit : Bool) : List Char → Option (List Char)
  | [] => some []
  | ['_'] => none
  | '_' :: c :: rest =>
    if afterDigit && c.isDigit then (ungroup? true rest).map (c :: ·)
    else none
  | c :: rest => (ungroup? c.isDigit rest).map (c :: ·)

/-- A whole number: a sign, and digits in groups. -/
def intOfText? (cs : List Char) : Option Int :=
  let (negative, ds) := splitSign cs
  match ungroup? false ds with
  | some ds =>
    if ds.isEmpty || !ds.all Char.isDigit then none
    else
      let n : Int := natOfDigits ds
      some (if negative then -n else n)
  | none => none

/-- The exponent of a number and its sign. -/
def exponent? : List Char → Option Int
  | [] => some 0
  | e :: r =>
    let (down, ds) := splitSign r
    if !(e == 'e' || e == 'E') || ds.isEmpty || !ds.all Char.isDigit then
      none
    else
      let n : Int := natOfDigits ds
      some (if down then -n else n)

/-- Digits, a fraction, an exponent, each of which may be missing as long
as a digit stands before the exponent. -/
def decimal? (negative : Bool) (cs : List Char) : Option Double :=
  let (whole, rest) := cs.span Char.isDigit
  let (fraction, rest) :=
    match rest with
    | '.' :: r => r.span Char.isDigit
    | r => ([], r)
  if whole.isEmpty && fraction.isEmpty then none
  else
    (exponent? rest).map fun e =>
      .ofDecimal negative (natOfDigits (whole ++ fraction))
        (e - fraction.length)

/-- A number, or a word for one that is not finite. -/
def doubleOfText? (cs : List Char) : Option Double :=
  let (negative, body) := splitSign cs
  let lowered := String.ofList (body.map Char.toLower)
  if lowered == "inf" || lowered == "infinity" then some (.infinite negative)
  else if lowered == "nan" then some .nan
  else decimal? negative body

-- ============================================================= scripts

/-- The ASCII digit for a digit of any script. -/
def asciiDigit (c : Char) : Char :=
  match Text.digitRanges.find? fun r => r.1 ≤ c.toNat && c.toNat ≤ r.2 with
  | some (lo, _) => Char.ofNat ('0'.toNat + (c.toNat - lo) % 10)
  | none => c

/-- A number as it is typed, in ASCII digits and without blanks around. -/
private def typed (s : String) : List Char :=
  Text.trimOf isMargin (s.toList.map asciiDigit)

/-- The greatest number of digits of a whole number that is typed. -/
def maxTypedDigits : Nat := 4300

/-- A whole number in the digits of any script. -/
def typedInt? (s : String) : Option Int :=
  let cs := typed s
  if maxTypedDigits < cs.countP Char.isDigit then none else intOfText? cs

/-- A number in the digits of any script, in groups. -/
def typedDouble? (s : String) : Option Double :=
  (ungroup? false (typed s)).bind doubleOfText?

end CallTrace.Number
