/-
Reading JSON documents.

Besides the standard grammar the words `NaN`, `Infinity` and `-Infinity`
are read as numbers, and control characters inside strings are refused.
Two failures have nothing to do with the grammar. An integer of more than
4300 digits is not taken, and neither are lists and objects that are
nested too deep: the reader calls itself for each of them, and gives up
where it would have to do so once too often, whatever comes behind.

`fuel` bounds the nesting and the number of parts together; a part takes
at most two units and has at least one character of its own, so twice the
length of the text is enough.
-/
import CallTrace.Json.Value
import CallTrace.Number.Written

namespace CallTrace.Json

open Number (Double natOfDigits)

/-- Why a text is not read. -/
inductive ReadError where
  /-- The text is not a JSON document. -/
  | malformed
  /-- An integer with too many digits. -/
  | oversized (digits : Nat)
  /-- A list or an object, whichever it is, at too deep a level. -/
  | tooDeep (kind : String)
deriving DecidableEq

/-- The greatest number of digits of an integer. -/
def maxIntDigits : Nat := 4300

/-- How many lists and objects may stand inside one another. It is what is
left of the 1000 calls that the interpreter allows when a file is read on a
thread of its own. -/
def maxNesting : Nat := 989

def isSpace (c : Char) : Bool :=
  c == ' ' || c == '\t' || c == '\n' || c == '\r'

def skipSpace (cs : List Char) : List Char := cs.dropWhile isSpace

def hexValue? (c : Char) : Option Nat :=
  if c.isDigit then some (c.toNat - '0'.toNat)
  else if 'a' ≤ c ∧ c ≤ 'f' then some (c.toNat - 'a'.toNat + 10)
  else if 'A' ≤ c ∧ c ≤ 'F' then some (c.toNat - 'A'.toNat + 10)
  else none

def hex4? : List Char → Option (Nat × List Char)
  | a :: b :: c :: d :: rest => do
    let a ← hexValue? a
    let b ← hexValue? b
    let c ← hexValue? c
    let d ← hexValue? d
    some (((a * 16 + b) * 16 + c) * 16 + d, rest)
  | _ => none

-- =========================================================== strings

/-- The letter escapes. -/
def letterEscape? : Char → Option Char
  | '"' => some '"'
  | '\\' => some '\\'
  | '/' => some '/'
  | 'b' => some (Char.ofNat 0x08)
  | 'f' => some (Char.ofNat 0x0c)
  | 'n' => some '\n'
  | 'r' => some '\r'
  | 't' => some '\t'
  | _ => none

/-- What a string holds: its characters, and whether half of a surrogate
pair stood alone in it. -/
structure StringRead where
  chars : List Char
  broken : Bool
  rest : List Char

/-- The characters up to the closing quote. `done` holds those already
read, reversed. -/
def readString (fuel : Nat) (done : List Char) (broken : Bool)
    (cs : List Char) : Except ReadError StringRead :=
  match fuel with
  | 0 => .error .malformed
  | fuel + 1 =>
    match cs with
    | [] => .error .malformed
    | '"' :: rest => .ok ⟨done.reverse, broken, rest⟩
    | '\\' :: 'u' :: rest =>
      match hex4? rest with
      | none => .error .malformed
      | some (hi, after) =>
        if 0xd800 ≤ hi ∧ hi ≤ 0xdbff then
          match after with
          | '\\' :: 'u' :: more =>
            match hex4? more with
            | none => .error .malformed
            | some (lo, afterLow) =>
              if 0xdc00 ≤ lo ∧ lo ≤ 0xdfff then
                let n := 0x10000 + (hi - 0xd800) * 0x400 + (lo - 0xdc00)
                readString fuel (Char.ofNat n :: done) broken afterLow
              else readString fuel (Char.ofNat 0xfffd :: done) true after
          | _ => readString fuel (Char.ofNat 0xfffd :: done) true after
        else if 0xdc00 ≤ hi ∧ hi ≤ 0xdfff then
          readString fuel (Char.ofNat 0xfffd :: done) true after
        else readString fuel (Char.ofNat hi :: done) broken after
    | '\\' :: c :: rest =>
      match letterEscape? c with
      | some e => readString fuel (e :: done) broken rest
      | none => .error .malformed
    | c :: rest =>
      if c.toNat < 0x20 then .error .malformed
      else readString fuel (c :: done) broken rest

-- =========================================================== numbers

/-- The integer part: a zero alone, or digits without a leading zero. -/
def readWhole : List Char → Option (List Char × List Char)
  | '0' :: rest => some (['0'], rest)
  | cs =>
    match cs.span (·.isDigit) with
    | ([], _) => none
    | found => some found

/-- The digits after a point, none when no fraction follows. -/
def readFraction : List Char → List Char × List Char
  | '.' :: rest =>
    match rest.span (·.isDigit) with
    | ([], _) => ([], '.' :: rest)
    | found => found
  | cs => ([], cs)

/-- The exponent, when one follows. -/
def readExponent (cs : List Char) : Option (Int × List Char) :=
  match cs with
  | e :: rest =>
    if e == 'e' || e == 'E' then
      let (negative, rest) :=
        match rest with
        | '-' :: r => (true, r)
        | '+' :: r => (false, r)
        | r => (false, r)
      match rest.span (·.isDigit) with
      | ([], _) => none
      | (ds, after) =>
        let n : Int := natOfDigits ds
        some (if negative then -n else n, after)
    else none
  | [] => none

/-- A number after its sign. -/
def readNumber (negative : Bool) (cs : List Char) :
    Except ReadError (Json × List Char) :=
  match readWhole cs with
  | none => .error .malformed
  | some (whole, rest) =>
    let (fraction, afterFraction) := readFraction rest
    match readExponent afterFraction with
    | some (e, after) =>
      .ok (.float (Double.ofDecimal negative
        (natOfDigits (whole ++ fraction)) (e - fraction.length)), after)
    | none =>
      if fraction.isEmpty then
        if whole.length > maxIntDigits then .error (.oversized whole.length)
        else
          let n : Int := natOfDigits whole
          .ok (.int (if negative then -n else n), rest)
      else
        .ok (.float (Double.ofDecimal negative
          (natOfDigits (whole ++ fraction)) (-fraction.length)),
          afterFraction)

-- ========================================================= documents

/-- What follows a word that the text starts with. -/
def afterWord? (w : String) (cs : List Char) : Option (List Char) :=
  if w.toList.isPrefixOf cs then some (cs.drop w.length) else none

/-- A value without parts. -/
def readLeaf (cs : List Char) : Except ReadError (Json × List Char) :=
  match afterWord? "null" cs, afterWord? "true" cs, afterWord? "false" cs,
      afterWord? "NaN" cs, afterWord? "Infinity" cs,
      afterWord? "-Infinity" cs with
  | some rest, _, _, _, _, _ => .ok (.null, rest)
  | _, some rest, _, _, _, _ => .ok (.bool true, rest)
  | _, _, some rest, _, _, _ => .ok (.bool false, rest)
  | _, _, _, some rest, _, _ => .ok (.float .nan, rest)
  | _, _, _, _, some rest, _ => .ok (.float (.infinite false), rest)
  | _, _, _, _, _, some rest => .ok (.float (.infinite true), rest)
  | _, _, _, _, _, _ =>
    match cs with
    | '-' :: rest => readNumber true rest
    | _ => readNumber false cs

def ofString (r : StringRead) : Json :=
  if r.broken then .brokenText (String.ofList r.chars)
  else .text (String.ofList r.chars)

mutual

/-- A value at the start of the text, and what follows it. Lists and
objects may be nested `levels` deep in it. -/
def readValue (fuel levels : Nat) (cs : List Char) :
    Except ReadError (Json × List Char) :=
  match fuel with
  | 0 => .error .malformed
  | fuel + 1 =>
    match cs with
    | '"' :: rest => do
      let r ← readString (rest.length + 1) [] false rest
      .ok (ofString r, r.rest)
    | '[' :: rest =>
      match levels with
      | 0 => .error (.tooDeep "array")
      | levels + 1 =>
        match skipSpace rest with
        | ']' :: after => .ok (.list [], after)
        | inner => readItems fuel levels [] inner
    | '{' :: rest =>
      match levels with
      | 0 => .error (.tooDeep "object")
      | levels + 1 =>
        match skipSpace rest with
        | '}' :: after => .ok (.object [], after)
        | inner => readFields fuel levels [] inner
    | cs => readLeaf cs

/-- The items of a list from its next item on. -/
def readItems (fuel levels : Nat) (done : List Json) (cs : List Char) :
    Except ReadError (Json × List Char) :=
  match fuel with
  | 0 => .error .malformed
  | fuel + 1 => do
    let (v, rest) ← readValue fuel levels cs
    match skipSpace rest with
    | ']' :: after => .ok (.list (v :: done).reverse, after)
    | ',' :: after => readItems fuel levels (v :: done) (skipSpace after)
    | _ => .error .malformed

/-- The fields of an object from its next key on. -/
def readFields (fuel levels : Nat) (done : List (String × Json))
    (cs : List Char) : Except ReadError (Json × List Char) :=
  match fuel with
  | 0 => .error .malformed
  | fuel + 1 =>
    match cs with
    | '"' :: rest => do
      let key ← readString (rest.length + 1) [] false rest
      match skipSpace key.rest with
      | ':' :: after => do
        let (v, rest) ← readValue fuel levels (skipSpace after)
        let fields := setField done (String.ofList key.chars) v
        match skipSpace rest with
        | '}' :: after => .ok (.object fields, after)
        | ',' :: after => readFields fuel levels fields (skipSpace after)
        | _ => .error .malformed
      | _ => .error .malformed
    | _ => .error .malformed

end

/-- The document that a text is. -/
def read (cs : List Char) : Except ReadError Json := do
  let (v, rest) ← readValue (2 * cs.length + 1) maxNesting (skipSpace cs)
  if (skipSpace rest).isEmpty then .ok v else .error .malformed

end CallTrace.Json
