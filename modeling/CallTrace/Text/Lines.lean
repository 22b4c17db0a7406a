/-
Cutting a text at separators and line breaks.

`splitOn` cuts at one character and keeps every piece, so a text has one
piece more than it has separators. `lines` cuts at every kind of line
break, counts a carriage return with its line feed as one break, and has
no piece after a final break.
-/
import CallTrace.Text.Blank

namespace CallTrace.Text

/-- The pieces between the characters that satisfy `p`; never empty. -/
def splitBy (p : Char → Bool) (cs : List Char) : List (List Char) :=
  go [] [] cs
where
  /-- `piece` and `pieces` hold the part already read, reversed. -/
  go (piece : List Char) (pieces : List (List Char)) :
      List Char → List (List Char)
    | [] => (piece.reverse :: pieces).reverse
    | c :: rest =>
      if p c then go [] (piece.reverse :: pieces) rest
      else go (c :: piece) pieces rest

/-- The pieces between the occurrences of a character. -/
def splitOn (sep : Char) (cs : List Char) : List (List Char) :=
  splitBy (· == sep) cs

/-- The text before the first occurrence of a character, and the text
after it when there is one. -/
def cutAt (sep : Char) (cs : List Char) : List Char × Option (List Char) :=
  match cs.span (· != sep) with
  | (front, []) => (front, none)
  | (front, _ :: back) => (front, some back)

/-- The text before and after the first occurrence of `needle`. -/
def cutAtText? (needle : List Char) (cs : List Char) :
    Option (List Char × List Char) :=
  go [] cs
where
  go (front : List Char) (rest : List Char) :
      Option (List Char × List Char) :=
    if needle.isPrefixOf rest then
      some (front.reverse, rest.drop needle.length)
    else
      match rest with
      | [] => none
      | c :: more => go (c :: front) more

/-- The text holds `needle` somewhere. -/
def holdsText (needle cs : List Char) : Bool := (cutAtText? needle cs).isSome

-- ======================================================= line breaks

/-- Each carriage return followed by a line feed becomes a line feed. -/
def unifyPairs (cs : List Char) : List Char :=
  go [] cs
where
  go (done : List Char) : List Char → List Char
    | [] => done.reverse
    | '\r' :: '\n' :: rest => go ('\n' :: done) rest
    | c :: rest => go (c :: done) rest

/-- Every carriage return, with a line feed after it or alone, becomes a
line feed. -/
def unifyBreaks (cs : List Char) : List Char :=
  go [] cs
where
  go (done : List Char) : List Char → List Char
    | [] => done.reverse
    | '\r' :: '\n' :: rest => go ('\n' :: done) rest
    | '\r' :: rest => go ('\n' :: done) rest
    | c :: rest => go (c :: done) rest

/-- Line feed, carriage return, vertical tab, form feed, the three
information separators, next line, line and paragraph separators. -/
def isLineBreak (c : Char) : Bool :=
  (0x0a ≤ c.toNat && c.toNat ≤ 0x0d) || (0x1c ≤ c.toNat && c.toNat ≤ 0x1e) ||
    c.toNat == 0x85 || c.toNat == 0x2028 || c.toNat == 0x2029

/-- The lines of a text, without their breaks. -/
def lines (cs : List Char) : List (List Char) :=
  match splitBy isLineBreak (unifyPairs cs) |>.reverse with
  | [] :: done => done.reverse
  | done => done.reverse

end CallTrace.Text
