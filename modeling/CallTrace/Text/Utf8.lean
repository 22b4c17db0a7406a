/-
Text from bytes, and back.

A byte starts a character or continues one. The first byte says how many
are to follow and from which range the next one has to come; the ranges
leave out overlong forms, surrogates, and numbers beyond the last
character. Bytes that cannot be continued are one piece of junk, and the
byte that broke them off starts anew. So every sequence of bytes is cut
into pieces, each a character or junk, and reading strictly or leniently
differs only in what is made of junk.
-/
import CallTrace.Text.Quoted

namespace CallTrace.Text.Utf8

/-- A character under way. -/
structure Partial where
  /-- How many bytes are still to come. -/
  owed : Nat
  /-- The range of the next byte. -/
  low : Nat := 0x80
  high : Nat := 0xbf
  /-- The number given by the bytes read so far. -/
  value : Nat
deriving DecidableEq

/-- What is wrong with a piece of junk: no character starts so, the next
byte does not fit, or there is no next byte. -/
inductive JunkKind where
  | start
  | continuation
  | cut
deriving DecidableEq

/-- Junk: its first byte, where it starts, and how many bytes it has. -/
structure Junk where
  byte : UInt8
  position : Nat
  size : Nat
  kind : JunkKind
deriving DecidableEq

/-- A piece of a sequence of bytes. -/
inductive Piece where
  | char (c : Char)
  | junk (j : Junk)
deriving DecidableEq

/-- What a first byte starts: a character of its own, one under way, or
nothing. -/
def first? (b : UInt8) : Option Partial :=
  let n := b.toNat
  if n < 0x80 then some { owed := 0, value := n }
  else if n < 0xc2 then none
  else if n < 0xe0 then some { owed := 1, value := n - 0xc0 }
  else if n = 0xe0 then some { owed := 2, low := 0xa0, value := 0 }
  else if n = 0xed then some { owed := 2, high := 0x9f, value := 0xd }
  else if n < 0xf0 then some { owed := 2, value := n - 0xe0 }
  else if n = 0xf0 then some { owed := 3, low := 0x90, value := 0 }
  else if n < 0xf4 then some { owed := 3, value := n - 0xf0 }
  else if n = 0xf4 then some { owed := 3, high := 0x8f, value := 4 }
  else none

/-- The character under way with one more byte, if that fits. -/
def Partial.next? (p : Partial) (b : UInt8) : Option Partial :=
  if p.low ≤ b.toNat ∧ b.toNat ≤ p.high then
    some { owed := p.owed - 1, value := 0x40 * p.value + (b.toNat - 0x80) }
  else none

/-- The bytes of a character under way: the first, its position, and how
many there are. -/
structure Opened where
  byte : UInt8
  position : Nat
  size : Nat
  current : Partial

def Opened.junk (o : Opened) (kind : JunkKind) : Piece :=
  .junk ⟨o.byte, o.position, o.size, kind⟩

/-- A byte between characters: the pieces with it, and what it opens. -/
def opening (done : List Piece) (position : Nat) (b : UInt8) :
    List Piece × Option Opened :=
  match first? b with
  | none => (.junk ⟨b, position, 1, .start⟩ :: done, none)
  | some p =>
    if p.owed = 0 then (.char (.ofNat p.value) :: done, none)
    else (done, some ⟨b, position, 1, p⟩)

/-- One byte inside or between characters. -/
def step (done : List Piece) (position : Nat) (b : UInt8) :
    Option Opened → List Piece × Option Opened
  | none => opening done position b
  | some o =>
    match o.current.next? b with
    | none => opening (o.junk .continuation :: done) position b
    | some p =>
      if p.owed = 0 then (.char (.ofNat p.value) :: done, none)
      else (done, some { o with size := o.size + 1, current := p })

/-- The pieces of a sequence of bytes. `done` holds the part already read,
reversed. -/
def piecesFrom (done : List Piece) (position : Nat)
    (opened : Option Opened) : List UInt8 → List Piece
  | [] =>
    match opened with
    | none => done.reverse
    | some o => (o.junk .cut :: done).reverse
  | b :: bs =>
    match step done position b opened with
    | (done, opened) => piecesFrom done (position + 1) opened bs

/-- A sequence of bytes in pieces. -/
def pieces (bytes : List UInt8) : List Piece := piecesFrom [] 0 none bytes

/-- What stands for junk in a text. -/
def replacement : Char := Char.ofNat 0xfffd

/-- The text with every piece of junk replaced. -/
def decodeLenient (bytes : List UInt8) : List Char :=
  (pieces bytes).map fun
    | .char c => c
    | .junk _ => replacement

/-- The text without junk, or the first junk. -/
def decode (bytes : List UInt8) : Except Junk (List Char) :=
  go [] (pieces bytes)
where
  go (done : List Char) : List Piece → Except Junk (List Char)
    | [] => .ok done.reverse
    | .char c :: rest => go (c :: done) rest
    | .junk j :: _ => .error j

/-- The bytes of a text. -/
def encode (s : String) : List UInt8 := s.toUTF8.toList

-- ============================================================ messages

private def JunkKind.text : JunkKind → String
  | start => "invalid start byte"
  | continuation => "invalid continuation byte"
  | cut => "unexpected end of data"

/-- The message about junk. -/
def Junk.message (j : Junk) : String :=
  let place :=
    if j.size = 1 then
      "byte 0x" ++ String.ofList (hexDigits 2 j.byte.toNat) ++
        " in position " ++ toString j.position
    else
      "bytes in position " ++ toString j.position ++ "-" ++
        toString (j.position + j.size - 1)
  "'utf-8' codec can't decode " ++ place ++ ": " ++ j.kind.text

end CallTrace.Text.Utf8
