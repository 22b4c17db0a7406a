/-
Qualified names.

A qualified name is a sequence of identifiers with separators between
them. In source text and requests the separators are `.` and `::`; in the
citation of a call `->` is one too. What a name refers to is its last
segment.
-/
import CallTrace.Text.Word

namespace CallTrace.Text

/-- The backtick that encloses names in replies. -/
def backtick : Char := Char.ofNat 0x60

/-- The pieces between the separators `.` and `::`, and between arrows
too if `arrows` is set. -/
def segmentsBy (arrows : Bool) (cs : List Char) : List (List Char) :=
  go [] cs
where
  /-- `seg` holds the piece under way, reversed. -/
  go (seg : List Char) : List Char → List (List Char)
    | [] => [seg.reverse]
    | '.' :: rest => seg.reverse :: go [] rest
    | ':' :: ':' :: rest => seg.reverse :: go [] rest
    | '-' :: '>' :: rest =>
      if arrows then seg.reverse :: go [] rest
      else go ('>' :: '-' :: seg) rest
    | c :: rest => go (c :: seg) rest

/-- The pieces of a name between `.` and `::`. -/
def segments (cs : List Char) : List (List Char) := segmentsBy false cs

/-- The pieces of a receiver between `.`, `::` and `->`. -/
def path (cs : List Char) : List (List Char) := segmentsBy true cs

/-- The last piece of a name. -/
def lastOf (parts : List (List Char)) : List Char := parts.getLast?.getD []

/-- The test holds of the text, or of the text without one line feed at
its end. -/
def upToFinalBreak (p : List Char → Bool) (cs : List Char) : Bool :=
  p cs || (cs.getLast? == some '\n' && p cs.dropLast)

/-- Every piece is an identifier. -/
def allIdents (parts : List (List Char)) : Bool := parts.all isIdent

end CallTrace.Text
