/-
Sets of characters given as ranges of code points.

A property of characters (letter, digit, blank, ...) is a short table of
closed ranges in ascending order. Only the part beyond ASCII is kept in
tables: each property answers for ASCII by a direct test, so that source
text and the usual replies never walk a table.
-/

namespace CallTrace.Text

/-- Closed ranges of code points. -/
abbrev Ranges := List (Nat × Nat)

/-- The character lies in one of the ranges. -/
def Ranges.holds (rs : Ranges) (c : Char) : Bool :=
  rs.any fun (lo, hi) => lo ≤ c.toNat && c.toNat ≤ hi

/-- ASCII, where every property is decided without a table. -/
def isAscii (c : Char) : Bool := c.toNat < 0x80

end CallTrace.Text
