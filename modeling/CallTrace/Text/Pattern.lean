/-
Patterns over a text, for the questions that are only "does it occur, and
where": declarations in source text, phrases in a reply.

A pattern maps a place in the text to the places where a match that starts
there may end, the preferred end first. Sequence, choice and repetition
then are operations on lists: nothing is hidden in a matching engine, and
"the pattern matches from `a` to `b`" is membership. Texts whose parts are
wanted, and not only found, are read by recursion on their characters
instead.
-/
import CallTrace.Text.Word
import CallTrace.Text.Blank
import CallTrace.Text.Case

namespace CallTrace.Text

/-- A place in a text: the character before it, and what follows. -/
structure Cursor where
  before : Option Char
  rest : List Char

/-- The ends of the matches that start at a place, preferred ones first. -/
abbrev Pattern := Cursor → List Cursor

namespace Pattern

/-- The empty text. -/
def empty : Pattern := fun k => [k]

/-- One character of a kind. -/
def one (p : Char → Bool) : Pattern := fun k =>
  match k.rest with
  | c :: rest => if p c then [⟨some c, rest⟩] else []
  | [] => []

/-- A text, character by character, under a test of equality. -/
def literalBy (same : Char → Char → Bool) : List Char → Pattern
  | [], k => [k]
  | w :: ws, k =>
    match k.rest with
    | c :: rest => if same w c then literalBy same ws ⟨some c, rest⟩ else []
    | [] => []

/-- Exactly this text. -/
def literal (w : List Char) : Pattern := literalBy (· == ·) w

/-- Exactly this word. -/
def word (w : String) : Pattern := literal w.toList

/-- This word of small ASCII letters in any letter case. -/
def caseless (w : String) : Pattern :=
  literalBy (fun w c => w == fold c) w.toList

/-- One match after the other. -/
def seq (a b : Pattern) : Pattern := fun k => (a k).flatMap b

/-- All of these, one after the other. -/
def all : List Pattern → Pattern
  | [] => empty
  | a :: as => seq a (all as)

/-- One of these, the earlier ones preferred. -/
def any (choices : List Pattern) : Pattern := fun k =>
  choices.flatMap (· k)

/-- One of these words. -/
def oneOf (ws : List String) : Pattern := any (ws.map word)

/-- One of these words of small ASCII letters, in any letter case. -/
def caselessOneOf (ws : List String) : Pattern := any (ws.map caseless)

/-- The pattern or nothing, the pattern preferred. -/
def optional (a : Pattern) : Pattern := any [a, empty]

/-- Any number of characters of a kind, more of them preferred. -/
def run (p : Char → Bool) : Pattern := fun k => go [] k.before k.rest
where
  /-- `ends` holds the shorter ends, the longest of them first. -/
  go (ends : List Cursor) (before : Option Char) : List Char → List Cursor
    | [] => ⟨before, []⟩ :: ends
    | c :: rest =>
      if p c then go (⟨before, c :: rest⟩ :: ends) (some c) rest
      else ⟨before, c :: rest⟩ :: ends

/-- Where nothing of a kind follows, the run of it is empty. -/
theorem run_of_head {p : Char → Bool} {before : Option Char} {rest : List Char}
    (h : ∀ c ∈ rest.head?, p c = false) :
    run p ⟨before, rest⟩ = [⟨before, rest⟩] := by
  cases rest with
  | nil => rfl
  | cons c rest => rw [run, run.go, if_neg (by simp [h c rfl])]

/-- One or more characters of a kind, more of them preferred. -/
def run1 (p : Char → Bool) : Pattern := seq (one p) (run p)

/-- Any number of blanks. -/
def blanks : Pattern := run isBlank

/-- One or more blanks. -/
def blanks1 : Pattern := run1 isBlank

/-- At most `limit` repetitions, more of them preferred. -/
def repeated : Nat → Pattern → Pattern
  | 0, _, k => [k]
  | limit + 1, a, k => (a k).flatMap (repeated limit a) ++ [k]

/-- Everything up to the first character that is not of a kind. Unlike
`run` it gives only the whole stretch, which is enough where what follows
cannot be of that kind. -/
def whole (p : Char → Bool) : Pattern := fun k => go k.before k.rest
where
  go (before : Option Char) : List Char → List Cursor
    | [] => [⟨before, []⟩]
    | c :: rest =>
      if p c then go (some c) rest else [⟨before, c :: rest⟩]

/-- The whole stretch of characters of a kind, at least one. -/
def whole1 (p : Char → Bool) : Pattern := seq (one p) (whole p)

/-- The character is a word character, the ends of the text are not. -/
private def wordAt : Option Char → Bool
  | some c => isWord c
  | none => false

/-- Between a word character and a character that is none. -/
def boundary : Pattern := fun k =>
  if wordAt k.before != wordAt k.rest.head? then [k] else []

theorem boundary_eq (k : Cursor) : boundary k =
    if k.before.any isWord != k.rest.head?.any isWord then [k] else [] := by
  obtain ⟨before, rest⟩ := k
  cases before <;> cases rest <;> rfl

/-- After a word character there is a boundary unless another one
follows. -/
theorem boundary_of_isWord {c : Char} (h : isWord c = true)
    (rest : List Char) : boundary ⟨some c, rest⟩ =
      if rest.head?.any isWord then [] else [⟨some c, rest⟩] := by
  rw [boundary_eq, Option.any_some, h]
  cases rest.head?.any isWord <;> rfl

/-- At the start of the text or after a line feed. -/
def lineStart : Pattern := fun k =>
  if k.before == none || k.before == some '\n' then [k] else []

/-- At the start of the text. -/
def textStart : Pattern := fun k =>
  if k.before == none then [k] else []

/-- Where the pattern matches, without going on. -/
def ahead (a : Pattern) : Pattern := fun k =>
  if (a k).isEmpty then [] else [k]

/-- Where the pattern does not match. -/
def notAhead (a : Pattern) : Pattern := fun k =>
  if (a k).isEmpty then [k] else []

-- ========================================================= searching

/-- The first place from `k` on where the pattern matches: the place and
the preferred end. -/
def findAt? (a : Pattern) (before : Option Char) :
    List Char → Option (Cursor × Cursor)
  | [] => (a ⟨before, []⟩).head?.map (⟨before, []⟩, ·)
  | c :: rest =>
    match a ⟨before, c :: rest⟩ with
    | e :: _ => some (⟨before, c :: rest⟩, e)
    | [] => findAt? a (some c) rest

/-- The first match in a text: where it starts, and where it ends. -/
def find? (a : Pattern) (cs : List Char) : Option (Cursor × Cursor) :=
  findAt? a none cs

/-- The pattern matches somewhere in the text. -/
def occursIn (a : Pattern) (cs : List Char) : Bool := (find? a cs).isSome

theorem occursIn_of_match {a : Pattern} {cs : List Char} {e : Cursor}
    {more : List Cursor} (h : a ⟨none, cs⟩ = e :: more) :
    occursIn a cs = true := by
  cases cs <;> simp [occursIn, find?, findAt?, h]

/-- What follows the preferred match at the start of the text. -/
def after? (a : Pattern) (cs : List Char) : Option (List Char) :=
  (a ⟨none, cs⟩).head?.map (·.rest)

end Pattern

end CallTrace.Text
