/-
Blanks, trimming and words.

A blank is a space, a tab, a line break of any kind, or one of the wider
spaces of other scripts. Trimming never touches the inside of a text; the
words of a text are its maximal runs of characters that are not blank.
-/
import CallTrace.Text.Ranges

namespace CallTrace.Text

/-- Blanks beyond ASCII: the next-line sign, the no-break space, the
spaces of fixed width, the line and paragraph separators. -/
def blankRanges : Ranges :=
  [(0x85, 0x85), (0xa0, 0xa0), (0x1680, 0x1680), (0x2000, 0x200a),
   (0x2028, 0x2029), (0x202f, 0x202f), (0x205f, 0x205f), (0x3000, 0x3000)]

/-- A space, a tab, a line break or separator of any kind. -/
def isBlank (c : Char) : Bool :=
  if isAscii c then
    c == ' ' || (0x09 ≤ c.toNat && c.toNat ≤ 0x0d) ||
      (0x1c ≤ c.toNat && c.toNat ≤ 0x1f)
  else blankRanges.holds c

-- ========================================================== trimming

/-- The text without its leading characters of a kind. -/
def trimLeftOf (p : Char → Bool) (cs : List Char) : List Char :=
  cs.dropWhile p

/-- The text without its trailing characters of a kind. -/
def trimRightOf (p : Char → Bool) (cs : List Char) : List Char :=
  (cs.reverse.dropWhile p).reverse

/-- The text without its leading and trailing characters of a kind. -/
def trimOf (p : Char → Bool) (cs : List Char) : List Char :=
  trimRightOf p (trimLeftOf p cs)

/-- The text without leading blanks. -/
def trimLeft (cs : List Char) : List Char := trimLeftOf isBlank cs

/-- The text without trailing blanks. -/
def trimRight (cs : List Char) : List Char := trimRightOf isBlank cs

/-- The text without leading and trailing blanks. -/
def trim (cs : List Char) : List Char := trimOf isBlank cs

@[simp] theorem trimRightOf_nil (p : Char → Bool) :
    trimRightOf p [] = [] := rfl

@[simp] theorem trimOf_nil (p : Char → Bool) : trimOf p [] = [] := rfl

/-- What is trimmed on the right is a run of the given kind. -/
theorem trimRightOf_append (p : Char → Bool) (cs : List Char) :
    ∃ tail, cs = trimRightOf p cs ++ tail ∧ tail.all p = true := by
  refine ⟨(cs.reverse.takeWhile p).reverse, ?_, ?_⟩
  · rw [trimRightOf, ← List.reverse_append,
      List.takeWhile_append_dropWhile, List.reverse_reverse]
  · simp only [List.all_reverse]
    exact List.all_takeWhile

/-- A text that ends in a character of another kind is left as it is. -/
theorem trimRightOf_concat (p : Char → Bool) (cs : List Char) {c : Char}
    (h : p c = false) : trimRightOf p (cs ++ [c]) = cs ++ [c] := by
  simp [trimRightOf, h]

-- ============================================================= words

/-- One step of cutting a text into words, from its end: the word under
way, and the words after it. -/
private def addToWords (c : Char) :
    List Char × List (List Char) → List Char × List (List Char)
  | (word, ws) =>
    if isBlank c then ([], if word.isEmpty then ws else word :: ws)
    else (c :: word, ws)

/-- The maximal runs of characters that are not blank, in order. -/
def words (cs : List Char) : List (List Char) :=
  match cs.foldr addToWords ([], []) with
  | (word, ws) => if word.isEmpty then ws else word :: ws

/-- Characters that are not blank go on with the word under way. -/
private theorem foldr_addToWords {w : List Char}
    (h : ∀ c ∈ w, isBlank c = false) (word : List Char)
    (ws : List (List Char)) :
    w.foldr addToWords (word, ws) = (w ++ word, ws) := by
  induction w with
  | nil => rfl
  | cons c w ih =>
    rw [List.foldr_cons, ih fun d hd => h d (List.mem_cons_of_mem _ hd),
      addToWords, h c (List.mem_cons_self ..)]
    rfl

/-- A text without blanks is one word. -/
theorem words_of_word {w : List Char} (hne : w ≠ [])
    (h : ∀ c ∈ w, isBlank c = false) : words w = [w] := by
  rw [words, foldr_addToWords h]
  simp [hne]

/-- A word ends at the next blank. -/
theorem words_append {w : List Char} (hne : w ≠ [])
    (h : ∀ c ∈ w, isBlank c = false) {c : Char} (hc : isBlank c = true)
    (rest : List Char) : words (w ++ c :: rest) = w :: words rest := by
  have hrest : (c :: rest).foldr addToWords ([], []) =
      ([], words rest) := by
    rw [List.foldr_cons, addToWords, hc]
    rfl
  rw [words, List.foldr_append, hrest, foldr_addToWords h]
  simp [hne]

/-- Texts put together with a separator between neighbours. -/
def joinWith (sep : List Char) (parts : List (List Char)) : List Char :=
  List.intercalate sep parts

/-- The text with every run of blanks replaced by one space, and none at
either end. -/
def squeeze (cs : List Char) : List Char := joinWith [' '] (words cs)

end CallTrace.Text
