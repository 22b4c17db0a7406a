/-
The lines of a reply: headings, block titles, labels, bulleted citations.

A reply is markdown written by hand, so each form has some play: a label
may be bold or plain, with its colon inside or outside of the bold marks,
and may stand in a bulleted list. The readers here take one line, without
its line feed, and say what it is.
-/
import CallTrace.Text.Pattern
import CallTrace.Text.Lines
import CallTrace.Text.Qualified

namespace CallTrace.Reply

open Text

def isBullet (c : Char) : Bool := c == '-' || c == '*' || c == '+'

/-- The line without leading blanks and, if there is one, its bullet and
the blanks after it. -/
def dropBullet (line : List Char) : List Char :=
  let cs := trimLeft line
  match cs with
  | c :: b :: rest =>
    if isBullet c && isBlank b then trimLeft (b :: rest) else cs
  | _ => cs

/-- One character of a kind dropped from the front, if it is there. -/
def dropOne (p : Char → Bool) : List Char → List Char
  | c :: rest => if p c then rest else c :: rest
  | [] => []

-- ========================================================== headings

/-- The title of a heading: one to six number signs with a blank after
them. Number signs at the end of the line are not part of it. -/
def heading? (line : List Char) : Option (List Char) :=
  match (trimLeft line).span (· == '#') with
  | (signs, b :: rest) =>
    if 1 ≤ signs.length && signs.length ≤ 6 && isBlank b then
      let title := trimLeft rest
      some (trimRight (trimRightOf (· == '#') (trimRight title)))
    else none
  | (_, []) => none

/-- What may stand between a block's number and its description. -/
def isTitleMark (c : Char) : Bool :=
  c == ':' || c == '.' || c == '-' || c == '–' || c == '—' || c == ')'

/-- The description in the title of a block, which is the word `Block`, a
number and, after a mark, the description; stars may surround the first
two. -/
def blockTitle? (title : List Char) : Option (List Char) := do
  let cs := trimLeft (title.dropWhile (· == '*'))
  let afterWord ← Pattern.after? (.seq (.caseless "block") .blanks1) cs
  let (digits, afterNumber) := afterWord.span isDigit
  if digits.isEmpty then none
  else
    match trimLeft ((trimLeft afterNumber).dropWhile (· == '*')) with
    | [] => some []
    | c :: rest => if isTitleMark c then some (trimLeft rest) else none

/-- The line is a heading. -/
def isHeading (line : List Char) : Bool := (heading? line).isSome

/-- The description of the block that a line opens, if it opens one. -/
def opensBlock? (line : List Char) : Option (List Char) := do
  let desc ← blockTitle? (← heading? line)
  some (trim (trimOf (· == '*') (trim desc)))

-- ============================================================= labels

/-- What is left of a label's text after its end is taken off: blanks, one
colon, blanks. Its first character always stays. -/
def dropLabelEnd : List Char → List Char
  | [] => []
  | c :: rest =>
    let back := rest.reverse.dropWhile isBlank
    c :: ((dropOne (· == ':') back).dropWhile isBlank).reverse

/-- A label between double stars: its text and the value after it. -/
def boldLabel? (line : List Char) :
    Option (List Char × List Char) :=
  match dropBullet line with
  | '*' :: '*' :: rest =>
    match rest.span (· != '*') with
    | (c :: label, '*' :: '*' :: after) =>
      let value := trimLeft (dropOne (· == ':') (trimLeft after))
      some (dropLabelEnd (c :: label), value)
    | _ => none
  | _ => none

/-- The labels that need no stars. -/
def plainLabels : List String :=
  ["type", "description", "execution flow", "method calls", "call",
   "classification", "step into", "expected behavior", "condition",
   "reasoning"]

/-- One of the known labels without stars. -/
def plainLabel? (line : List Char) :
    Option (List Char × List Char) :=
  let cs := dropBullet line
  let read? (label : String) : Option (List Char × List Char) := do
    let after ← Pattern.after? (.caseless label) cs
    match trimLeft after with
    | ':' :: value => some (cs.take label.length, trimLeft value)
    | _ => none
  plainLabels.findSome? read?

/-- The text of a label as labels are compared: lowered, and with single
spaces for blanks. -/
def labelName (label : List Char) : List Char :=
  let cs := lower (trimRightOf (· == ':') (trim label))
  squeezeInner cs
where
  /-- Every run of blanks becomes one space, at the ends too. -/
  squeezeInner : List Char → List Char
    | [] => []
    | c :: rest =>
      if isBlank c then
        match squeezeInner rest with
        | ' ' :: more => ' ' :: more
        | more => ' ' :: more
      else c :: squeezeInner rest

/-- The label that a line starts with, and the value after it. -/
def label? (line : List Char) : Option (String × List Char) := do
  let (label, value) ← (boldLabel? line).or (plainLabel? line)
  some (String.ofList (labelName label), trim value)

-- ========================================================== citations

/-- Everything between backticks, from left to right. -/
def inBackticks (cs : List Char) : List (List Char) :=
  go cs.length cs
where
  /-- Each step drops at least one character, so the length is enough. -/
  go : Nat → List Char → List (List Char)
    | 0, _ => []
    | n + 1, cs =>
      match cs with
      | [] => []
      | c :: rest =>
        if c == backtick then
          match rest.span (· != backtick) with
          | (inside, _ :: after) =>
            if inside.isEmpty then go n rest else inside :: go n after
          | (_, []) => []
        else go n rest

/-- A bulleted citation between backticks, and what follows it after a
dash or a colon. -/
def bulletCitation? (line : List Char) :
    Option (List Char × List Char) :=
  match trimLeft line with
  | c :: b :: rest =>
    if isBullet c && isBlank b then
      match trimLeft (b :: rest) with
      | t :: body =>
        if t == backtick then
          match body.span (· != backtick) with
          | (d :: inside, _ :: after) =>
            match trimLeft after with
            | [] => some (d :: inside, [])
            | m :: more =>
              if m == ':' || m == '-' || m == '–' || m == '—' then
                some (d :: inside, trimLeft more)
              else none
          | _ => none
        else none
      | [] => none
    else none
  | _ => none

/-- The line is an item of a list, bulleted or numbered. -/
def isListItem (line : List Char) : Bool :=
  let cs := trimLeft line
  match cs with
  | c :: b :: _ =>
    (isBullet c && isBlank b) ||
      (match cs.span isDigit with
       | (_ :: _, '.' :: d :: _) => isBlank d
       | _ => false)
  | _ => false

end CallTrace.Reply
