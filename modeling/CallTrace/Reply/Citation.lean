/-
Citations of calls.

A call is cited as `Path.method(params)`, where the path may be missing and
its parts may be joined by `.`, `::` or `->`. The parameter group is the
last balanced one; what stands before it has to end in the name of the
method. The target's type is the last part of the path, or the type that
owns the code under analysis when there is no path or it ends in the
current object. A chained or computed receiver is no path, so such a
citation is not read at all.
-/
import CallTrace.Text.Qualified
import CallTrace.Text.Blank

namespace CallTrace.Reply

open Text

/-- The target of a call and the text between its parentheses. -/
structure Citation where
  targetType : String
  targetMethod : String
  parameters : String
deriving DecidableEq

/-- Names of the current object. -/
def selfReceivers : List String := ["this", "self", "super", "me", "base"]

-- ================================================= parameter group

/-- Searches a reversed text for the parenthesis that opens a group whose
end is already passed. `depth` counts the groups inside it that are still
open; the result is what the group holds and the reversed text before
it. -/
def openGroup? (depth : Nat) (inside : List Char) :
    List Char → Option (List Char × List Char)
  | [] => none
  | ')' :: rest => openGroup? (depth + 1) (')' :: inside) rest
  | '(' :: rest =>
    match depth with
    | 0 => some (inside, rest)
    | depth + 1 => openGroup? depth ('(' :: inside) rest
  | c :: rest => openGroup? depth (c :: inside) rest

/-- The text before its final parameter group, and what the group holds. A
text that does not end in a group has no parameters; one whose final group
never opens is refused. -/
def splitGroup? (cs : List Char) : Option (List Char × List Char) :=
  match cs.reverse with
  | ')' :: rest =>
    (openGroup? 0 [] rest).map fun (inside, front) =>
      (trimRight front.reverse, trim inside)
  | _ => some (cs, [])

-- ========================================================= the method

/-- A receiver without the separator at its end, from the reversed text
before a method name: empty when nothing stands there. -/
def receiver? : List Char → Option (List Char)
  | [] => some []
  | '.' :: front => some front.reverse
  | ':' :: ':' :: front => some front.reverse
  | '>' :: '-' :: front => some front.reverse
  | _ => none

/-- The receiver and the method of a call without its parameters. -/
def splitMethod? (cs : List Char) : Option (List Char × List Char) :=
  let back := cs.reverse
  let method := (back.takeWhile isIdentRest).reverse
  if isIdent method then
    (receiver? (back.dropWhile isIdentRest)).map (·, method)
  else none

/-- The text without one of the words `new`, `await` and `return` and the
blanks after it. -/
def dropLeadWord (cs : List Char) : List Char :=
  let after? (w : String) : Option (List Char) :=
    if w.toList.isPrefixOf cs then
      match cs.drop w.length with
      | c :: rest => if isBlank c then some (trimLeft rest) else none
      | [] => none
    else none
  (["new", "await", "return"].findSome? after?).getD cs

/-- The text of a citation without what may surround it. -/
def bare (cs : List Char) : List Char :=
  let cs := dropLeadWord (trim (trimOf (· == backtick) (trim cs)))
  trim (trimRightOf (· == ';') (trim cs))

/-- The type that a receiver stands for, when it is a path. -/
def typeOfReceiver? (owner : String) (receiver : List Char) :
    Option String :=
  if receiver.isEmpty then some owner
  else if upToFinalBreak (fun cs => allIdents (path cs)) receiver then
    let last := String.ofList (lastOf (path receiver))
    some (if selfReceivers.contains last then owner else last)
  else none

/-- The call that a citation names, if it can be read. -/
def Citation.read? (owner : String) (cs : List Char) : Option Citation := do
  let (call, params) ← splitGroup? (bare cs)
  let (receiver, method) ← splitMethod? call
  let target ← typeOfReceiver? owner receiver
  some ⟨target, String.ofList method, String.ofList params⟩

end CallTrace.Reply
