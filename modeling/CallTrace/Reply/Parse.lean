/-
Reading a whole reply.

The lines before the first block title are the preamble; they alone say
whether the method was found. Each block title opens a section, which ends
at the next heading of any kind. A reply is then one of three things: the
method is absent, it is described by at least one block, or nothing can be
made of it.
-/
import CallTrace.Reply.Absence
import CallTrace.Reply.Section

namespace CallTrace

/-- What a reply says. -/
inductive Reply where
  /-- The method is not in the type; other types may have it. -/
  | absent (suggestions : List String)
  /-- The method's blocks, in order; never empty. -/
  | described (blocks : List Block)
  /-- Neither an absence nor a block was found. -/
  | unreadable
deriving DecidableEq

namespace Reply

open Text

/-- The sections after the preamble: titles and bodies. -/
def sections : List (List Char) → List (List Char × List (List Char))
  | [] => []
  | line :: rest =>
    match opensBlock? line with
    | some title => (title, rest.takeWhile (!isHeading ·)) :: sections rest
    | none => sections rest

/-- The lines before the first block title. -/
def preamble (ls : List (List Char)) : List (List Char) :=
  ls.takeWhile fun line => (opensBlock? line).isNone

/-- The blocks of a list of drafts, numbered through, the calls numbered
from `order` on. -/
def numberBlocks (index order : Nat) : List Draft → List Block
  | [] => []
  | d :: rest =>
    let b := d.toBlock index order
    b :: numberBlocks (index + 1) (order + b.calls.length) rest

/-- Each block flows into the one after it. -/
def linkBlocks : List Block → List Block
  | b :: c :: rest => { b with next := [c.id] } :: linkBlocks (c :: rest)
  | bs => bs

/-- The reply that a text is, about a method of the type `owner`. -/
def parse (owner text : String) : Reply :=
  let ls := splitOn '\n' (unifyPairs text.toList)
  if tellsAbsence (joinWith ['\n'] (preamble ls)) then
    .absent (suggestions (unifyPairs text.toList))
  else
    match sections ls with
    | [] => .unreadable
    | found =>
      let drafts := found.map fun (title, body) =>
        Draft.ofLines owner title body
      .described (linkBlocks (numberBlocks 0 0 drafts))

-- ============================================================== views

def blocks : Reply → List Block
  | described bs => bs
  | _ => []

/-- The calls of all blocks, in order. -/
def calls (r : Reply) : List CallSite := r.blocks.flatMap (·.calls)

def summary (r : Reply) : CallSummary := .ofCalls r.calls

/-- How a reply counts as an analysis. -/
def status : Reply → Status
  | described _ => .complete
  | _ => .failed

/-- Why a reply gives no analysis. -/
def errorMessage? (owner : String) : Reply → Option String
  | absent _ => some ("Method not found in " ++ owner)
  | described _ => none
  | unreadable => some "No execution blocks found in oracle response"

end Reply

end CallTrace
