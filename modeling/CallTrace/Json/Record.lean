/-
Reading typed records from documents.

A record is read field by field, in the order in which its fields are
declared, and every fault is reported with the place where it was found; a
record is accepted only without faults. Numbers and truth values may be
written as strings or as each other where nothing is lost; texts may not.
-/
import CallTrace.Json.Value
import CallTrace.Number.Written
import CallTrace.Text.Lines

namespace CallTrace.Json

open Number (Double)

/-- A step on the way to a part of a document. -/
inductive Place where
  | field (name : String)
  | index (n : Nat)
deriving DecidableEq

/-- What is wrong with a part of a document. -/
inductive FaultKind where
  | missing
  | textType
  | brokenText
  | intType
  | intText
  | intFraction
  | intSize
  | infiniteInt
  | floatType
  | floatText
  | boolType
  | boolText
  | notInSet
  | listType
  | tupleType
  | recordType
  | notAbove
  | notAtLeast
deriving DecidableEq

/-- A fault and where it is. -/
structure Fault where
  path : List Place
  kind : FaultKind
deriving DecidableEq

/-- What reading gives: a value, or all faults in order. -/
inductive Reading (α : Type) where
  | good (value : α)
  | bad (faults : List Fault)

namespace Reading

variable {α β : Type}

def map (f : α → β) : Reading α → Reading β
  | good a => good (f a)
  | bad faults => bad faults

/-- Both readings; the faults of the first come first. -/
def ap : Reading (α → β) → Reading α → Reading β
  | good f, good a => good (f a)
  | good _, bad e => bad e
  | bad e, good _ => bad e
  | bad e, bad e' => bad (e ++ e')

instance : Functor Reading := ⟨map, map ∘ Function.const _⟩

instance : Applicative Reading where
  pure := good
  seq f a := ap f (a ())

/-- A reading that goes on from a value. -/
def andThen (f : α → Reading β) : Reading α → Reading β
  | good a => f a
  | bad faults => bad faults

/-- The faults lie under a place. -/
def under (place : Place) : Reading α → Reading α
  | good a => good a
  | bad faults =>
    bad (faults.map fun e => { e with path := place :: e.path })

def toOption : Reading α → Option α
  | good a => some a
  | bad _ => none

end Reading

/-- A reader of values of a type. -/
abbrev Reader (α : Type) := Json → Reading α

/-- One fault at this very place. -/
def fault {α : Type} (kind : FaultKind) : Reading α := .bad [⟨[], kind⟩]

-- ============================================================ scalars

/-- Halves of surrogate pairs that stand alone do no harm to a text. -/
def readText : Reader String
  | .text s | .brokenText s => .good s
  | _ => fault .textType

/-- An integer written as text. Zeros after a point are allowed. -/
def intOfText? (s : String) : Option Int :=
  let cs := Text.trimOf Number.isMargin s.toList
  match cs.span (· != '.') with
  | (whole, '.' :: zeros) =>
    if zeros.all (· == '0') then Number.intOfText? whole else none
  | _ => Number.intOfText? cs

/-- An integer from a number without a fraction. -/
def intOfDouble (x : Double) : Reading Int :=
  if !x.isFinite then fault .infiniteInt
  else
    let n := x.truncate
    if Double.same x (.ofInt n) then
      if -0x8000000000000000 < n ∧ n < 0x8000000000000000 then .good n else fault .intSize
    else fault .intFraction

/-- The greatest length of an integer that is written as text. -/
def maxIntText : Nat := 4300

def readInt : Reader Int
  | .int n => .good n
  | .bool b => .good (if b then 1 else 0)
  | .float x => intOfDouble x
  | .text s =>
    if maxIntText < s.length then fault .intSize
    else
      match intOfText? s with
      | some n => .good n
      | none => fault .intText
  | .brokenText _ => fault .brokenText
  | _ => fault .intType

/-- An integer that is not below `least`. -/
def readIntAtLeast (least : Int) : Reader { n : Int // least ≤ n } :=
  fun v => (readInt v).andThen fun n =>
    if h : least ≤ n then .good ⟨n, h⟩ else fault .notAtLeast

/-- The text without underscores, where single ones stand inside it and
nowhere else. -/
private def ungrouped? (cs : List Char) : Option (List Char) :=
  if (Text.splitOn '_' cs).any List.isEmpty then none
  else some (cs.filter (· != '_'))

/-- A number written as text. Groups are allowed only where no blanks stand
around. -/
def doubleOfText? (s : String) : Option Double :=
  (Number.doubleOfText? (Text.trimOf Number.isMargin s.toList)).or
    ((ungrouped? s.toList).bind Number.doubleOfText?)

/-- A number. An integer that rounds to no finite one is none. -/
def readDouble : Reader Double
  | .float x => .good x
  | .int n =>
    let x := Double.ofInt n
    if x.isFinite then .good x else fault .floatType
  | .bool b => .good (.ofInt (if b then 1 else 0))
  | .text s =>
    match doubleOfText? s with
    | some x => .good x
    | none => fault .floatText
  | .brokenText _ => fault .brokenText
  | _ => fault .floatType

private def falseWords : List String := ["0", "off", "f", "false", "n", "no"]

private def trueWords : List String := ["1", "on", "t", "true", "y", "yes"]

private def boolOfInt (n : Int) : Reading Bool :=
  if n = 0 then .good false
  else if n = 1 then .good true
  else fault .boolText

def readBool : Reader Bool
  | .bool b => .good b
  | .int n =>
    if -0x8000000000000000 ≤ n ∧ n < 0x8000000000000000 then boolOfInt n else fault .boolType
  | .float x =>
    match intOfDouble x with
    | .good n => boolOfInt n
    | .bad _ => fault .boolType
  | .text s =>
    let w := String.ofList (s.toList.map Char.toLower)
    if falseWords.contains w then .good false
    else if trueWords.contains w then .good true
    else fault .boolText
  | .brokenText _ => fault .brokenText
  | _ => fault .boolType

/-- One of a closed set of names. -/
def readName {α : Type} (ofName? : String → Option α) : Reader α
  | .text s =>
    match ofName? s with
    | some a => .good a
    | none => fault .notInSet
  | _ => fault .notInSet

/-- A value that may be absent. -/
def readNullable {α : Type} (r : Reader α) : Reader (Option α)
  | .null => .good none
  | v => (r v).map some

-- ========================================================== sequences

/-- The items of a sequence from place `i` on. -/
def readItemsFrom {α : Type} (r : Reader α) (i : Nat) :
    List Json → Reading (List α)
  | [] => .good []
  | v :: vs =>
    List.cons <$> (r v).under (.index i) <*> readItemsFrom r (i + 1) vs

/-- A sequence of any length. `kind` is the fault of what is none. -/
def readSequence {α : Type} (kind : FaultKind) (r : Reader α) :
    Reader (List α)
  | .list items => readItemsFrom r 0 items
  | _ => fault kind

-- ============================================================ records

/-- The document is an object. -/
def readObject {α : Type} (r : Reader α) : Reader α
  | .object fields => r (.object fields)
  | _ => fault .recordType

/-- A field that has to be there. -/
def required {α : Type} (name : String) (r : Reader α) : Reader α := fun v =>
  match v.field? name with
  | some x => (r x).under (.field name)
  | none => (fault .missing).under (.field name)

/-- A field with a value for its absence. -/
def withDefault {α : Type} (name : String) (absent : α) (r : Reader α) :
    Reader α := fun v =>
  match v.field? name with
  | some x => (r x).under (.field name)
  | none => .good absent

end CallTrace.Json
