/-
Arguments of a command: switches and words.

A switch is known by its names, long ones behind two dashes and short ones
behind one. A long name may be cut short as long as it stays unambiguous,
and its operand may follow in the same argument behind an equals sign.
Words are gathered from the first run of them only; a word in a later run
is not expected. Behind a bare pair of dashes everything is a word.

Every argument is classified before any is used, so an ambiguous one is
complained about first. The first complaint ends the reading, and so does
the first call for help.
-/
import CallTrace.Json.Value
import CallTrace.Number.Written
import CallTrace.Text.Lines
import CallTrace.Text.Qualified
import CallTrace.Text.Quoted

namespace CallTrace.CommandLine

/-- What a switch is followed by. -/
inductive Operand where
  | nothing
  | text
  | int
  | number
deriving DecidableEq

/-- A switch of a command. -/
structure Switch where
  /-- All names; the last one is the name of the value. -/
  names : List String
  operand : Operand := .nothing
  /-- The switch asks for help and for nothing else. -/
  helps : Bool := false
deriving DecidableEq

namespace Switch

/-- The name under which the value of a switch is found. -/
def key (s : Switch) : String := s.names.getLast?.getD ""

/-- The switch as it is named in complaints. -/
def title (s : Switch) : String := "/".intercalate s.names

end Switch

/-- What is wrong with the arguments. -/
inductive Complaint where
  | ambiguous (argument : String) (names : List String)
  | operandMissing (s : Switch)
  | badInt (s : Switch) (operand : String)
  | badNumber (s : Switch) (operand : String)
  /-- The switch takes no operand. -/
  | operandUnused (s : Switch) (operand : String)
  | unexpected (arguments : List String)
deriving DecidableEq

namespace Complaint

def message : Complaint → String
  | ambiguous a names =>
    "ambiguous option: " ++ a ++ " could match " ++ ", ".intercalate names
  | operandMissing s => about s "expected one argument"
  | badInt s o => about s ("invalid int value: " ++ shown o)
  | badNumber s o => about s ("invalid float value: " ++ shown o)
  | operandUnused s o => about s ("ignored explicit argument " ++ shown o)
  | unexpected arguments =>
    "unrecognized arguments: " ++ " ".intercalate arguments
where
  about (s : Switch) (what : String) : String :=
    "argument " ++ s.title ++ ": " ++ what
  shown (o : String) : String := String.ofList (Text.quoted o.toList)

end Complaint

/-- Why the arguments are not acted upon. -/
inductive Stop where
  | complaint (c : Complaint)
  | help
deriving DecidableEq

-- ====================================================== classification

/-- What an argument is. -/
inductive Argument where
  | word (s : String)
  /-- The bare pair of dashes. -/
  | mark
  | switch (s : Switch) (short : Bool) (operand : Option String)
  | unknown (s : String)
deriving DecidableEq

/-- The bare pair of dashes. -/
def bareMark : String := "--"

/-- The switch of an exact name. -/
def named? (switches : List Switch) (name : String) : Option Switch :=
  switches.find? (·.names.contains name)

/-- An argument cut at its first equals sign. -/
def cutAtEquals (a : String) : String × Option String :=
  let (name, operand) := Text.cutAt '=' a.toList
  (String.ofList name, operand.map String.ofList)

/-- The long names that an abbreviation may stand for. -/
def completions (switches : List Switch) (start : String) :
    List (String × Switch) :=
  switches.flatMap fun s =>
    (s.names.filter fun n => start.toList.isPrefixOf n.toList).map (·, s)

/-- The argument is a negative number, and so a word. -/
def isNegativeNumber (a : String) : Bool :=
  match a.toList with
  | '-' :: body =>
    Text.upToFinalBreak (fun cs =>
      let (whole, rest) := cs.span Text.isDigit
      match rest with
      | [] => !whole.isEmpty
      | '.' :: places => !places.isEmpty && places.all Text.isDigit
      | _ => false) body
  | _ => false

/-- What an argument is that is not the exact name of a switch. -/
def classifyInexact (switches : List Switch) (a : String) :
    Except Complaint Argument :=
  let unmatched : Argument :=
    if isNegativeNumber a || a.toList.contains ' ' then .word a
    else .unknown a
  match a.toList with
  | '-' :: '-' :: _ =>
    let (start, operand) := cutAtEquals a
    match completions switches start with
    | [] => .ok unmatched
    | [(_, s)] => .ok (.switch s false operand)
    | several => .error (.ambiguous a (several.map (·.1)))
  | '-' :: c :: rest =>
    match named? switches (String.ofList ['-', c]) with
    | some s => .ok (.switch s true (some (String.ofList rest)))
    | none => .ok unmatched
  | _ => .ok (.word a)

/-- What an argument is that stands before any bare pair of dashes. -/
def classify (switches : List Switch) (a : String) :
    Except Complaint Argument :=
  match a.toList with
  | ['-'] => .ok (.word a)
  | '-' :: second :: _ =>
    let short := second != '-'
    match named? switches a with
    | some s => .ok (.switch s short none)
    | none =>
      match cutAtEquals a with
      | (name, some operand) =>
        match named? switches name with
        | some s => .ok (.switch s short (some operand))
        | none => classifyInexact switches a
      | (_, none) => classifyInexact switches a
  | _ => .ok (.word a)

/-- What all arguments are. -/
def classifyAll (switches : List Switch) :
    List String → Except Complaint (List Argument)
  | [] => .ok []
  | a :: rest =>
    if a = bareMark then .ok (.mark :: rest.map .word)
    else do
      let first ← classify switches a
      pure (first :: (← classifyAll switches rest))

-- ============================================================= reading

/-- Where the reading is with respect to the first run of words. -/
inductive Phase where
  | before
  | inside
  | after
deriving DecidableEq

/-- What has been read from the arguments. -/
structure Gathered where
  phase : Phase := .before
  words : List String := []
  values : List (String × Json) := []
  unexpected : List String := []

namespace Gathered

/-- A word more, unless the first run of words is over. -/
def addWord (g : Gathered) (s : String) : Gathered :=
  if g.phase = .after then { g with unexpected := g.unexpected ++ [s] }
  else { g with phase := .inside, words := g.words ++ [s] }

/-- A bare pair of dashes: in the run of words it says nothing. -/
def addMark (g : Gathered) : Gathered :=
  if g.phase = .after then g.addWord bareMark else { g with phase := .inside }

/-- The end of a run of words. -/
def endRun (g : Gathered) : Gathered :=
  if g.phase = .inside then { g with phase := .after } else g

def addUnknown (g : Gathered) (s : String) : Gathered :=
  { g.endRun with unexpected := g.unexpected ++ [s] }

/-- A value more; it replaces an earlier one of the same switch. -/
def addValue (g : Gathered) (s : Switch) (v : Json) : Gathered :=
  { g.endRun with values := Json.setField g.values s.key v }

end Gathered

/-- The value of an operand. A bare pair of dashes is no operand but none
at all. -/
def valueOf (s : Switch) (operand : String) : Except Stop Json :=
  if operand = bareMark then .ok (.list [])
  else
    match s.operand with
    | .nothing | .text => .ok (.text operand)
    | .int =>
      match Number.typedInt? operand with
      | some n => .ok (.int n)
      | none => .error (.complaint (.badInt s operand))
    | .number =>
      match Number.typedDouble? operand with
      | some x => .ok (.float x)
      | none => .error (.complaint (.badNumber s operand))

/-- Short switches behind one dash: `s`, and those that the letters
name. -/
def together (switches : List Switch) (s : Switch) :
    List Char → Except Stop (List Switch)
  | [] => .ok [s]
  | c :: rest =>
    match named? switches (String.ofList ['-', c]) with
    | some next => (together switches next rest).map (s :: ·)
    | none =>
      .error (.complaint (.operandUnused s (String.ofList (c :: rest))))

/-- Switches without operands in effect. -/
def setAll (g : Gathered) (found : List Switch) : Except Stop Gathered :=
  if found.any (·.helps) then .error .help
  else .ok (found.foldl (fun g s => g.addValue s (.bool true)) g)

/-- Reads the arguments one after the other. -/
def gather (switches : List Switch) (g : Gathered) :
    List Argument → Except Stop Gathered
  | [] => .ok g
  | .word s :: rest => gather switches (g.addWord s) rest
  | .mark :: rest => gather switches g.addMark rest
  | .unknown s :: rest => gather switches (g.addUnknown s) rest
  | .switch s short (some operand) :: rest => do
    if s.operand ≠ .nothing then
      let v ← valueOf s operand
      gather switches (g.addValue s v) rest
    else if short && operand != "" then
      let g ← setAll g (← together switches s operand.toList)
      gather switches g rest
    else .error (.complaint (.operandUnused s operand))
  | .switch s _ none :: rest =>
    if s.operand = .nothing then do
      let g ← setAll g [s]
      gather switches g rest
    else
      match rest with
      | .word operand :: rest => do
        let v ← valueOf s operand
        gather switches (g.addValue s v) rest
      | _ => .error (.complaint (.operandMissing s))

/-- The words and the values of the switches in some arguments. -/
def readArguments (switches : List Switch) (arguments : List String) :
    Except Stop (List String × List (String × Json)) := do
  match classifyAll switches arguments with
  | .error c => .error (.complaint c)
  | .ok classified =>
    let g ← gather switches {} classified
    if g.unexpected.isEmpty then .ok (g.words, g.values)
    else .error (.complaint (.unexpected g.unexpected))

end CallTrace.CommandLine
