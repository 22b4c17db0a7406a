/-
An oracle that is a chat model.

The model is sent two messages and streams its reply in pieces. A piece
holds text, or a list of parts of which some are text; what holds no text
is passed over. Whatever fails while the reply comes in is reported as a
failure of the oracle, and the pieces before it stand.
-/
import CallTrace.Oracle.Texts
import CallTrace.Settings

namespace CallTrace.Oracle

open Run (Beat Prompt)

/-- Who speaks in a message. -/
inductive Role where
  | system
  | human
deriving DecidableEq

def Role.name : Role → String
  | system => "system"
  | human => "human"

/-- What the model is sent. -/
def messages (p : Prompt) : List (Role × String) :=
  [(.system, systemText), (.human, methodText p)]

-- ============================================================ identity

/-- The identity of an oracle: the name of its model, or else the name it
was given. -/
def identity (modelName givenName : Option String) : String :=
  let said? (name : Option String) : Option String := name.filter (· != "")
  ((said? modelName).or (said? givenName)).getD "unknown"

/-- The model for a name. An empty name stands for the model that the
environment names, or the usual one. -/
def modelFor (environment : List (String × String)) (name : String) :
    String :=
  if name != "" then name
  else
    ((environment.reverse.find? (·.1 == "DEFAULT_MODEL")).map (·.2)).getD
      usualModel

-- ============================================================== pieces

/-- What a value is called where text was expected. -/
private def kindName : Json → String
  | .null => "NoneType"
  | .bool _ => "bool"
  | .int _ => "int"
  | .float _ => "float"
  | .text _ | .brokenText _ => "str"
  | .list _ => "list"
  | .object _ => "dict"

/-- What a part of a piece gives to the text, if anything. -/
private def partOf? : Json → Option Json
  | .text s | .brokenText s => some (.text s)
  | .object fields =>
    match (Json.object fields).field? "type" with
    | some (.text "text") =>
      some (((Json.object fields).field? "text").getD (.text ""))
    | _ => none
  | _ => none

/-- Texts in a row; `n` is how many were there before. -/
private def joinFrom (n : Nat) : List Json → Except Failure String
  | [] => .ok ""
  | .text s :: rest | .brokenText s :: rest => (joinFrom (n + 1) rest).map (s ++ ·)
  | v :: _ =>
    .error (.foreign "TypeError" ("sequence item " ++ toString n ++
      ": expected str instance, " ++ kindName v ++ " found"))

/-- The text of a piece. -/
def pieceText : Json → Except Failure String
  | .text s | .brokenText s => .ok s
  | .list parts => joinFrom 0 (parts.filterMap partOf?)
  | _ => .ok ""

-- ============================================================= replies

/-- The failure of an oracle that a failure of its model leads to. -/
def failureOf (identity : String) (p : Prompt) (f : Failure) : Failure :=
  .reported .oracle
    ("Oracle " ++ identity ++ " failed for " ++ p.typeName ++ "." ++
      p.methodName ++ "(): " ++ f.quotation)
    [("model", .text identity)]

/-- What an oracle does while its model streams the pieces of a reply and
perhaps fails in the end. -/
def answer (identity : String) (p : Prompt) (failure : Option Failure) :
    List Json → List Beat
  | [] =>
    match failure with
    | some f => [.fail (failureOf identity p f)]
    | none => []
  | piece :: rest =>
    match pieceText piece with
    | .error f => [.fail (failureOf identity p f)]
    | .ok "" => answer identity p failure rest
    | .ok text => .say text :: answer identity p failure rest

end CallTrace.Oracle
