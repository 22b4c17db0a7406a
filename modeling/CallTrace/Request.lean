/-
Requests as they are typed into a chat.

A message may start with the name of the tool. What is left is one of the
fixed commands, the change of the model, a type and a method as two words
or in dotted form, or nothing that is understood. Every message is some
request: reading one never fails.
-/
import CallTrace.Text.Case
import CallTrace.Text.Pattern
import CallTrace.Text.Lines
import CallTrace.Text.Quoted

namespace CallTrace

open Text Text.Pattern

/-- What a message asks for. -/
inductive Request where
  | analyze (typeName methodName : String)
  | clearCache
  | cacheStats
  | changeModel (model : String)
  | modelInfo
  | help
  /-- The message is not understood; the text says what was expected. -/
  | invalid (message : String)
deriving DecidableEq

namespace Request

/-- The name of the tool at the start of a message, perhaps addressed. -/
def toolName : Pattern :=
  let at_ := one (· == '@')
  all [blanks, optional (all [at_, run1 isWord, blanks1]), optional at_,
    caseless "flow", boundary]

/-- The fixed commands. -/
def commands : List (String × Request) :=
  [("clear-cache", clearCache), ("cache clear", clearCache),
   ("cache stats", cacheStats), ("model-info", modelInfo),
   ("model info", modelInfo), ("help", help)]

/-- A text without one pair of empty parentheses at its end. -/
def dropEmptyCall (cs : List Char) : List Char :=
  match cs.reverse with
  | ')' :: '(' :: rest => rest.reverse
  | _ => cs

/-- What the type of a dotted request may be written with. -/
def isTypeChar (c : Char) : Bool :=
  isWord c || c == '$' || c == '.' || c == ':'

/-- A type and a method with `.`, `::` or `#` between them. -/
def dotted? (cs : List Char) : Option (List Char × List Char) :=
  let back := (dropEmptyCall cs).reverse
  let method := (back.takeWhile isIdentRest).reverse
  let typeName? :=
    match back.dropWhile isIdentRest with
    | '.' :: front => some front.reverse
    | ':' :: ':' :: front => some front.reverse
    | '#' :: front => some front.reverse
    | _ => none
  match typeName? with
  | some typeName =>
    if isIdent method && !typeName.isEmpty && typeName.all isTypeChar then
      some (typeName, method)
    else none
  | none => none

/-- The request that the words of a message make. -/
def ofWords (clean : List Char) : List (List Char) → Request
  | [] => help
  | first :: rest =>
    if ["change-model", "model"].contains (String.ofList (lower first)) then
      match rest with
      | [] => invalid "Usage: change-model <model-name>"
      | model :: _ => changeModel (String.ofList model)
    else
      match rest with
      | method :: _ =>
        analyze (String.ofList first) (String.ofList (dropEmptyCall method))
      | [] =>
        match dotted? first with
        | some (typeName, method) =>
          analyze (String.ofList typeName) (String.ofList method)
        | none =>
          invalid ("Expected '<TypeName> <methodName>', got " ++
            String.ofList (quoted clean) ++ ". Type 'help' for usage.")

/-- The request that a message is. -/
def parse (message : String) : Request :=
  let cs := trim message.toList
  let clean := trim ((after? toolName cs).getD cs)
  let phrase := String.ofList (squeeze (lower clean))
  match commands.find? (·.1 == phrase) with
  | some (_, r) => r
  | none => ofWords clean (words clean)

-- ============================================================== views

def commandName : Request → String
  | analyze .. => "analyze"
  | clearCache => "clear_cache"
  | cacheStats => "cache_stats"
  | changeModel _ => "change_model"
  | modelInfo => "model_info"
  | help => "help"
  | invalid _ => "invalid"

end Request

/-- The answer to a request for help. -/
def helpText : String :=
  "**Flow analysis commands**\n\n" ++
  "- `flow <TypeName> <methodName>` trace a method step by step\n" ++
  "- `flow <TypeName>.<methodName>` same, dotted form\n" ++
  "- `cache stats` show cache statistics\n" ++
  "- `cache clear` / `clear-cache` drop all cached analyses\n" ++
  "- `change-model <name>` analyze with a different model\n" ++
  "- `model-info` show the model in use\n" ++
  "- `help` this message\n"

end CallTrace
