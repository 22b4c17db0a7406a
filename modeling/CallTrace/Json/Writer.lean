/-
Writing JSON documents.

Every character outside printable ASCII is escaped, so a written document
is plain ASCII. Two layouts are used: on one line, with a space after each
comma and colon, and indented by two columns a level, where an empty list
or object stays on one line.
-/
import CallTrace.Json.Value
import CallTrace.Number.Decimal

namespace CallTrace.Json

open Number (Double)

/-- Four hexadecimal digits. -/
def hex4 (n : Nat) : List Char :=
  let ds := Nat.toDigits 16 n
  List.replicate (4 - ds.length) '0' ++ ds

/-- An escape by code unit: one, or two for a character beyond the first
plane. -/
def escapeUnits (n : Nat) : List Char :=
  if n < 0x10000 then '\\' :: 'u' :: hex4 n
  else
    let m := n - 0x10000
    '\\' :: 'u' :: hex4 (0xd800 + m / 0x400) ++
      '\\' :: 'u' :: hex4 (0xdc00 + m % 0x400)

/-- One character inside a string. -/
def escapeChar (c : Char) : List Char :=
  if c == '"' then ['\\', '"']
  else if c == '\\' then ['\\', '\\']
  else if c == '\n' then ['\\', 'n']
  else if c == '\r' then ['\\', 'r']
  else if c == '\t' then ['\\', 't']
  else if c.toNat == 0x08 then ['\\', 'b']
  else if c.toNat == 0x0c then ['\\', 'f']
  else if 0x20 ≤ c.toNat && c.toNat ≤ 0x7e then [c]
  else escapeUnits c.toNat

/-- A string between double quotes. -/
def stringText (s : String) : List Char :=
  '"' :: s.toList.flatMap escapeChar ++ ['"']

/-- A number: the shortest form that reads back. -/
def numberText : Double → List Char
  | .nan => "NaN".toList
  | .infinite negative =>
    if negative then "-Infinity".toList else "Infinity".toList
  | x => x.text

/-- A value without parts. -/
def leafText : Json → List Char
  | .null => "null".toList
  | .bool b => if b then "true".toList else "false".toList
  | .int n => Number.intText n
  | .float x => numberText x
  | .text s | .brokenText s => stringText s
  | _ => ['"', '"']

mutual

/-- The document on one line. -/
def compact : Json → List Char
  | .list items => '[' :: compactItems items ++ [']']
  | .object fields => '{' :: compactFields fields ++ ['}']
  | leaf => leafText leaf

def compactItems : List Json → List Char
  | [] => []
  | [v] => compact v
  | v :: vs => compact v ++ ',' :: ' ' :: compactItems vs

def compactFields : List (String × Json) → List Char
  | [] => []
  | [(k, v)] => stringText k ++ ':' :: ' ' :: compact v
  | (k, v) :: fs =>
    stringText k ++ ':' :: ' ' :: compact v ++ ',' :: ' ' :: compactFields fs

end

/-- A new line at a level. -/
def newLine (level : Nat) : List Char :=
  '\n' :: List.replicate (2 * level) ' '

mutual

/-- The document with its parts indented, starting at a level. -/
def indentedAt (level : Nat) : Json → List Char
  | .list [] => ['[', ']']
  | .object [] => ['{', '}']
  | .list items =>
    '[' :: newLine (level + 1) ++ indentedItems (level + 1) items ++
      newLine level ++ [']']
  | .object fields =>
    '{' :: newLine (level + 1) ++ indentedFields (level + 1) fields ++
      newLine level ++ ['}']
  | leaf => leafText leaf

def indentedItems (level : Nat) : List Json → List Char
  | [] => []
  | [v] => indentedAt level v
  | v :: vs =>
    indentedAt level v ++ ',' :: newLine level ++ indentedItems level vs

def indentedFields (level : Nat) : List (String × Json) → List Char
  | [] => []
  | [(k, v)] => stringText k ++ ':' :: ' ' :: indentedAt level v
  | (k, v) :: fs =>
    stringText k ++ ':' :: ' ' :: indentedAt level v ++
      ',' :: newLine level ++ indentedFields level fs

end

/-- The document with its parts indented. -/
def indented (v : Json) : List Char := indentedAt 0 v

end CallTrace.Json
