/-
JSON documents.

Integers and double-precision numbers are told apart, as `5` and `5.0`
are, and an object keeps the order in which its keys were first written,
because the durable cache reads its entries in that order and writes them
back in it. A key that is written twice keeps its first place and takes
its last value, so a document never holds a key twice.
-/
import CallTrace.Number.Double

namespace CallTrace

open Number (Double)

/-- A JSON document. A string in which half of a surrogate pair stands
alone is `brokenText`: it is a string of JSON but no text of Unicode, so
the replacement character stands for every such half. -/
inductive Json where
  | null
  | bool (b : Bool)
  | int (n : Int)
  | float (x : Double)
  | text (s : String)
  | brokenText (s : String)
  | list (items : List Json)
  | object (fields : List (String × Json))

namespace Json

instance : Inhabited Json := ⟨.null⟩

/-- The fields with `key` set to `value`: in its place if the key is
there, and at the end otherwise. -/
def setField (fields : List (String × Json)) (key : String) (value : Json) :
    List (String × Json) :=
  if fields.any (·.1 == key) then
    fields.map fun f => if f.1 == key then (key, value) else f
  else fields ++ [(key, value)]

/-- The value of a field of an object. -/
def field? (key : String) : Json → Option Json
  | .object fields => (fields.find? (·.1 == key)).map (·.2)
  | _ => none

end Json

end CallTrace
