/-
Method keys.

A method is known by the name of a type and the name of a method on it.
The same key names the method in the caches, in the walkthrough and in the
detection of cycles.
-/
import CallTrace.Text.Lines

namespace CallTrace

/-- A type and a method on it. -/
structure MethodKey where
  typeName : String
  methodName : String
deriving DecidableEq, Inhabited

namespace MethodKey

/-- The key as one word, under which durable entries are filed. -/
def text (k : MethodKey) : String := k.typeName ++ "#" ++ k.methodName

/-- The key as it is shown to readers. -/
def display (k : MethodKey) : String :=
  k.typeName ++ "." ++ k.methodName ++ "()"

/-- The key written as one word: the type name ends at the first `#`. A
word without one is a type name, and the method name is empty. -/
def ofText (s : String) : MethodKey :=
  let (front, back) := Text.cutAt '#' s.toList
  ⟨String.ofList front, String.ofList (back.getD [])⟩

end MethodKey

end CallTrace
