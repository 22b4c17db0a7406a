/-
The limits of one run.

Unset limits come from the settings. A run always may analyze its root, so
the depth may be zero but the number of methods and the time for a reply
may not.
-/
import CallTrace.Json.Record
import CallTrace.Method.Record

namespace CallTrace

open Json
open Number (Double)

/-- What one run may use. -/
structure Limits where
  maxDepth : Nat := 5
  maxMethods : Nat := 15
  timeout : Double := .ofInt 60
  useCache : Bool := true
  model : Option String := none
  maxMethods_pos : 0 < maxMethods := by decide
  timeout_pos : Double.lt .zero timeout = true := by decide
deriving DecidableEq

namespace Limits

/-- A number above zero. -/
private def readAboveZero :
    Reader { x : Double // Double.lt .zero x = true } := fun v =>
  (readDouble v).andThen fun x =>
    if h : Double.lt .zero x = true then .good ⟨x, h⟩ else fault .notAbove

def read : Reader Limits := readObject fun v =>
  (fun depth methods timeout useCache model =>
    { maxDepth := depth.1.toNat, maxMethods := methods.1.toNat,
      timeout := timeout.1, useCache := useCache, model := model,
      maxMethods_pos := by omega, timeout_pos := timeout.2 : Limits })
    <$> withDefault "max_depth" ⟨5, by decide⟩ (readIntAtLeast 0) v
    <*> withDefault "max_total_methods" ⟨15, by decide⟩ (readIntAtLeast 1) v
    <*> withDefault "per_call_timeout_s" ⟨.ofInt 60, by decide⟩
      readAboveZero v
    <*> withDefault "enable_cache" true readBool v
    <*> withDefault "model" none (readNullable readText) v

def toJson (l : Limits) : Json :=
  .object
    [("max_depth", .int l.maxDepth),
     ("max_total_methods", .int l.maxMethods),
     ("per_call_timeout_s", .float l.timeout),
     ("enable_cache", .bool l.useCache),
     ("model", .ofText? l.model)]

/-- What is written of limits is read again. -/
theorem read_toJson (l : Limits) : read l.toJson = .good l := by
  have hnat : (0 : Int) ≤ l.maxDepth := Int.natCast_nonneg _
  have hdepth : readIntAtLeast 0 (.int l.maxDepth) =
      .good ⟨l.maxDepth, hnat⟩ := by
    rw [readIntAtLeast, readInt, Reading.andThen, dif_pos hnat]
  have hpos : (1 : Int) ≤ l.maxMethods := Int.ofNat_le.2 l.maxMethods_pos
  have hmethods : readIntAtLeast 1 (.int l.maxMethods) =
      .good ⟨l.maxMethods, hpos⟩ := dif_pos hpos
  have htime : readAboveZero (.float l.timeout) =
      .good ⟨l.timeout, l.timeout_pos⟩ := dif_pos l.timeout_pos
  have hmodel : readNullable readText (.ofText? l.model) =
      .good l.model := by
    cases l.model <;> rfl
  simp only [read, toJson, readObject, withDefault, field?,
    List.find?_cons, String.reduceBEq, Option.map_some, hdepth, hmethods,
    htime, hmodel, readBool, Reading.under]
  rfl

end Limits

end CallTrace
