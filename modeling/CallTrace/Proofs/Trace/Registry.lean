/-
Registering analyses.

A registry holds one analysis under each key. What is registered is found
under its own key and disturbs no other; a key that was not there comes
last.
-/
import CallTrace.Trace.Registry

namespace CallTrace.Trace.Registry

variable {r : Registry} {a b : Analysis} {key : MethodKey}

theorem get?_eq_some_key (h : r.get? key = some a) : a.key = key := by
  simpa using List.find?_some h

theorem mem_of_get? (h : r.get? key = some a) : a ∈ r :=
  List.mem_of_find?_eq_some h

theorem contains_iff_mem_keys : r.contains key = true ↔ key ∈ r.keys := by
  rw [contains, get?, List.find?_isSome, keys, List.mem_map]
  simp only [decide_eq_true_eq]

theorem contains_eq_false_iff :
    r.contains key = false ↔ key ∉ r.keys := by
  rw [← contains_iff_mem_keys, Bool.not_eq_true]

theorem get?_eq_none_iff : r.get? key = none ↔ key ∉ r.keys := by
  rw [← contains_eq_false_iff, contains, Option.isSome_eq_false_iff,
    Option.isNone_iff_eq_none]

/-- A new key comes last. -/
theorem register_of_not_mem (h : a.key ∉ r.keys) :
    r.register a = r ++ [a] := by
  rw [register, contains_eq_false_iff.2 h]
  simp

/-- Registering puts a new key at the end, and leaves a known one in its
place. -/
theorem keys_register (r : Registry) (a : Analysis) :
    (r.register a).keys =
      if a.key ∈ r.keys then r.keys else r.keys ++ [a.key] := by
  rw [register]
  by_cases h : a.key ∈ r.keys
  · rw [if_pos (contains_iff_mem_keys.2 h), if_pos h, keys, keys,
      List.map_map]
    refine List.map_congr_left fun b _ => ?_
    by_cases hb : b.key = a.key <;> simp [hb]
  · rw [contains_eq_false_iff.2 h, if_neg h]
    simp [keys]

/-- What is known stays known when something is registered. -/
theorem mem_keys_register (hkey : key ∈ r.keys) :
    key ∈ (r.register a).keys := by
  rw [keys_register]
  split
  · exact hkey
  · exact List.mem_append_left _ hkey

theorem mem_keys_register_self (r : Registry) (a : Analysis) :
    a.key ∈ (r.register a).keys := by
  rw [keys_register]
  split
  · assumption
  · simp

/-- In a registry without two analyses of one method each is found under
its key. -/
theorem get?_of_mem (hnodup : r.keys.Nodup) (h : a ∈ r) :
    r.get? a.key = some a := by
  induction r with
  | nil => exact absurd h List.not_mem_nil
  | cons b r ih =>
    rw [keys, List.map_cons, List.nodup_cons] at hnodup
    rw [get?, List.find?_cons]
    rcases List.mem_cons.1 h with rfl | h
    · simp
    · have hne : b.key ≠ a.key := fun he =>
        hnodup.1 (he ▸ List.mem_map_of_mem h)
      simp only [hne, decide_false]
      exact ih hnodup.2 h

/-- What is found stays found when more is put at the end. -/
theorem get?_append_of_some (h : r.get? key = some a) (r' : Registry) :
    (r ++ r').get? key = some a := by
  rw [get?, List.find?_append, ← get?, h]
  rfl

end CallTrace.Trace.Registry
