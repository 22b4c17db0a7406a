/-
The beginning of a list by a number that may be negative.
-/

namespace CallTrace

/-- The first items of a list; a negative number leaves out as many at the
end. -/
def firstItems {α : Type} (limit : Int) (xs : List α) : List α :=
  if limit < 0 then xs.take (xs.length - limit.natAbs)
  else xs.take limit.toNat

theorem firstItems_sublist {α : Type} (limit : Int) (xs : List α) :
    (firstItems limit xs).Sublist xs := by
  rw [firstItems]
  split <;> exact List.take_sublist _ _

end CallTrace
