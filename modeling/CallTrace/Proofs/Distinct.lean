/-
Lists in which everything stands at its first place only.

Names are collected one after the other, and one that was collected before
is passed over, as is one that is not wanted at all. What is collected in
this way are the wanted names, each at its first place.
-/
import CallTrace.Reply.Absence

namespace CallTrace

variable {α : Type} [BEq α] [LawfulBEq α]

/-- What was collected before keeps its place, and what comes after it is
new. -/
theorem foldl_collect (skip : α → Bool) (xs kept : List α) :
    xs.foldl (fun kept x =>
        if skip x || kept.contains x then kept else kept ++ [x]) kept =
      kept ++ (xs.filter fun x => !(skip x || kept.contains x)).eraseDups := by
  induction xs generalizing kept with
  | nil => simp
  | cons x xs ih =>
    rw [List.foldl_cons]
    cases hx : skip x || kept.contains x with
    | true =>
      rw [if_pos rfl, ih, List.filter_cons_of_neg]
      simp only [hx, Bool.not_true, Bool.false_eq_true, not_false_eq_true]
    | false =>
      have hnew : (fun y => !(skip y || (kept ++ [x]).contains y)) =
          fun y => (!y == x) && !(skip y || kept.contains y) := by
        funext y
        simp only [List.contains_append, List.contains_cons,
          List.contains_nil, Bool.or_false]
        cases skip y <;> cases kept.contains y <;> cases y == x <;> rfl
      rw [if_neg Bool.false_ne_true, ih, List.filter_cons_of_pos,
        List.eraseDups_cons, List.filter_filter, hnew, List.append_assoc,
        List.singleton_append]
      rw [hx, Bool.not_false]

theorem nodup_eraseDups (xs : List α) : xs.eraseDups.Nodup := by
  cases xs with
  | nil => exact List.nodup_nil
  | cons x xs =>
    rw [List.eraseDups_cons, List.nodup_cons]
    exact ⟨by simp, nodup_eraseDups _⟩
termination_by xs.length
decreasing_by exact Nat.lt_succ_of_le (List.length_filter_le ..)

/-- Only later places are given up. -/
theorem Reply.firstPlaces_eq (xs : List α) :
    firstPlaces xs = xs.eraseDups := by
  have hall : xs.filter (fun _ => true) = xs :=
    List.filter_eq_self.2 fun _ _ => rfl
  have h := foldl_collect (fun _ => false) xs []
  simp only [Bool.false_or, List.contains_nil, Bool.not_false,
    List.nil_append, hall] at h
  exact h

end CallTrace
