/-
What trimming leaves alone.

Whether trimming changes a text can be read off its two ends. That settles
it for a text that is put together from parts, where only the outer ends of
the outer parts count.
-/
import CallTrace.Text.Blank
import CallTrace.Text.Word
import Mathlib.Data.List.DropRight
import Mathlib.Data.List.TakeDrop

namespace CallTrace.Text

variable {p : Char → Bool} {cs : List Char}

/-- What is checked character by character. To decide the statement as it
stands could mean to go through all characters there are. -/
theorem forall_mem_of_all {P : Char → Prop} [DecidablePred P]
    (h : (cs.all fun c => decide (P c)) = true) : ∀ c ∈ cs, P c :=
  fun c hc => of_decide_eq_true (List.all_eq_true.1 h c hc)

/-- A stretch of a kind is cut off where something else follows. -/
theorem span_append {p : Char → Bool} {ds rest : List Char}
    (hds : ∀ c ∈ ds, p c = true) (hrest : ∀ c ∈ rest.head?, p c = false) :
    (ds ++ rest).span p = (ds, rest) := by
  rw [List.span_eq_takeWhile_dropWhile,
    List.takeWhile_append_of_pos hds, List.dropWhile_append_of_pos hds]
  cases rest with
  | nil => simp
  | cons c rest =>
    have hc : p c = false := hrest c rfl
    simp [hc]

theorem trimLeftOf_eq_self_iff :
    trimLeftOf p cs = cs ↔ ∀ c ∈ cs.head?, p c = false := by
  cases cs with
  | nil => simp [trimLeftOf]
  | cons c rest => simp [trimLeftOf, List.dropWhile_eq_self_iff]

theorem trimRightOf_eq_self_iff :
    trimRightOf p cs = cs ↔ ∀ c ∈ cs.getLast?, p c = false := by
  have hdrop : trimRightOf p cs = cs.rdropWhile p := rfl
  rw [hdrop, List.rdropWhile_eq_self_iff]
  cases cs using List.reverseRecOn with
  | nil => simp
  | append_singleton front c => simp

/-- Trimming leaves a text as it is if neither of its ends is trimmed. -/
theorem trimOf_eq_self_iff :
    trimOf p cs = cs ↔
      (∀ c ∈ cs.head?, p c = false) ∧ ∀ c ∈ cs.getLast?, p c = false := by
  rw [← trimLeftOf_eq_self_iff, ← trimRightOf_eq_self_iff]
  constructor
  · intro h
    -- Nothing can be lost at the front, or the whole would be shorter.
    have hleft : trimLeftOf p cs = cs := by
      refine (List.dropWhile_suffix p).eq_of_length_le ?_
      have hlength : (trimOf p cs).length ≤ (trimLeftOf p cs).length :=
        (List.rdropWhile_prefix p (trimLeftOf p cs)).length_le
      rwa [h] at hlength
    exact ⟨hleft, by rwa [trimOf, hleft] at h⟩
  · rintro ⟨hleft, hright⟩
    rw [trimOf, hleft, hright]

theorem trimRightOf_cons {c : Char} (h : p c = false) :
    trimRightOf p (c :: cs) = c :: trimRightOf p cs := by
  rw [trimRightOf, trimRightOf, List.reverse_cons, List.dropWhile_append]
  cases hdrop : cs.reverse.dropWhile p with
  | nil => simp [h]
  | cons d rest => simp

/-- A text whose end is left alone leaves what stands before it alone. -/
theorem trimRightOf_append_of_ne_nil (xs : List Char) (hne : cs ≠ [])
    (h : trimRightOf p cs = cs) :
    trimRightOf p (xs ++ cs) = xs ++ cs := by
  rw [trimRightOf_eq_self_iff] at h ⊢
  rwa [List.getLast?_append_of_ne_nil xs hne]

/-- Trimming on the right stops at the end of what is left alone there. -/
theorem trimRightOf_append_of_last {xs : List Char}
    (h : ∀ c ∈ xs.getLast?, p c = false) (cs : List Char) :
    trimRightOf p (xs ++ cs) = xs ++ trimRightOf p cs := by
  rw [trimRightOf, trimRightOf, List.reverse_append, List.dropWhile_append]
  split
  · rename_i hempty
    rw [List.isEmpty_iff.1 hempty, List.reverse_nil, List.append_nil]
    exact trimRightOf_eq_self_iff.2 h
  · rw [List.reverse_append, List.reverse_reverse]

/-- Trimming goes on behind what it leaves alone. -/
theorem trimOf_append_of_trimmed {xs : List Char} (hne : xs ≠ [])
    (h : trimOf p xs = xs) (cs : List Char) :
    trimOf p (xs ++ cs) = xs ++ trimRightOf p cs := by
  obtain ⟨hhead, hlast⟩ := trimOf_eq_self_iff.1 h
  have hleft : trimLeftOf p (xs ++ cs) = xs ++ cs := by
    rw [trimLeftOf_eq_self_iff, List.head?_append_of_ne_nil _ hne]
    exact hhead
  rw [trimOf, hleft, trimRightOf_append_of_last hlast]

/-- More of what is trimmed at the end changes nothing. -/
theorem trimOf_append_of_all {tail : List Char}
    (h : ∀ c ∈ tail, p c = true) (cs : List Char) :
    trimOf p (cs ++ tail) = trimOf p cs := by
  unfold trimOf trimLeftOf
  rw [List.dropWhile_append]
  split
  · rename_i hempty
    have htail : tail.dropWhile p = [] := List.dropWhile_eq_nil_iff.2 h
    rw [htail, List.isEmpty_iff.1 hempty]
  · unfold trimRightOf
    rw [List.reverse_append, List.dropWhile_append_of_pos]
    simpa using h

theorem trim_trimRight (cs : List Char) : trim (trimRight cs) = trim cs := by
  obtain ⟨tail, htail, hall⟩ := trimRightOf_append isBlank cs
  have htrim := trimOf_append_of_all (List.all_eq_true.1 hall)
    (trimRightOf isBlank cs)
  rw [← htail] at htrim
  exact htrim.symm

/-- Only characters of the kind are lost. -/
theorem mem_trimOf {c : Char} (h : c ∈ cs) (hc : p c = false) :
    c ∈ trimOf p cs := by
  have hdrop : ∀ ds : List Char, c ∈ ds → c ∈ ds.dropWhile p := by
    intro ds hds
    rw [← List.takeWhile_append_dropWhile (p := p) (l := ds),
      List.mem_append] at hds
    refine hds.resolve_left fun htake => ?_
    exact absurd (List.all_eq_true.1 List.all_takeWhile c htake) (by simp [hc])
  exact List.mem_reverse.2 (hdrop _ (List.mem_reverse.2 (hdrop cs h)))

section Blanks

variable (h : trim cs = cs)

include h

theorem trimLeft_of_trim : trimLeft cs = cs :=
  trimLeftOf_eq_self_iff.2 (trimOf_eq_self_iff.1 h).1

theorem trimRight_of_trim : trimRight cs = cs :=
  trimRightOf_eq_self_iff.2 (trimOf_eq_self_iff.1 h).2

end Blanks

-- ============================================================== words

/-- No range of one table meets a range of the other. -/
def Ranges.apart (rs ts : Ranges) : Bool :=
  rs.all fun r => ts.all fun t => r.2 < t.1 || t.2 < r.1

/-- Ranges that are apart have no character in common. -/
theorem Ranges.not_holds_of_apart {rs ts : Ranges} (h : rs.apart ts = true)
    {c : Char} (hc : rs.holds c = true) : ts.holds c = false := by
  simp only [holds, List.any_eq_true, Bool.and_eq_true, decide_eq_true_eq,
    List.any_eq_false, not_and, Nat.not_le] at hc ⊢
  obtain ⟨r, hr, hlow, hhigh⟩ := hc
  intro t ht hbelow
  have hapart := List.all_eq_true.1 (List.all_eq_true.1 h r hr) t ht
  simp only [Bool.or_eq_true, decide_eq_true_eq] at hapart
  omega

/-- A kind of characters is not blank if that is so of ASCII and its table
keeps apart from the blanks. -/
theorem isBlank_eq_false {p : Char → Bool} {rs : Ranges}
    (hsmall : ∀ n : Fin 128, p (Char.ofNat n) = true →
      isBlank (Char.ofNat n) = false)
    (hwide : ∀ c, ¬isAscii c = true → p c = rs.holds c)
    (hapart : rs.apart blankRanges = true) {c : Char} (h : p c = true) :
    isBlank c = false := by
  by_cases hascii : isAscii c = true
  · have hlt : c.toNat < 128 := of_decide_eq_true hascii
    have hc := hsmall ⟨c.toNat, hlt⟩
    simp only [Char.ofNat_toNat] at hc
    exact hc h
  · rw [hwide c hascii] at h
    rw [isBlank, if_neg hascii]
    exact Ranges.not_holds_of_apart hapart h

theorem isBlank_of_isWord {c : Char} (h : isWord c = true) :
    isBlank c = false :=
  isBlank_eq_false (p := isWord) (by decide)
    (fun _ hc => if_neg hc) (by decide +kernel) h

theorem isBlank_of_isDigit {c : Char} (h : isDigit c = true) :
    isBlank c = false :=
  isBlank_eq_false (p := isDigit) (by decide)
    (fun _ hc => if_neg hc) (by decide) h

theorem isBlank_of_isIdentRest {c : Char} (h : isIdentRest c = true) :
    isBlank c = false := by
  rw [isIdentRest, Bool.or_eq_true] at h
  rcases h with hword | hdollar
  · exact isBlank_of_isWord hword
  · rw [beq_iff_eq.1 hdollar]
    decide

end CallTrace.Text
