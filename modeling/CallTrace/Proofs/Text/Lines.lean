/-
Cutting a text at line feeds, and putting the lines together again.

Cutting and joining are inverse to each other: a text is its pieces joined,
and pieces without the separator are what their join is cut into. Uniting
the two characters of a break changes nothing in lines that do not end in a
carriage return, so it does not come between the two.
-/
import CallTrace.Text.Lines
import Mathlib.Data.List.Basic

namespace CallTrace.Text

-- ============================================================ joining

section

variable {sep l : List Char} {ls ms : List (List Char)}

theorem joinWith_cons (hne : ls ≠ []) :
    joinWith sep (l :: ls) = l ++ sep ++ joinWith sep ls :=
  List.intercalate_cons_of_ne_nil hne

/-- Two lists are joined as they are joined by themselves, with a separator
between. -/
theorem joinWith_append (hls : ls ≠ []) (hms : ms ≠ []) :
    joinWith sep (ls ++ ms) = joinWith sep ls ++ sep ++ joinWith sep ms := by
  induction ls with
  | nil => exact absurd rfl hls
  | cons l rest ih =>
    cases rest with
    | nil =>
      rw [List.singleton_append, joinWith_cons hms, joinWith, joinWith,
        List.intercalate_singleton]
    | cons m rest =>
      rw [List.cons_append, joinWith_cons (by simp), joinWith_cons (by simp),
        ih (by simp)]
      simp only [List.append_assoc]

theorem joinWith_ne_nil (h : l ≠ []) : joinWith sep (l :: ls) ≠ [] := by
  cases ls with
  | nil => simpa [joinWith] using h
  | cons m ls =>
    rw [joinWith_cons (by simp), List.append_assoc]
    exact List.append_ne_nil_of_left_ne_nil h _

/-- A character of a joined text is one of the separator, or of a part. -/
theorem mem_of_mem_joinWith {c : Char} (h : c ∈ joinWith sep ls) :
    c ∈ sep ∨ ∃ l ∈ ls, c ∈ l := by
  induction ls with
  | nil => cases h
  | cons l ls ih =>
    cases ls with
    | nil => exact .inr ⟨l, .head _, by simpa [joinWith] using h⟩
    | cons m ls =>
      rw [joinWith_cons (by simp), List.append_assoc, List.mem_append,
        List.mem_append] at h
      rcases h with h | h | h
      · exact .inr ⟨l, .head _, h⟩
      · exact .inl h
      · refine (ih h).imp_right ?_
        rintro ⟨l, hl, hc⟩
        exact ⟨l, .tail _ hl, hc⟩

end

-- ============================================================ cutting

/-- Splitting here is splitting in the standard library. -/
theorem splitBy_eq_splitOnP (p : Char → Bool) (cs : List Char) :
    splitBy p cs = cs.splitOnP p := by
  have hgo : ∀ piece pieces, splitBy.go p piece pieces cs =
      pieces.reverse ++ List.splitOnPPrepend p cs piece := by
    induction cs with
    | nil => simp [splitBy.go, List.splitOnPPrepend]
    | cons c rest ih =>
      intro piece pieces
      cases hc : p c <;> simp [splitBy.go, hc, ih, List.splitOnPPrepend]
  exact hgo [] []

theorem splitOn_eq (sep : Char) (cs : List Char) :
    splitOn sep cs = cs.splitOn sep :=
  splitBy_eq_splitOnP _ cs

section

variable {p : Char → Bool}

theorem splitBy_ne_nil (p : Char → Bool) (cs : List Char) :
    splitBy p cs ≠ [] := by
  rw [splitBy_eq_splitOnP]
  exact List.splitOnP_ne_nil p cs

theorem splitBy_append {sep : Char} (h : p sep = true) (xs ys : List Char) :
    splitBy p (xs ++ sep :: ys) = splitBy p xs ++ splitBy p ys := by
  simp only [splitBy_eq_splitOnP]
  exact List.splitOnP_append_cons xs ys h

/-- What has no separator in it belongs to the first piece. -/
theorem splitBy_append_of_not {xs : List Char} (h : ∀ c ∈ xs, p c = false)
    (ys : List Char) :
    splitBy p (xs ++ ys) = (splitBy p ys).modifyHead (xs ++ ·) := by
  simp only [splitBy_eq_splitOnP]
  induction xs with
  | nil =>
    rw [List.nil_append]
    cases ys.splitOnP p <;> rfl
  | cons c xs ih =>
    rw [List.cons_append, List.splitOnP_cons_eq_if_modifyHead,
      if_neg (by simp [h c (.head _)]), ih fun d hd => h d (.tail _ hd)]
    cases ys.splitOnP p <;> rfl

/-- A stretch without separators, with one after it or not, stands at the
start of its piece. -/
theorem prefix_or_mem_splitBy {xs tail ys l : List Char}
    (h : ∀ c ∈ xs, p c = false) (htail : tail = [] ∨ ∃ c, tail = [c] ∧
      p c = true) (hl : l ∈ splitBy p (xs ++ (tail ++ ys))) :
    xs <+: l ∨ l ∈ splitBy p ys := by
  have hfirst : ∀ zs, l ∈ splitBy p (xs ++ zs) →
      xs <+: l ∨ l ∈ (splitBy p zs).tail := by
    intro zs hl
    rw [splitBy_append_of_not h] at hl
    cases hzs : splitBy p zs with
    | nil => exact absurd hzs (splitBy_ne_nil p zs)
    | cons piece pieces =>
      rw [hzs, List.modifyHead_cons] at hl
      rcases List.mem_cons.1 hl with rfl | hl
      · exact .inl (List.prefix_append _ _)
      · exact .inr hl
  refine (hfirst _ hl).imp_right fun hl => ?_
  rcases htail with rfl | ⟨c, rfl, hc⟩
  · exact List.mem_of_mem_tail hl
  · have hcut : splitBy p ([c] ++ ys) = [] :: splitBy p ys :=
      splitBy_append hc [] ys
    rwa [hcut] at hl

theorem splitBy_of_not {xs : List Char} (h : ∀ c ∈ xs, p c = false) :
    splitBy p xs = [xs] := by
  simpa [splitBy, splitBy.go] using splitBy_append_of_not h []

/-- A piece holds nothing that was not in the text. -/
theorem mem_of_mem_splitBy {c : Char} {cs piece : List Char}
    (hpiece : piece ∈ splitBy p cs) (hc : c ∈ piece) : c ∈ cs := by
  rw [splitBy_eq_splitOnP] at hpiece
  induction cs generalizing piece with
  | nil =>
    obtain rfl := List.mem_singleton.1 hpiece
    exact hc
  | cons d rest ih =>
    rw [List.splitOnP_cons_eq_if_modifyHead] at hpiece
    cases hrest : rest.splitOnP p with
    | nil => exact absurd hrest (List.splitOnP_ne_nil p rest)
    | cons first more =>
      rw [hrest] at hpiece ih
      split at hpiece
      · rcases List.mem_cons.1 hpiece with rfl | hpiece
        · cases hc
        · exact .tail _ (ih hpiece hc)
      · rcases List.mem_cons.1 hpiece with rfl | hpiece
        · exact (List.mem_cons.1 hc).elim (fun h => h ▸ .head _)
            fun hc => .tail _ (ih (.head _) hc)
        · exact .tail _ (ih (.tail _ hpiece) hc)

/-- Splitting a joined text splits each of its parts. -/
theorem splitBy_joinWith {sep : Char} {ls : List (List Char)}
    (h : p sep = true) (hne : ls ≠ []) :
    splitBy p (joinWith [sep] ls) = ls.flatMap (splitBy p) := by
  induction ls with
  | nil => exact absurd rfl hne
  | cons l rest ih =>
    cases rest with
    | nil => simp [joinWith]
    | cons m rest =>
      rw [joinWith_cons (by simp), List.append_assoc, List.singleton_append,
        splitBy_append h, ih (by simp), List.flatMap_cons (x := l)]

end

theorem splitOn_append (sep : Char) (xs ys : List Char) :
    splitOn sep (xs ++ sep :: ys) = splitOn sep xs ++ splitOn sep ys :=
  splitBy_append (p := (· == sep)) (beq_self_eq_true sep) xs ys

theorem splitOn_append_of_not_mem {sep : Char} {xs : List Char}
    (h : sep ∉ xs) (ys : List Char) :
    splitOn sep (xs ++ ys) = (splitOn sep ys).modifyHead (xs ++ ·) :=
  splitBy_append_of_not
    (fun c hc => by simpa using fun heq : c = sep => h (heq ▸ hc)) ys

theorem splitOn_of_not_mem {sep : Char} {xs : List Char} (h : sep ∉ xs) :
    splitOn sep xs = [xs] := by
  simpa [splitOn, splitBy, splitBy.go] using splitOn_append_of_not_mem h []

theorem splitOn_ne_nil (sep : Char) (cs : List Char) :
    splitOn sep cs ≠ [] :=
  splitBy_ne_nil _ cs

theorem joinWith_splitOn (sep : Char) (cs : List Char) :
    joinWith [sep] (splitOn sep cs) = cs := by
  rw [splitOn_eq]
  exact List.intercalate_splitOn sep

theorem splitOn_joinWith {sep : Char} {ls : List (List Char)}
    (h : ∀ l ∈ ls, sep ∉ l) (hne : ls ≠ []) :
    splitOn sep (joinWith [sep] ls) = ls := by
  rw [splitOn_eq]
  exact List.splitOn_intercalate sep h hne

theorem mem_of_mem_splitOn {sep c : Char} {cs piece : List Char}
    (hpiece : piece ∈ splitOn sep cs) (hc : c ∈ piece) : c ∈ cs :=
  mem_of_mem_splitBy hpiece hc

/-- Pieces are free of the separator. -/
theorem sep_not_mem_of_mem_splitOn {sep : Char} {cs piece : List Char}
    (h : piece ∈ splitOn sep cs) : sep ∉ piece := by
  rw [splitOn_eq] at h
  induction cs generalizing piece with
  | nil =>
    obtain rfl := List.mem_singleton.1 h
    exact List.not_mem_nil
  | cons c rest ih =>
    rw [List.splitOn_cons_eq_if_modifyHead] at h
    split at h
    · rcases List.mem_cons.1 h with rfl | h
      · exact List.not_mem_nil
      · exact ih h
    · rename_i hc
      cases hrest : rest.splitOn sep with
      | nil => exact absurd hrest (List.splitOn_ne_nil sep rest)
      | cons first more =>
        rw [hrest] at h ih
        rcases List.mem_cons.1 h with rfl | h
        · intro hmem
          rcases List.mem_cons.1 hmem with rfl | hmem
          · simp at hc
          · exact ih List.mem_cons_self hmem
        · exact ih (List.mem_cons_of_mem _ h)

-- ======================================================= cutting once

/-- What was passed already stands in front of the cut. -/
theorem cutAtText?_go (needle front cs : List Char) :
    cutAtText?.go needle front cs =
      (cutAtText? needle cs).map fun (f, b) => (front.reverse ++ f, b) := by
  have hgo : ∀ front, cutAtText?.go needle front cs =
      (cutAtText?.go needle [] cs).map
        fun (f, b) => (front.reverse ++ f, b) := by
    induction cs with
    | nil =>
      intro front
      rw [cutAtText?.go, cutAtText?.go]
      split <;> simp
    | cons c rest ih =>
      intro front
      rw [cutAtText?.go, cutAtText?.go]
      split
      · simp
      · dsimp only
        rw [ih (c :: front), ih [c], Option.map_map]
        congr 1
        funext x
        simp
  exact hgo front

/-- Where the text sought does not begin, nothing is cut. -/
theorem cutAtText?_cons {needle cs : List Char} {c : Char}
    (h : ¬needle <+: c :: cs) :
    cutAtText? needle (c :: cs) =
      (cutAtText? needle cs).map fun (f, b) => (c :: f, b) := by
  rw [cutAtText?, cutAtText?.go, if_neg]
  · rw [cutAtText?_go]
    rfl
  · rwa [List.isPrefixOf_iff_prefix]

/-- What the needle does not begin in is left in front of the cut. -/
theorem cutAtText?_append {needle front : List Char} {d : Char}
    (hhead : needle.head? = some d) (h : d ∉ front) (cs : List Char) :
    cutAtText? needle (front ++ cs) =
      (cutAtText? needle cs).map fun (f, b) => (front ++ f, b) := by
  induction front with
  | nil => simp
  | cons c front ih =>
    rw [List.mem_cons, not_or] at h
    obtain ⟨hc, hfront⟩ := h
    have hstart : ¬needle <+: c :: (front ++ cs) := by
      intro hprefix
      obtain ⟨rest, rfl⟩ := List.head?_eq_some_iff.1 hhead
      exact hc (List.cons_prefix_cons.1 hprefix).1
    rw [List.cons_append, cutAtText?_cons hstart, ih hfront, Option.map_map]
    rfl

theorem cutAtText?_self (needle cs : List Char) :
    cutAtText? needle (needle ++ cs) = some ([], cs) := by
  rw [cutAtText?, cutAtText?.go.eq_def, if_pos, List.drop_left]
  · rfl
  · exact List.isPrefixOf_iff_prefix.2 (List.prefix_append _ _)

/-- The pieces and the text between them are the whole. -/
theorem cutAtText?_eq_some {needle cs front back : List Char}
    (h : cutAtText? needle cs = some (front, back)) :
    cs = front ++ (needle ++ back) := by
  induction cs generalizing front with
  | nil =>
    rw [cutAtText?, cutAtText?.go] at h
    split at h
    · rename_i hprefix
      cases h
      obtain rfl := List.prefix_nil.1 (List.isPrefixOf_iff_prefix.1 hprefix)
      rfl
    · cases h
  | cons c rest ih =>
    rw [cutAtText?, cutAtText?.go] at h
    split at h
    · rename_i hprefix
      cases h
      obtain ⟨tail, htail⟩ := List.isPrefixOf_iff_prefix.1 hprefix
      rw [← htail, List.drop_left]
      rfl
    · rw [cutAtText?_go] at h
      obtain ⟨⟨f, b⟩, hcut, heq⟩ := Option.map_eq_some_iff.1 h
      cases heq
      rw [ih hcut]
      rfl

theorem cutAtText?_eq_none {needle cs : List Char}
    (h : ¬needle <:+: cs) : cutAtText? needle cs = none := by
  cases hcut : cutAtText? needle cs with
  | none => rfl
  | some found =>
    obtain ⟨front, back⟩ := found
    refine absurd ⟨front, back, ?_⟩ h
    rw [cutAtText?_eq_some hcut, List.append_assoc]

-- ============================================================= breaks

/-- What breaks a line is blank. -/
theorem isBlank_of_isLineBreak {c : Char} (h : isLineBreak c = true) :
    isBlank c = true := by
  simp only [isLineBreak, Bool.or_eq_true, Bool.and_eq_true,
    decide_eq_true_eq, beq_iff_eq] at h
  by_cases hascii : isAscii c = true
  · have hlt : c.toNat < 0x80 := of_decide_eq_true hascii
    rw [isBlank, if_pos hascii]
    simp only [Bool.or_eq_true, Bool.and_eq_true, decide_eq_true_eq]
    omega
  · have hge : ¬c.toNat < 0x80 := fun hlt => hascii (decide_eq_true hlt)
    rw [isBlank, if_neg hascii]
    simp only [Ranges.holds, blankRanges, List.any_cons, List.any_nil,
      Bool.or_eq_true, Bool.and_eq_true, decide_eq_true_eq]
    omega

/-- A last line that is empty does not count. -/
theorem flatMap_lines {β : Type} {f : List Char → List β} (hf : f [] = [])
    (cs : List Char) :
    (lines cs).flatMap f =
      (splitBy isLineBreak (unifyPairs cs)).flatMap f := by
  rw [lines]
  split
  · rename_i done hdone
    rw [← List.reverse_reverse (splitBy _ _), hdone]
    simp [hf]
  · rw [List.reverse_reverse]

/-- What is done already stands in front. -/
theorem unifyPairs_go (done cs : List Char) :
    unifyPairs.go done cs = done.reverse ++ unifyPairs cs := by
  have hgo : ∀ front, unifyPairs.go front cs =
      front.reverse ++ unifyPairs.go [] cs := by
    induction done, cs using unifyPairs.go.induct with
    | case1 => simp [unifyPairs.go]
    | case2 _ rest ih =>
      intro front
      rw [unifyPairs.go, unifyPairs.go, ih, ih ['\n']]
      simp
    | case3 _ c rest hpair ih =>
      intro front
      rw [unifyPairs.go, unifyPairs.go, ih, ih [c]]
      · simp
      · exact hpair
      · exact hpair
  exact hgo done

theorem unifyPairs_cons {c : Char} {cs : List Char}
    (h : ¬(c = '\r' ∧ cs.head? = some '\n')) :
    unifyPairs (c :: cs) = c :: unifyPairs cs := by
  rw [unifyPairs, unifyPairs.go, unifyPairs_go]
  · rfl
  · rintro rest rfl rfl
    exact h ⟨rfl, rfl⟩

/-- A text without pairs is left alone, before whatever does not make one
with its last character. -/
theorem unifyPairs_append {xs : List Char} (ys : List Char)
    (hxs : '\n' ∉ xs ∨ '\r' ∉ xs) (hlast : xs.getLast? ≠ some '\r') :
    unifyPairs (xs ++ ys) = xs ++ unifyPairs ys := by
  induction xs with
  | nil => rfl
  | cons c rest ih =>
    rw [List.cons_append, unifyPairs_cons, ih, List.cons_append]
    · exact hxs.imp (fun h hc => h (.tail _ hc)) fun h hc => h (.tail _ hc)
    · cases rest with
      | nil => simp
      | cons d rest => simpa using hlast
    · rintro ⟨rfl, hhead⟩
      cases rest with
      | nil => simp at hlast
      | cons d rest =>
        obtain rfl : d = '\n' := by simpa using hhead
        simp at hxs

/-- A pair of breaks is two breaks with nothing in between, so where nothing
comes of an empty piece it does not matter whether pairs count as one. -/
theorem flatMap_splitBy_unifyPairs {β : Type} {f : List Char → List β}
    (hf : f [] = []) (cs : List Char) :
    (splitBy isLineBreak (unifyPairs cs)).flatMap f =
      (splitBy isLineBreak cs).flatMap f := by
  have hreturn : isLineBreak '\r' = true := by decide
  have hfeed : isLineBreak '\n' = true := by decide
  -- The piece under way is in front, up to the next break.
  suffices h : ∀ n, ∀ cs : List Char, cs.length ≤ n → ∀ front,
      (splitBy isLineBreak (front ++ unifyPairs cs)).flatMap f =
        (splitBy isLineBreak (front ++ cs)).flatMap f from
    h cs.length cs (Nat.le_refl _) []
  intro n
  induction n with
  | zero =>
    intro cs hlength front
    rw [List.eq_nil_of_length_eq_zero (Nat.le_zero.1 hlength)]
    rfl
  | succ n ih =>
    intro cs hlength front
    cases cs with
    | nil => rfl
    | cons c rest =>
      by_cases hpair : c = '\r' ∧ rest.head? = some '\n'
      · obtain ⟨rfl, hhead⟩ := hpair
        obtain ⟨rest, rfl⟩ := List.head?_eq_some_iff.1 hhead
        have hunify : unifyPairs ('\r' :: '\n' :: rest) =
            '\n' :: unifyPairs rest := by
          rw [unifyPairs, unifyPairs.go, unifyPairs_go]
          rfl
        have hempty : splitBy isLineBreak ('\n' :: rest) =
            [] :: splitBy isLineBreak rest := splitBy_append hfeed [] rest
        have hrest := ih rest (by simp only [List.length_cons] at hlength; omega)
          []
        simp only [List.nil_append] at hrest
        rw [hunify, splitBy_append hfeed, splitBy_append hreturn, hempty,
          List.flatMap_append, List.flatMap_append, List.flatMap_cons, hf,
          List.nil_append, hrest]
      · have hrest := ih rest (by simpa using hlength) (front ++ [c])
        rw [unifyPairs_cons hpair]
        simpa using hrest

/-- A text that is one line, and stays one with a line feed after it. -/
structure IsLine (l : List Char) : Prop where
  oneLine : '\n' ∉ l
  noReturn : l.getLast? ≠ some '\r'

/-- What a line ends in decides whether it can be paired with what comes
after it. -/
theorem IsLine.append {xs l : List Char} (h : IsLine l) (hne : l ≠ [])
    (hxs : '\n' ∉ xs) : IsLine (xs ++ l) where
  oneLine := by
    rw [List.mem_append]
    exact not_or.2 ⟨hxs, h.oneLine⟩
  noReturn := by
    rw [List.getLast?_append_of_ne_nil _ hne]
    exact h.noReturn

/-- Lines that are joined by line feeds have no pair to be unified. -/
theorem unifyPairs_joinWith {ls : List (List Char)}
    (h : ∀ l ∈ ls, IsLine l) :
    unifyPairs (joinWith ['\n'] ls) = joinWith ['\n'] ls := by
  induction ls with
  | nil => rfl
  | cons l rest ih =>
    obtain ⟨hone, hlast⟩ := h l (.head _)
    cases rest with
    | nil =>
      have halone := unifyPairs_append [] (.inl hone) hlast
      simpa [joinWith, unifyPairs, unifyPairs.go] using halone
    | cons m rest =>
      rw [joinWith_cons (by simp), List.append_assoc,
        unifyPairs_append _ (.inl hone) hlast, List.singleton_append,
        unifyPairs_cons (by simp), ih fun l hl => h l (.tail _ hl)]

end CallTrace.Text
