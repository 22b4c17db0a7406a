/-
What decides about a call, and what is only the reason given.

A classification is a tag with a reason after it, and there are five ways
to set the two apart. The reader looks for them in a fixed order: for a
reason in parentheses at the end of the text, then for each of the marks,
wherever it stands first. So one that is looked for early may be found in
the reason, and then the reason's beginning is taken for a part of what
decides. Where none is found there the tag decides alone, whatever words
the reason has; after a group or a hyphen, which are the first to be looked
for, that is always so. It is so for the tag of the unknown too, which
decides with anything behind it.
-/
import CallTrace.Proofs.Reply.Sections
import CallTrace.Proofs.Reply.Tidy

namespace CallTrace.Reply

open Text

-- ========================================================== separators

/-- What sets a reason apart from the tag before it. -/
inductive Separator where
  | paren
  | hyphen
  | enDash
  | emDash
  | colon
deriving DecidableEq

namespace Separator

/-- What stands behind the tag; a blank or the reason comes next. -/
def sign : Separator → List Char
  | paren => " (".toList
  | hyphen => " -".toList
  | enDash => " –".toList
  | emDash => " —".toList
  | colon => ":".toList

/-- What stands behind the sign. -/
def behind (reason : List Char) : Separator → List Char
  | paren => reason ++ [')']
  | _ => ' ' :: reason

/-- A decision with the reason for it. -/
def join (sep : Separator) (tag : Decision) (reason : List Char) :
    List Char :=
  tag.name.toList ++ (sep.sign ++ sep.behind reason)

/-- The marks that are looked for before this one. -/
def tried : Separator → List String
  | paren | hyphen => []
  | enDash => [" - "]
  | emDash => [" - ", " – "]
  | colon => [" - ", " – ", " — "]

/-- Nothing that is looked for before the separator is found in the reason,
or made of its beginning and the blank in front of it. -/
structure Sealed (sep : Separator) (reason : List Char) : Prop where
  noMark : ∀ m ∈ sep.tried, ¬m.toList <:+: trimRight (' ' :: reason)
  /-- After a colon no group stands at the end, unless behind a dash. -/
  noGroup : sep = colon → ∀ front inside,
    trimRight (' ' :: reason) = front ++ '(' :: (inside ++ [')']) →
    ∃ c ∈ front, isDash c = true

variable (sep : Separator) (tag : Decision) (reason : List Char)

theorem trim_join : trim (sep.join tag reason) =
    tag.name.toList ++ (sep.sign ++ trimRight (sep.behind reason)) := by
  have hfront : tag.name.toList ++ sep.sign ≠ [] ∧
      trim (tag.name.toList ++ sep.sign) = tag.name.toList ++ sep.sign := by
    cases tag <;> cases sep <;> decide
  rw [join, ← List.append_assoc, ← List.append_assoc]
  exact trimOf_append_of_trimmed hfront.1 hfront.2 _

/-- A reason of blanks is dropped with the blank in front of it. -/
theorem trimRight_behind (h : sep ≠ paren) :
    trimRight (sep.behind reason) =
      if trimRight reason = [] then [] else ' ' :: trimRight reason := by
  have hbehind : sep.behind reason = [' '] ++ reason := by
    cases sep <;> first | rfl | exact absurd rfl h
  unfold trimRight trimRightOf
  rw [hbehind, List.reverse_append, List.dropWhile_append]
  by_cases hnil : reason.reverse.dropWhile isBlank = []
  · rw [hnil]
    rfl
  · simp [hnil]

end Separator

-- ======================================================== what is cut

/-- A text that begins with `w` is cut behind it, if what comes after the cut
does not begin in it. -/
theorem exists_of_append_eq {w tail front back : List Char}
    (h : w ++ tail = front ++ back) (hback : ∀ c ∈ back.head?, c ∉ w) :
    ∃ more, front = w ++ more ∧ tail = more ++ back := by
  rcases List.append_eq_append_iff.1 h with hmore | ⟨rest, hw, htail⟩
  · exact hmore
  · cases rest with
    | nil => exact ⟨[], by simpa using hw.symm, by simpa using htail.symm⟩
    | cons c rest =>
      refine absurd ?_ (hback c (by rw [htail]; rfl))
      rw [hw]
      simp

/-- A reason is found in parentheses only at the end of the text, with no
dash before it. -/
theorem reasonInParens?_eq_some {cs phrase reason : List Char}
    (h : reasonInParens? cs = some (phrase, reason)) :
    ∃ front inside, cs = front ++ '(' :: (inside ++ [')']) ∧
      (∀ c ∈ front, isDash c = false) ∧ phrase = trim front ∧
      reason = trim inside := by
  unfold reasonInParens? at h
  split at h
  · rename_i front rest hspan
    rw [List.span_eq_takeWhile_dropWhile, Prod.mk.injEq] at hspan
    obtain ⟨rfl, hrest⟩ := hspan
    split at h
    · rename_i inside hback
      obtain ⟨rfl, rfl⟩ := Prod.mk.inj (Option.some.inj h)
      refine ⟨_, inside.reverse, ?_, fun c hc => ?_, rfl, rfl⟩
      · have hinside : rest = inside.reverse ++ [')'] := by
          rw [← List.reverse_reverse rest, hback, List.reverse_cons]
        rw [← hinside, ← hrest, List.takeWhile_append_dropWhile]
      · have hfront := List.all_eq_true.1 List.all_takeWhile c hc
        rw [Bool.not_eq_true', Bool.or_eq_false_iff] at hfront
        exact hfront.2
    · cases h
  · cases h

/-- A tag has neither blanks nor any of the signs in it. -/
theorem not_mem_tag (tag : Decision) {c : Char}
    (hc : c = ' ' ∨ c = ':' ∨ c = '(') : c ∉ tag.name.toList := by
  rcases hc with rfl | rfl | rfl <;> cases tag <;> decide

/-- Trimming goes on behind the tag. -/
theorem trim_tag (tag : Decision) (more : List Char) :
    trim (tag.name.toList ++ more) = tag.name.toList ++ trimRight more := by
  apply trimOf_append_of_trimmed
  all_goals cases tag <;> decide

theorem isEmpty_trim_tag (tag : Decision) (more : List Char) :
    (trim (tag.name.toList ++ more)).isEmpty = false := by
  rw [trim_tag]
  cases tag <;> rfl

variable (sep : Separator) (tag : Decision) (reason : List Char)

/-- What decides begins with the tag, and goes on as the text does. -/
theorem splitReasoning_begins : ∃ more,
    more <+: sep.sign ++ sep.behind reason ∧
    (splitReasoning (trim (sep.join tag reason))).1 =
      trim (tag.name.toList ++ more) := by
  have hshort : sep.sign ++ trimRight (sep.behind reason) <+:
      sep.sign ++ sep.behind reason := by
    obtain ⟨tail, htail, -⟩ := trimRightOf_append isBlank (sep.behind reason)
    refine ⟨tail, ?_⟩
    rw [List.append_assoc]
    exact congrArg (sep.sign ++ ·) htail.symm
  -- Wherever the text is cut, it is cut behind the tag.
  have hcut : ∀ {phrase back},
      trim (sep.join tag reason) = phrase ++ back →
      (∀ c ∈ back.head?, c = ' ' ∨ c = ':' ∨ c = '(') →
      ∃ more, more <+: sep.sign ++ sep.behind reason ∧
        trim phrase = trim (tag.name.toList ++ more) := by
    intro phrase back hphrase hback
    rw [sep.trim_join] at hphrase
    obtain ⟨more, rfl, hmore⟩ := exists_of_append_eq hphrase
      fun c hc => not_mem_tag tag (hback c hc)
    exact ⟨more, List.IsPrefix.trans ⟨back, hmore.symm⟩ hshort, rfl⟩
  unfold splitReasoning
  simp only [trim_trim]
  cases hparen : reasonInParens? (trim (sep.join tag reason)) with
  | some found =>
    obtain ⟨phrase, inner⟩ := found
    obtain ⟨front, inside, hfront, -, rfl, -⟩ :=
      reasonInParens?_eq_some hparen
    exact hcut hfront fun c hc => .inr (.inr (Option.some.inj hc).symm)
  | none =>
    dsimp only
    split
    · rename_i phrase back hmark
      obtain ⟨m, hm, hat⟩ := List.exists_of_findSome?_eq_some hmark
      have hhead : ∀ m ∈ reasonMarks,
          m.toList.head? = some ' ' ∨ m.toList.head? = some ':' := by decide
      refine hcut (cutAtText?_eq_some hat) fun c hc => ?_
      rcases hhead m hm with hfirst | hfirst
      · rw [List.head?_append, hfirst] at hc
        exact .inl (Option.some.inj hc).symm
      · rw [List.head?_append, hfirst] at hc
        exact .inr (.inl (Option.some.inj hc).symm)
    · refine ⟨_, hshort, ?_⟩
      rw [← sep.trim_join]
      exact (trim_trim _).symm

-- ================================================= the tag by itself

/-- A reason in parentheses is found whatever it is. -/
theorem splitReasoning_paren :
    splitReasoning (trim (Separator.paren.join tag reason)) =
      (tag.name.toList, trim reason) := by
  have hbehind : trimRight (reason ++ [')']) = reason ++ [')'] :=
    trimRightOf_concat _ _ (by decide)
  unfold splitReasoning
  rw [trim_trim, Separator.trim_join]
  simp only [Separator.sign, Separator.behind, hbehind, reasonInParens?_tag]

theorem head?_tried {sep : Separator} {m : String} (hm : m ∈ sep.tried) :
    m.toList.head? = some ' ' := by
  have hall : ∀ m ∈ sep.tried, m.toList.head? = some ' ' := by
    cases sep <;> decide
  exact hall m hm

/-- No mark that is looked for earlier begins in the sign. -/
theorem cutAtText?_sign {m : String} (hm : m ∈ sep.tried)
    (rest : List Char) :
    cutAtText? m.toList (sep.sign ++ ' ' :: rest) =
      (cutAtText? m.toList (' ' :: rest)).map
        fun (f, b) => (sep.sign ++ f, b) := by
  have hdash : ∀ d e : Char, d ≠ e → d ≠ ' ' →
      cutAtText? [' ', e, ' '] (' ' :: d :: ' ' :: rest) =
        (cutAtText? [' ', e, ' '] (' ' :: rest)).map
          fun (f, b) => (' ' :: d :: f, b) := by
    intro d e hde hblank
    have hfirst : ¬[' ', e, ' '] <+: ' ' :: d :: ' ' :: rest := by
      simp [hde.symm]
    have hsecond : ¬[' ', e, ' '] <+: d :: ' ' :: rest := by
      simp [hblank.symm]
    rw [cutAtText?_cons hfirst, cutAtText?_cons hsecond, Option.map_map]
    rfl
  cases sep with
  | paren | hyphen => cases hm
  | enDash =>
    obtain rfl := List.mem_singleton.1 hm
    exact hdash '–' '-' (by decide) (by decide)
  | emDash =>
    rcases List.mem_cons.1 hm with rfl | hm
    · exact hdash '—' '-' (by decide) (by decide)
    · obtain rfl := List.mem_singleton.1 hm
      exact hdash '—' '–' (by decide) (by decide)
  | colon => exact cutAtText?_append (head?_tried hm) (by decide) _

/-- No mark that is looked for earlier begins in the tag either. -/
theorem cutAtText?_tried {m : String} (hm : m ∈ sep.tried)
    (rest : List Char) :
    cutAtText? m.toList (tag.name.toList ++ (sep.sign ++ ' ' :: rest)) =
      (cutAtText? m.toList (' ' :: rest)).map
        fun (f, b) => (tag.name.toList ++ (sep.sign ++ f), b) := by
  rw [cutAtText?_append (head?_tried hm) (not_mem_tag tag (.inl rfl)),
    cutAtText?_sign sep hm, Option.map_map]
  rfl

section

variable {sep} (hsep : sep ≠ .paren)

include hsep

/-- The separator is a mark that is looked for, and found behind the tag. -/
theorem exists_mark : ∃ mark later,
    reasonMarks = sep.tried ++ mark :: later ∧
    ∀ rest, cutAtText? mark.toList
        (tag.name.toList ++ (sep.sign ++ ' ' :: rest)) =
      some (tag.name.toList, rest) := by
  have hfound : ∀ (mark : String) {c : Char},
      mark.toList = sep.sign ++ [' '] → mark.toList.head? = some c →
      c = ' ' ∨ c = ':' ∨ c = '(' →
      ∀ rest, cutAtText? mark.toList
          (tag.name.toList ++ (sep.sign ++ ' ' :: rest)) =
        some (tag.name.toList, rest) := by
    intro mark c hmark hhead hc rest
    have htext : sep.sign ++ ' ' :: rest = mark.toList ++ rest := by
      rw [hmark, List.append_assoc]
      rfl
    rw [htext, cutAtText?_append hhead (not_mem_tag tag hc),
      cutAtText?_self]
    simp
  cases sep with
  | paren => exact absurd rfl hsep
  | hyphen => exact ⟨" - ", _, rfl, hfound _ rfl rfl (.inl rfl)⟩
  | enDash => exact ⟨" – ", _, rfl, hfound _ rfl rfl (.inl rfl)⟩
  | emDash => exact ⟨" — ", _, rfl, hfound _ rfl rfl (.inl rfl)⟩
  | colon => exact ⟨": ", _, rfl, hfound _ rfl rfl (.inr (.inl rfl))⟩

/-- Without a reason all there is decides. -/
theorem splitReasoning_alone (h : trimRight reason = []) :
    splitReasoning (trim (sep.join tag reason)) =
      (tag.name.toList ++ sep.sign, []) := by
  rw [sep.trim_join, sep.trimRight_behind reason hsep, if_pos h,
    List.append_nil]
  cases sep with
  | paren => exact absurd rfl hsep
  | hyphen | enDash | emDash | colon => cases tag <;> decide +kernel

/-- No reason is found in parentheses, as there is a dash before any group
or no group at the end. -/
theorem reasonInParens?_sealed (h : sep.Sealed reason)
    (hne : trimRight reason ≠ []) :
    reasonInParens? (trim (sep.join tag reason)) = none := by
  cases hparen : reasonInParens? (trim (sep.join tag reason)) with
  | none => rfl
  | some found =>
    obtain ⟨phrase, inner⟩ := found
    obtain ⟨front, inside, hfront, hdash, -, -⟩ :=
      reasonInParens?_eq_some hparen
    rw [sep.trim_join, sep.trimRight_behind reason hsep, if_neg hne,
      ← List.append_assoc] at hfront
    have hopen : '(' ∉ tag.name.toList ++ sep.sign := by
      cases sep with
      | paren => exact absurd rfl hsep
      | hyphen | enDash | emDash | colon => cases tag <;> decide
    obtain ⟨more, rfl, hmore⟩ := exists_of_append_eq hfront
      fun c hc => (Option.some.inj hc) ▸ hopen
    have hsign : sep.sign.any isDash = false := by
      rw [List.any_eq_false]
      exact fun c hc => by simp [hdash c (by simp [hc])]
    cases sep with
    | paren => exact absurd rfl hsep
    | hyphen | enDash | emDash =>
      exact absurd hsign (by decide)
    | colon =>
      have htail : trimRight (' ' :: reason) = ' ' :: trimRight reason :=
        (Separator.colon.trimRight_behind reason hsep).trans (if_neg hne)
      obtain ⟨c, hc, hyes⟩ := h.noGroup rfl more inside (htail.trans hmore)
      have hno := hdash c (List.mem_append_right _ hc)
      rw [hyes] at hno
      cases hno

/-- The tag is cut off by the separator's own mark, where none that is
looked for before it is found. -/
theorem splitReasoning_sealed (h : sep.Sealed reason)
    (hne : trimRight reason ≠ []) :
    splitReasoning (trim (sep.join tag reason)) =
      (tag.name.toList, trim reason) := by
  have htail : trimRight (' ' :: reason) = ' ' :: trimRight reason := by
    have hcolon := Separator.colon.trimRight_behind reason (by decide)
    exact hcolon.trans (if_neg hne)
  have htag : trim tag.name.toList = tag.name.toList := by
    cases tag <;> decide
  obtain ⟨mark, later, hmarks, hmark⟩ := exists_mark tag hsep
  have htried : ∀ m ∈ sep.tried, cutAtText? m.toList
      (tag.name.toList ++ (sep.sign ++ ' ' :: trimRight reason)) = none := by
    intro m hm
    rw [cutAtText?_tried sep tag hm, ← htail,
      cutAtText?_eq_none (h.noMark m hm)]
    rfl
  have hparen := reasonInParens?_sealed tag reason hsep h hne
  unfold splitReasoning
  simp only [trim_trim, hparen]
  rw [sep.trim_join, sep.trimRight_behind reason hsep, if_neg hne, hmarks,
    List.findSome?_append, List.findSome?_eq_none_iff.2 htried,
    Option.none_or, List.findSome?_cons, hmark]
  dsimp only
  rw [htag, trim_trimRight]

end

-- =========================================================== decisions

/-- The tag of the unknown decides with anything behind it. -/
theorem decisionOf_notFound (more : List Char) :
    decisionOf (trim (Decision.notFound.name.toList ++ more)) =
      .notFound := by
  apply decisionOf_eq_notFound
  rw [trim_tag, trim_tag]
  refine (congrArg trim (trimOf_append_of_trimmed ?_ ?_ _)).trans
    (trim_tag _ _)
  all_goals decide

/-- The tag decides by itself, and with the sign of a separator behind it. -/
theorem decisionOf_sign :
    decisionOf (tag.name.toList ++ sep.sign) = tag := by
  cases tag <;> cases sep <;> decide +kernel

/-- A sealed reason has no part in the decision. -/
theorem decisionOf_sealed (h : sep.Sealed reason) :
    decisionOf (splitReasoning (trim (sep.join tag reason))).1 = tag := by
  by_cases hsep : sep = .paren
  · rw [hsep, splitReasoning_paren]
    exact decisionOf_name tag
  by_cases hne : trimRight reason = []
  · rw [splitReasoning_alone tag reason hsep hne]
    exact decisionOf_sign sep tag
  · rw [splitReasoning_sealed tag reason hsep h hne]
    exact decisionOf_name tag

/-- The tag decides alone where the reason stands in parentheses or after a
hyphen, as these are looked for first, where the tag is that of the unknown,
and where the reason is sealed. -/
theorem decisionOf_splitReasoning
    (h : sep = .paren ∨ sep = .hyphen ∨ tag = .notFound ∨
      sep.Sealed reason) :
    decisionOf (splitReasoning (trim (sep.join tag reason))).1 = tag := by
  rcases h with rfl | rfl | rfl | hsealed
  · apply decisionOf_sealed
    exact ⟨fun m hm => absurd hm List.not_mem_nil, fun heq => by cases heq⟩
  · apply decisionOf_sealed
    exact ⟨fun m hm => absurd hm List.not_mem_nil, fun heq => by cases heq⟩
  · obtain ⟨more, -, hbegins⟩ := splitReasoning_begins sep .notFound reason
    rw [hbegins]
    exact decisionOf_notFound more
  · exact decisionOf_sealed sep tag reason hsealed

end CallTrace.Reply
