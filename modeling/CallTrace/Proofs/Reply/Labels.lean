/-
The lines of the layout are what they were written as.

A label is found on its line whichever way it is set off, and with it the
value after it; no value can be taken for a part of the label as long as it
does not start with a colon. A labelled line is no heading, and the heading
of a block opens it.
-/
import CallTrace.Proofs.Reply.Written
import CallTrace.Proofs.Text.Blank

namespace CallTrace.Reply

open Text Written

-- ============================================================= labels

namespace Written.Field

/-- The label as labels are compared. -/
def name : Field → String
  | kind => "type"
  | description => "description"
  | narrative => "execution flow"
  | calls => "method calls"
  | call => "call"
  | decision => "classification"
  | expected => "expected behavior"
  | condition => "condition"

/-- What the label asks for. -/
def label : Field → Label
  | kind => .blockTag
  | description => .description
  | narrative => .narrative
  | calls => .calls
  | call => .call
  | decision => .decision
  | expected => .expected
  | condition => .condition

theorem ofName_name (f : Field) : Label.ofName f.name = f.label := by
  cases f <;> decide

theorem labelName_title (f : Field) :
    String.ofList (labelName f.title.toList) = f.name := by
  have hname : labelName f.title.toList = f.name.toList := by
    cases f <;> decide
  rw [hname, String.ofList_toList]

variable (f : Field) (after : List Char)

theorem boldLabel?_outside :
    boldLabel? (f.bare .outside ++ after) =
      some (f.title.toList, trimLeft after) := by
  cases f <;> rfl

/-- With the colon inside, a second one would be dropped too. -/
theorem boldLabel?_inside :
    boldLabel? (f.bare .inside ++ after) =
      some (f.title.toList,
        trimLeft (dropOne (· == ':') (trimLeft after))) := by
  cases f <;> rfl

theorem boldLabel?_plain : boldLabel? (f.bare .plain ++ after) = none := by
  cases f <;> rfl

theorem plainLabel?_plain :
    plainLabel? (f.bare .plain ++ after) =
      some (f.title.toList, trimLeft after) := by
  cases f <;> rfl

theorem isHeading_bare (s : Style) :
    isHeading (f.bare s ++ after) = false := by
  cases f <;> cases s <;> rfl

variable {after}

/-- A label is read in every style, and its value with it. -/
theorem label?_bare (s : Style) (h : (trimLeft after).head? ≠ some ':') :
    label? (f.bare s ++ after) = some (f.name, trim after) := by
  have htrim : trim (trimLeft after) = trim after :=
    congrArg trimRight (List.dropWhile_idempotent ..)
  have hvalue : trimLeft (dropOne (· == ':') (trimLeft after)) =
      trimLeft after := by
    have hdrop : dropOne (· == ':') (trimLeft after) = trimLeft after := by
      cases hafter : trimLeft after with
      | nil => rfl
      | cons c rest =>
        have hc : c ≠ ':' := by simpa [hafter] using h
        simp [dropOne, hc]
    rw [hdrop]
    exact List.dropWhile_idempotent ..
  cases s with
  | outside =>
    simp only [label?, boldLabel?_outside, Option.some_or,
      Option.bind_eq_bind, Option.bind_some, labelName_title, htrim]
  | inside =>
    simp only [label?, boldLabel?_inside, hvalue, Option.some_or,
      Option.bind_eq_bind, Option.bind_some, labelName_title, htrim]
  | plain =>
    simp only [label?, boldLabel?_plain, plainLabel?_plain, Option.none_or,
      Option.bind_eq_bind, Option.bind_some, labelName_title, htrim]

/-- A label on a line of its own has an empty value. -/
theorem label?_alone (s : Style) :
    label? (f.bare s) = some (f.name, []) := by
  have h : label? (f.bare s ++ []) = some (f.name, []) :=
    f.label?_bare s (by simp [trimLeft, trimLeftOf])
  rwa [List.append_nil] at h

theorem label?_line (s : Style) {value : List Char}
    (htrim : trim value = value) (hcolon : value.head? ≠ some ':') :
    label? (f.line s value) = some (f.name, value) := by
  have hafter : trimLeft (' ' :: value) = value :=
    trimLeft_of_trim htrim
  rw [line, label?_bare f s (by rwa [hafter])]
  have hspace : trim (' ' :: value) = trim value := rfl
  rw [hspace, htrim]

end Written.Field

-- =========================================================== headings

/-- A heading begins with a number sign. -/
theorem heading?_eq_none_of_head? {line : List Char}
    (h : (trimLeft line).head? ≠ some '#') : heading? line = none := by
  have hspan : ([] ++ trimLeft line).span (· == '#') =
      ([], trimLeft line) := by
    refine span_append (by simp) fun c hc => ?_
    simpa using fun heq : c = '#' => h (heq ▸ hc)
  rw [List.nil_append] at hspan
  rw [heading?, hspan]
  split
  · rename_i signs b rest heq
    obtain ⟨rfl, -⟩ := Prod.mk.inj heq
    rfl
  · rfl

theorem heading?_eq_none {line : List Char} (h : '#' ∉ line) :
    heading? line = none := by
  apply heading?_eq_none_of_head?
  intro hhead
  exact h ((List.dropWhile_suffix _).subset (List.mem_of_mem_head? hhead))

theorem opensBlock?_eq_none {line : List Char} (h : isHeading line = false) :
    opensBlock? line = none := by
  have hnone : heading? line = none := by simpa [isHeading] using h
  rw [opensBlock?, hnone]
  rfl

/-- The number of a block is written in digits. -/
theorem isDigit_of_mem_toString {n : Nat} {c : Char}
    (hc : c ∈ (toString n).toList) : isDigit c = true := by
  have hdigit : c.isDigit = true :=
    Nat.isDigit_of_mem_toDigits (by decide) (by decide)
      (Nat.toList_repr ▸ hc)
  have hascii : isAscii c = true := by
    have hhigh : c.toNat ≤ 57 := (Char.isDigit_iff_toNat.1 hdigit).2
    exact decide_eq_true (by omega)
  rwa [isDigit, if_pos hascii]

/-- The word that opens a block is followed by what is not blank. -/
theorem after?_block {rest : List Char}
    (h : ∀ c ∈ rest.head?, isBlank c = false) :
    Pattern.after? (.seq (.caseless "block") .blanks1)
      ("Block ".toList ++ rest) = some rest := by
  have hmatch : Pattern.seq (.caseless "block") .blanks1
      ⟨none, "Block ".toList ++ rest⟩ =
        Pattern.run isBlank ⟨some ' ', rest⟩ ++ [] ++ [] := rfl
  rw [Pattern.after?, hmatch, Pattern.run_of_head h]
  rfl

/-- The title of a numbered block is read off its heading. -/
theorem blockTitle?_append {digits title : List Char} (hne : digits ≠ [])
    (hdigits : ∀ c ∈ digits, isDigit c = true) (htitle : trim title = title) :
    blockTitle? ("Block ".toList ++ (digits ++ (": ".toList ++ title))) =
      some title := by
  have hafter : Pattern.after? (.seq (.caseless "block") .blanks1)
      (trimLeft (("Block ".toList ++
        (digits ++ (": ".toList ++ title))).dropWhile (· == '*'))) =
      some (digits ++ (": ".toList ++ title)) := by
    refine after?_block fun c hc => ?_
    rw [List.head?_append_of_ne_nil _ hne] at hc
    exact isBlank_of_isDigit (hdigits c (List.mem_of_mem_head? hc))
  have hspan : (digits ++ (": ".toList ++ title)).span isDigit =
      (digits, ": ".toList ++ title) :=
    span_append hdigits fun c hc => by
      obtain rfl : ':' = c := Option.some.inj hc
      decide
  have hempty : digits.isEmpty = false := by simp [hne]
  rw [blockTitle?, hafter, Option.bind_eq_bind, Option.bind_some, hspan]
  simp only [hempty, Bool.false_eq_true, if_false]
  show some (trimLeft (' ' :: title)) = some title
  exact congrArg some (trimLeft_of_trim htitle)

namespace Written.Section

variable (s : Section) (index : Nat)

/-- The heading of a section has the whole title. -/
theorem heading?_heading :
    heading? (s.heading index) = some (s.wholeTitle index) := by
  have hheading : ∀ after, heading? ("#### ".toList ++
      ("Block ".toList ++ after)) =
      some (trimRight (trimRightOf (· == '#')
        (trimRight ("Block ".toList ++ after)))) := fun _ => rfl
  have hkept : ∀ p, (∀ c ∈ s.title.text.getLast?, p c = false) →
      trimRightOf p (s.wholeTitle index) = s.wholeTitle index := by
    intro p hp
    have hmark := List.append_ne_nil_of_right_ne_nil ": ".toList
      s.title.nonempty
    refine trimRightOf_append_of_ne_nil _
      (List.append_ne_nil_of_right_ne_nil _ hmark) ?_
    refine trimRightOf_append_of_ne_nil _ hmark ?_
    exact trimRightOf_append_of_ne_nil _ s.title.nonempty
      (trimRightOf_eq_self_iff.2 hp)
  have hblank : trimRight (s.wholeTitle index) = s.wholeTitle index :=
    hkept isBlank (trimOf_eq_self_iff.1 s.title.trimmed).2
  have hsign := hkept (· == '#') fun c hc => by
    simpa using fun h : c = '#' => s.title.closingSign (h ▸ hc)
  have hwhole : heading? (s.heading index) =
      some (trimRight (trimRightOf (· == '#')
        (trimRight (s.wholeTitle index)))) := hheading _
  rw [hwhole, hblank, hsign, hblank]

theorem isHeading_heading : isHeading (s.heading index) = true := by
  rw [isHeading, heading?_heading]
  rfl

/-- The heading of a section opens its block. -/
theorem opensBlock?_heading :
    opensBlock? (s.heading index) = some s.title.text := by
  have hne : (toString (index + 1)).toList ≠ [] := by
    rw [Nat.toString_eq_repr, Nat.toList_repr]
    exact Nat.toDigits_ne_nil
  have hstars : trimOf (· == '*') s.title.text = s.title.text := by
    refine trimOf_eq_self_iff.2 ⟨fun c hc => ?_, fun c hc => ?_⟩
    · simpa using fun h : c = '*' => s.title.opening (h ▸ hc)
    · simpa using fun h : c = '*' => s.title.closing (h ▸ hc)
  have htitle : blockTitle? (s.wholeTitle index) = some s.title.text :=
    blockTitle?_append hne (fun c hc => isDigit_of_mem_toString hc)
      s.title.trimmed
  have hopens : opensBlock? (s.heading index) =
      some (trim (trimOf (· == '*') (trim s.title.text))) := by
    rw [opensBlock?, heading?_heading, Option.bind_eq_bind,
      Option.bind_some, htitle]
    rfl
  rw [hopens, s.title.trimmed, hstars, s.title.trimmed]

end Written.Section

end CallTrace.Reply
