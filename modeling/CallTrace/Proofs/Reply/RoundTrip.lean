/-
A reply in the layout is read as the blocks it was written for.

The lines of the reply come out of its text as they went in. Those of the
foreword say that the method is there and open no block, and after that
each heading opens a section that goes on up to the next one. What a
section is read as does not depend on the others, but for the numbers of
its block and of its calls.
-/
import CallTrace.Proofs.Reply.Outcome
import CallTrace.Proofs.Reply.Presence
import CallTrace.Proofs.Reply.Sections

namespace CallTrace.Reply

open Text Written

-- =============================================================== lines

namespace Written

theorem Line.isLine (l : Line) : IsLine l.text where
  oneLine := l.oneLine
  noReturn h := by
    have hblank := (trimOf_eq_self_iff.1 l.trimmed).2 '\r' h
    exact absurd hblank (by decide)

namespace Field

variable (f : Field) (s : Style)

theorem newline_not_mem_bare : '\n' ∉ f.bare s := by
  cases f <;> cases s <;> decide

theorem isLine_bare : IsLine (f.bare s) where
  oneLine := f.newline_not_mem_bare s
  noReturn := by cases f <;> cases s <;> decide

theorem isLine_line {value : List Char} (h : IsLine value) :
    IsLine (f.line s value) := by
  refine IsLine.append ⟨?_, ?_⟩ (List.cons_ne_nil _ _)
    (f.newline_not_mem_bare s)
  · simpa using h.oneLine
  · cases value with
    | nil => decide
    | cons c rest => simpa using h.noReturn

end Field

/-- A citation between backticks is one line. -/
theorem Cited.isLine_quoted (c : Cited) :
    IsLine (backtick :: (c.text ++ [backtick])) := by
  have hfront : '\n' ∉ c.front := fun h =>
    absurd (c.isBlank_front _ h) (by decide)
  have htext : '\n' ∉ backtick :: c.text := by
    have hquote : '\n' ≠ backtick := by decide
    simp [text_eq, hfront, c.params.oneLine, hquote]
  have hend : IsLine [backtick] := ⟨by decide, by decide⟩
  rw [← List.cons_append]
  exact hend.append (List.cons_ne_nil _ _) htext

theorem Call.isLine_verdict (c : Call) : IsLine c.verdict := by
  have hname : '\n' ∉ c.decision.name.toList := by
    cases c.decision <;> decide
  have hopen : '\n' ∉ " (".toList := by decide
  have hclose : IsLine [')'] := ⟨by decide, by decide⟩
  have hreason := hclose.append (List.cons_ne_nil _ _) c.reasoning.oneLine
  have hrest := hreason.append (by simp) hopen
  exact hrest.append (by simp) hname

/-- Every line of a call is labelled. -/
theorem Call.line_induction (c : Call) {P : List Char → Prop}
    (hline : ∀ f style value, IsLine value →
      P (Field.line f style value)) : ∀ l ∈ c.lines, P l := by
  intro l hl
  simp only [lines, List.mem_append, List.mem_cons, List.not_mem_nil,
    or_false, List.mem_map] at hl
  rcases hl with (rfl | rfl | rfl) | ⟨r, -, rfl⟩
  · exact hline _ _ _ c.cited.isLine_quoted
  · exact hline _ _ _ c.isLine_verdict
  · exact hline _ _ _ c.expected.isLine
  · exact hline _ _ _ r.isLine

namespace Section

variable (s : Section)

/-- A line under the heading is one that is labelled or a step, or it is
blank. -/
theorem body_induction {P : List Char → Prop} (hblank : P [])
    (hbare : ∀ f style, P (Field.bare f style))
    (hline : ∀ f style value, IsLine value → P (Field.line f style value))
    (hstep : ∀ x : Step, P x.text) : ∀ l ∈ s.body, P l := by
  intro l hl
  rw [body, List.mem_append] at hl
  rcases hl with hl | hl
  · simp only [opening, List.mem_append, List.mem_cons, List.not_mem_nil,
      or_false, List.mem_map] at hl
    rcases hl with ((rfl | rfl | rfl | rfl) | ⟨x, -, rfl⟩) | rfl
    · refine hline _ _ _ ?_
      cases s.kind <;> exact ⟨by decide, by decide⟩
    · exact hline _ _ _ s.description.isLine
    · exact hblank
    · exact hbare _ _
    · exact hstep x
    · exact hblank
  · rw [closing] at hl
    split at hl
    · cases hl
    · simp only [List.mem_append, List.mem_cons, List.mem_flatMap,
        List.not_mem_nil, or_false] at hl
      rcases hl with (rfl | ⟨c, -, hl⟩) | rfl
      · exact hbare _ _
      · exact c.line_induction hline l hl
      · exact hblank

theorem isLine_body : ∀ l ∈ s.body, IsLine l :=
  s.body_induction ⟨by decide, by decide⟩ Field.isLine_bare
    (fun f style _ h => f.isLine_line style h) fun x => x.isLine

theorem isHeading_body : ∀ l ∈ s.body, isHeading l = false := by
  refine s.body_induction (by decide) (fun f style => ?_)
    (fun f style _ _ => f.isHeading_bare _ style) fun x => x.noHeading
  simpa using f.isHeading_bare [] style

/-- A heading is one line. -/
theorem isLine_heading (index : Nat) : IsLine (s.heading index) := by
  have hnumber : '\n' ∉ (toString (index + 1)).toList := fun h =>
    absurd (isDigit_of_mem_toString h) (by decide)
  have htitle := List.append_ne_nil_of_right_ne_nil ": ".toList
    s.title.nonempty
  have hrest := List.append_ne_nil_of_right_ne_nil
    (toString (index + 1)).toList htitle
  have hmark : IsLine (": ".toList ++ s.title.text) :=
    s.title.isLine.append s.title.nonempty (by decide)
  have hblock : IsLine (s.wholeTitle index) :=
    (hmark.append htitle hnumber).append hrest (by decide)
  exact hblock.append (List.append_ne_nil_of_right_ne_nil _ hrest)
    (by decide)

end Section

/-- Every line of a list of sections is a line. -/
theorem isLine_sectionLines (ss : List Section) :
    ∀ index, ∀ l ∈ sectionLines index ss, IsLine l := by
  induction ss with
  | nil => exact fun _ _ hl => absurd hl List.not_mem_nil
  | cons s rest ih =>
    intro index l hl
    rw [sectionLines, List.mem_append, List.mem_cons] at hl
    rcases hl with (rfl | hl) | hl
    · exact s.isLine_heading index
    · exact s.isLine_body l hl
    · exact ih (index + 1) l hl

theorem isLine_finding : ∀ l ∈ finding, IsLine l := by
  have hall : ∀ l ∈ finding, '\n' ∉ l ∧ l.getLast? ≠ some '\r' := by
    decide
  exact fun l hl => ⟨(hall l hl).1, (hall l hl).2⟩

/-- The lines of a reply come out of its text. A name may end in a line
feed, so the caption may be more than one of them. -/
theorem lines_reply {typeName method : String}
    (h : Source.isPlausible typeName method = true) (ss : List Section) :
    splitOn '\n' (unifyPairs (reply typeName method ss).toList) =
      splitOn '\n' (caption typeName method) ++
        (finding ++ sectionLines 0 ss) := by
  have hlines : ∀ l ∈ finding ++ sectionLines 0 ss, IsLine l := by
    intro l hl
    rcases List.mem_append.1 hl with hl | hl
    · exact isLine_finding l hl
    · exact isLine_sectionLines ss 0 l hl
  have hne : finding ++ sectionLines 0 ss ≠ [] := List.cons_ne_nil _ _
  have hreturn : '\r' ∉ caption typeName method := by
    obtain ⟨htype, hmethod⟩ := isNamed_of_isPlausible h
    have htypeReturn := htype.not_mem (c := '\r') (by decide) (by decide)
    have hmethodReturn := hmethod.not_mem (c := '\r') (by decide) (by decide)
    rw [caption_eq]
    simp [htypeReturn, hmethodReturn]
  have htext : unifyPairs (reply typeName method ss).toList =
      caption typeName method ++ '\n' ::
        joinWith ['\n'] (finding ++ sectionLines 0 ss) := by
    rw [reply, String.toList_ofList, foreword, List.cons_append,
      joinWith_cons hne, List.append_assoc, List.singleton_append,
      unifyPairs_append _ (.inr hreturn), unifyPairs_cons (by simp),
      unifyPairs_joinWith hlines]
    exact fun hlast => hreturn (List.mem_of_getLast? hlast)
  rw [htext, splitOn_append,
    splitOn_joinWith (fun l hl => (hlines l hl).oneLine) hne]

end Written

-- ============================================================ sections

namespace Written

/-- A section goes on up to the heading of the next one. -/
theorem takeWhile_sectionLines (index : Nat) (ss : List Section) :
    (sectionLines index ss).takeWhile (!isHeading ·) = [] := by
  cases ss with
  | nil => rfl
  | cons s rest =>
    rw [sectionLines, List.cons_append, List.takeWhile_cons_of_neg]
    simp [s.isHeading_heading]

/-- The lines of some sections are read as these sections. -/
theorem sections_sectionLines (index : Nat) (ss : List Section) :
    sections (sectionLines index ss) =
      ss.map fun s => (s.title.text, s.body) := by
  induction ss generalizing index with
  | nil => rfl
  | cons s rest ih =>
    have hbody : ∀ l ∈ s.body, (!isHeading l) = true := fun l hl => by
      simp [s.isHeading_body l hl]
    have hclosed : ∀ l ∈ s.body, opensBlock? l = none := fun l hl =>
      opensBlock?_eq_none (s.isHeading_body l hl)
    rw [sectionLines, List.cons_append, sections, s.opensBlock?_heading]
    simp only [List.takeWhile_append_of_pos hbody, takeWhile_sectionLines,
      sections_append hclosed, ih, List.append_nil, List.map_cons]

-- ============================================================== blocks

/-- Numbering the blocks and linking them gives the blocks as they were
meant. -/
theorem linkBlocks_drafts (owner : String) (ss : List Section)
    (index order : Nat) :
    linkBlocks (numberBlocks index order (ss.map (·.draft owner))) =
      blocks owner index order ss := by
  induction ss generalizing index order with
  | nil => rfl
  | cons s rest ih =>
    have hcalls : (s.block owner index order).calls.length =
        s.calls.length := by
      simp [Section.block]
    have hrest := ih (index + 1) (order + s.calls.length)
    rw [List.map_cons, numberBlocks]
    simp only [s.toBlock_draft, hcalls]
    cases rest with
    | nil => rfl
    | cons s' rest =>
      rw [List.map_cons, numberBlocks] at hrest ⊢
      rw [linkBlocks, hrest, blocks, s'.toBlock_draft]
      rfl

section

variable {typeName method : String}
  (h : Source.isPlausible typeName method = true)

include h

/-- No line of the foreword opens a block. -/
theorem opensBlock?_foreword :
    ∀ l ∈ splitOn '\n' (caption typeName method) ++ finding,
      opensBlock? l = none := by
  have hfinding : ∀ l ∈ finding, opensBlock? l = none := by decide
  intro l hl
  rcases List.mem_append.1 hl with hl | hl
  · exact opensBlock?_of_mem_caption h l hl
  · exact hfinding l hl

/-- What stands before the first section is the caption and the finding. -/
theorem preamble_foreword {s : Section} {rest : List Section} :
    preamble (splitOn '\n' (caption typeName method) ++ finding ++
        sectionLines 0 (s :: rest)) =
      splitOn '\n' (caption typeName method) ++ finding := by
  have hopen : (opensBlock? (s.heading 0)).isNone = false := by
    rw [s.opensBlock?_heading]
    rfl
  rw [preamble, List.takeWhile_append_of_pos fun l hl => by
    rw [opensBlock?_foreword h l hl, Option.isNone_none]]
  rw [sectionLines, List.cons_append, List.takeWhile_cons_of_neg
    (by simp [hopen]), List.append_nil]

/-- What is written in the layout about a method of a plausible type is read
as the blocks that were meant, whatever the texts in it are and however the
labels are set off. -/
theorem parse_reply (owner : String) {ss : List Section} (hne : ss ≠ []) :
    parse owner (reply typeName method ss) =
        .described (blocks owner 0 0 ss) ∧
      (parse owner (reply typeName method ss)).status = .complete := by
  have hparse : parse owner (reply typeName method ss) =
      .described (blocks owner 0 0 ss) := by
    obtain ⟨s, rest, rfl⟩ := List.exists_cons_of_ne_nil hne
    have hpresent : tellsAbsence (joinWith ['\n']
        (splitOn '\n' (caption typeName method) ++ finding)) = false := by
      have hfinding : finding ≠ [] := List.cons_ne_nil _ _
      rw [joinWith_append (splitOn_ne_nil _ _) hfinding, joinWith_splitOn,
        ← joinWith_cons hfinding]
      exact tellsAbsence_foreword h
    have hsections : sections (splitOn '\n' (caption typeName method) ++
        finding ++ sectionLines 0 (s :: rest)) =
          (s :: rest).map fun s => (s.title.text, s.body) := by
      rw [sections_append (opensBlock?_foreword h), sections_sectionLines]
    have hdrafts : ((s :: rest).map fun s =>
        (s.title.text, s.body)).map (fun found =>
          Draft.ofLines owner found.1 found.2) =
            (s :: rest).map (·.draft owner) := by
      rw [List.map_map]
      exact List.map_congr_left fun s _ => s.ofLines_body owner
    rw [parse]
    simp only [lines_reply h, ← List.append_assoc, preamble_foreword h,
      hpresent, hsections, Bool.false_eq_true, if_false]
    rw [← linkBlocks_drafts, ← hdrafts]
    rfl
  exact ⟨hparse, by rw [hparse]; rfl⟩

end

-- =========================================================== an order

/-- A text that is written as it stands. -/
def plainLine (cs : List Char)
    (h : ('\n' ∉ cs ∧ trim cs = cs) := by decide +kernel) : Line :=
  ⟨cs, h.1, h.2⟩

/-- A remark that is written as it stands. -/
def plainRemark (cs : List Char)
    (h : (('\n' ∉ cs ∧ trim cs = cs) ∧ cs.head? ≠ some ':' ∧ cs ≠ []) := by
      decide +kernel) : Remark :=
  ⟨⟨plainLine cs h.1, h.2.1⟩, h.2.2⟩

/-- A call on another type, which is only made sometimes. -/
def chargeCall : Call where
  cited :=
    { outer := [(⟨"shop".toList, by decide⟩, .colons)]
      type := ⟨"Bank".toList, by decide⟩
      joint := .arrow
      method := ⟨"charge".toList, by decide⟩
      params :=
        { plainLine "card(n), (a - b)".toList with
          balanced := by decide
          unquoted := by decide } }
  decision := .stepInto
  reasoning := plainLine "own code: (see bank)".toList
  expected := plainRemark "Takes the money".toList
  condition := some (plainRemark "**only** if open".toList)
  style := fun f => if f = .condition then .plain else .inside

/-- A call on the current object. -/
def logCall : Call where
  cited :=
    { type := ⟨"this".toList, by decide⟩
      method := ⟨"log".toList, by decide⟩
      params :=
        { plainLine [] with balanced := by decide, unquoted := by decide } }
  decision := .external
  reasoning := plainLine []
  expected := plainRemark "Writes a line".toList

/-- The block that is written as

    #### Block 1: Pay: (if open)
    **Type**: conditional
    **Description**:

    **Execution Flow**:
    1. asks the bank

    **Method Calls**:
    - **Call:** `shop::Bank->charge(card(n), (a - b))`
      - **Classification:** stepInto (own code: (see bank))
      - **Expected Behavior:** Takes the money
      - Condition: **only** if open
    - **Call**: `this.log()`
      - **Classification**: external ()
      - **Expected Behavior**: Writes a line
-/
def paySection : Section where
  title :=
    { plainLine "Pay: (if open)".toList with
      nonempty := by decide
      opening := by decide
      closing := by decide
      closingSign := by decide }
  kind := .conditional
  description := { plainLine [] with opening := by decide }
  steps :=
    [{ plainLine "1. asks the bank".toList with
       nonempty := by decide
       noHeading := by decide
       noLabel := by decide }]
  nonempty := by decide
  calls := [chargeCall, logCall]

/-- A reply with a single block. -/
theorem parse_reply_pay :
    Source.isPlausible "Shop" "pay\n" = true ∧ [paySection] ≠ [] ∧
    parse "Shop" (reply "Shop" "pay\n" [paySection]) = .described
      [{ id := "block-0"
         kind := .conditional
         description := "Pay: (if open)"
         narrative := "1. asks the bank"
         calls :=
           [{ targetType := "Bank"
              targetMethod := "charge"
              parameters := "card(n), (a - b)"
              decision := .stepInto
              reasoning := "own code: (see bank)"
              expectedBehavior := "Takes the money"
              order := 0
              condition := some "**only** if open" },
            { targetType := "Shop"
              targetMethod := "log"
              decision := .external
              expectedBehavior := "Writes a line"
              order := 1 }] }] := by
  have hnames : Source.isPlausible "Shop" "pay\n" = true := by
    decide
  have hne : [paySection] ≠ [] := List.cons_ne_nil _ _
  refine ⟨hnames, hne, (parse_reply hnames "Shop" hne).1.trans ?_⟩
  decide

end Written

end CallTrace.Reply
