/-
How the lines of a section act on its list of calls.

A line that cites a call puts an entry on top of the list, and a line that
describes a call changes the entry on top. So the entries are a stack: what
is below is not looked at as long as the draft has a call of its own, and
until then only a line that describes a call can reach it. Whether one does
can be told from the lines alone, as they alone decide which part of the
section they belong to.
-/
import CallTrace.Proofs.Reply.Labels
import CallTrace.Proofs.Reply.Outcome

namespace CallTrace.Reply

open Text

-- ====================================================== kinds of lines

/-- The label is about the call that was cited last. -/
def Label.ofCall : Label → Bool
  | decision | reasoning | expected | condition | parameters => true
  | _ => false

/-- The line describes a call. -/
def describes (line : List Char) : Bool :=
  match label? line with
  | some (name, _) => (Label.ofName name).ofCall
  | none => false

theorem exists_of_describes {line : List Char} (h : describes line = true) :
    ∃ name value, label? line = some (name, value) ∧
      (Label.ofName name).ofCall = true := by
  unfold describes at h
  split at h
  · exact ⟨_, _, ‹_›, h⟩
  · cases h

/-- The line, in a part of a section, cites a call. -/
def cites (part : Part) (line : List Char) : Bool :=
  match label? line with
  | some (name, _) => Label.ofName name == .call
  | none => part == .calls && (bulletCitation? line).isSome

/-- The part that goes on after the line. -/
def partAfter (part : Part) (line : List Char) : Part :=
  match label? line with
  | some (name, _) =>
    match Label.ofName name with
    | .narrative => .narrative
    | .calls | .call => .calls
    | _ => part
  | none => part

/-- Nothing more of one kind is said of the call that was cited last: none of
the lines up to the next citation is of that kind. -/
def settled (kind : List Char → Bool) (part : Part) :
    List (List Char) → Bool
  | [] => true
  | line :: rest =>
    !(part == .calls && kind line) &&
      (cites part line || settled kind (partAfter part line) rest)

-- ==================================================== labels and bullets

section

variable {line : List Char} {found : String × List Char}
  {cited : List Char × List Char}

/-- A heading begins with a number sign. -/
theorem trimLeft_of_isHeading (h : isHeading line = true) :
    ∃ rest, trimLeft line = '#' :: rest := by
  cases htrim : trimLeft line with
  | nil =>
    rw [isHeading, heading?_eq_none_of_head? (by simp [htrim])] at h
    cases h
  | cons c rest =>
    by_cases hc : c = '#'
    · exact ⟨rest, by rw [hc]⟩
    · rw [isHeading, heading?_eq_none_of_head? (by simp [htrim, hc])] at h
      cases h

/-- No label begins with a number sign or a backtick. -/
theorem label?_eq_none {c : Char} {rest : List Char}
    (hdrop : dropBullet line = c :: rest) (hc : c = '#' ∨ c = backtick) :
    label? line = none := by
  have hbold : boldLabel? line = none := by
    unfold boldLabel?
    rw [hdrop]
    rcases hc with rfl | rfl <;> rfl
  have hplain : plainLabel? line = none := by
    unfold plainLabel?
    rw [hdrop]
    rcases hc with rfl | rfl <;> rfl
  rw [label?, hbold, hplain]
  rfl

/-- A line with a label is no heading. -/
theorem isHeading_of_label? (h : label? line = some found) :
    isHeading line = false := by
  by_contra hheading
  obtain ⟨rest, hrest⟩ := trimLeft_of_isHeading (by simpa using hheading)
  have hdrop : dropBullet line = '#' :: rest := by
    unfold dropBullet
    rw [hrest]
    cases rest <;> rfl
  rw [label?_eq_none hdrop (.inl rfl)] at h
  cases h

theorem isHeading_of_bullet (h : bulletCitation? line = some cited) :
    isHeading line = false := by
  by_contra hheading
  obtain ⟨rest, hrest⟩ := trimLeft_of_isHeading (by simpa using hheading)
  unfold bulletCitation? at h
  rw [hrest] at h
  cases rest <;> cases h

/-- A line that cites a call has no label. -/
theorem label?_of_bullet (h : bulletCitation? line = some cited) :
    label? line = none := by
  unfold bulletCitation? at h
  split at h
  · rename_i c b rest hline
    split at h
    · rename_i hbullet
      split at h
      · rename_i t body hbody
        split at h
        · rename_i htick
          have hdrop : dropBullet line = t :: body := by
            unfold dropBullet
            simp only [hline, hbullet, if_true, hbody]
          exact label?_eq_none hdrop (.inr (beq_iff_eq.1 htick))
        · cases h
      · cases h
    · cases h
  · cases h

end

-- ======================================================== one more line

/-- A field is recorded just when its label is about a call. -/
theorem isSome_describeCall? (label : Label) (value : List Char)
    (c : CallDraft) :
    (Draft.describeCall? label value c).isSome = label.ofCall := by
  cases label <;> rfl

namespace Draft

variable {owner : String} {ys : List Entry} {line : List Char}

/-- The draft with more entries below its own. -/
def below (ys : List Entry) (d : Draft) : Draft :=
  { d with entries := d.entries ++ ys }

/-- A line that describes a call is tried on the call that was cited
last. -/
theorem read_of_call (d : Draft) {name : String} {value : List Char}
    (hlabel : label? line = some (name, value))
    (hcall : (Label.ofName name).ofCall = true) :
    d.read owner line =
      d.readCallLine owner (Label.ofName name) value line := by
  unfold read
  rw [hlabel]
  dsimp only
  cases hname : Label.ofName name with
  | decision | reasoning | expected | condition | parameters | other => rfl
  | blockTag | description | narrative | calls | call =>
    rw [hname] at hcall
    cases hcall

/-- A line with a label is no citation at a bullet. -/
theorem readUnlabelled_of_label {d : Draft} {found : String × List Char}
    (hpart : d.part = .calls) (hlabel : label? line = some found) :
    d.readUnlabelled owner line = d := by
  unfold readUnlabelled
  simp only [hpart]
  cases hbullet : bulletCitation? line with
  | none => rfl
  | some cited =>
    rw [label?_of_bullet hbullet] at hlabel
    cases hlabel

/-- A line without a label is read over older entries as it is without
them. -/
theorem readUnlabelled_below (d : Draft) (line : List Char) :
    (d.below ys).readUnlabelled owner line =
      (d.readUnlabelled owner line).below ys := by
  have hbelow : (d.below ys).part = d.part := rfl
  unfold readUnlabelled
  rw [hbelow]
  cases d.part with
  | calls =>
    cases bulletCitation? line <;> rfl
  | opening | narrative =>
    dsimp only
    unfold narrate
    split <;> rfl

/-- With no call of its own a draft passes a field on to what is below it,
unless that is a dropped entry. -/
theorem readCallLine_below {d : Draft} {name : String} {value : List Char}
    (hlabel : label? line = some (name, value))
    (h : d.entries = [] → d.part = .calls →
      (Label.ofName name).ofCall = true → ∀ c rest, ys ≠ .kept c :: rest) :
    (d.below ys).readCallLine owner (Label.ofName name) value line =
      (d.readCallLine owner (Label.ofName name) value line).below ys := by
  have hbelow : (d.below ys).part = d.part ∧
      (d.below ys).entries = d.entries ++ ys := ⟨rfl, rfl⟩
  unfold readCallLine
  rw [hbelow.1, hbelow.2]
  cases hpart : d.part with
  | opening | narrative => exact readUnlabelled_below d line
  | calls =>
    cases hentries : d.entries with
    | cons entry rest =>
      cases entry with
      | dropped => rfl
      | kept c =>
        dsimp only [List.cons_append]
        cases describeCall? (Label.ofName name) value c with
        | some c' => simp only [below, hpart, List.cons_append]
        | none => exact readUnlabelled_below d line
    | nil =>
      cases ys with
      | nil => exact readUnlabelled_below d line
      | cons entry rest =>
        rw [readUnlabelled_of_label hpart hlabel]
        cases entry with
        | dropped => rfl
        | kept c =>
          have hother : (Label.ofName name).ofCall = false := by
            cases hcall : (Label.ofName name).ofCall with
            | false => rfl
            | true => exact absurd rfl (h hentries hpart hcall c rest)
          have hnone : describeCall? (Label.ofName name) value c = none := by
            rw [← Option.not_isSome_iff_eq_none, isSome_describeCall?, hother]
            decide
          dsimp only [List.nil_append]
          rw [hnone]
          exact readUnlabelled_of_label (d := d.below _) hpart hlabel

/-- What is below is not looked at, unless a line describes a call and the
draft has none of its own. -/
theorem read_below (d : Draft) (h : d.entries = [] → d.part = .calls →
    describes line = true → ∀ c rest, ys ≠ .kept c :: rest) :
    (d.below ys).read owner line = (d.read owner line).below ys := by
  unfold describes at h
  unfold read
  cases hlabel : label? line with
  | none => exact readUnlabelled_below d line
  | some found =>
    obtain ⟨name, value⟩ := found
    rw [hlabel] at h
    have hline : (d.below ys).readCallLine owner (Label.ofName name) value
        line = (d.readCallLine owner (Label.ofName name) value line).below ys :=
      readCallLine_below hlabel h
    dsimp only
    cases hname : Label.ofName name with
    | blockTag | description | narrative | calls | call => rfl
    | decision | reasoning | expected | condition | parameters | other =>
      rw [hname] at hline
      exact hline

/-- A line changes the part as the rule for parts says. -/
theorem part_read (d : Draft) (line : List Char) :
    (d.read owner line).part = partAfter d.part line := by
  have hunlabelled : (d.readUnlabelled owner line).part = d.part := by
    unfold readUnlabelled
    split
    · split <;> rfl
    all_goals
      unfold narrate
      split <;> rfl
  unfold read partAfter
  cases label? line with
  | none => exact hunlabelled
  | some found =>
    obtain ⟨name, value⟩ := found
    dsimp only
    cases Label.ofName name with
    | blockTag | description | narrative | calls | call => rfl
    | decision | reasoning | expected | condition | parameters | other =>
      dsimp only
      unfold readCallLine
      split
      · rfl
      · split
        · rfl
        · exact hunlabelled
      · exact hunlabelled

/-- A citation brings an entry, and none is ever taken away. -/
theorem entries_read_ne_nil {d : Draft}
    (h : d.entries ≠ [] ∨ cites d.part line = true) :
    (d.read owner line).entries ≠ [] := by
  have hunlabelled : d.entries ≠ [] →
      (d.readUnlabelled owner line).entries ≠ [] := by
    intro hne
    unfold readUnlabelled
    split
    · split
      · exact List.cons_ne_nil _ _
      · exact hne
    all_goals
      unfold narrate
      split <;> exact hne
  unfold cites at h
  unfold read
  cases hlabel : label? line with
  | none =>
    rw [hlabel] at h
    rcases h with hne | hcites
    · exact hunlabelled hne
    · rw [Bool.and_eq_true, beq_iff_eq, Option.isSome_iff_exists] at hcites
      obtain ⟨hpart, cited, hbullet⟩ := hcites
      unfold readUnlabelled
      simp only [hpart, hbullet]
      exact List.cons_ne_nil _ _
  | some found =>
    obtain ⟨name, value⟩ := found
    rw [hlabel] at h
    dsimp only at h ⊢
    cases hname : Label.ofName name with
    | call => exact List.cons_ne_nil _ _
    | blockTag | description | narrative | calls =>
      exact h.resolve_right (by rw [hname]; decide)
    | decision | reasoning | expected | condition | parameters | other =>
      have hne := h.resolve_right (by rw [hname]; decide)
      dsimp only
      unfold readCallLine
      split
      · exact hne
      · split
        · exact List.cons_ne_nil _ _
        · exact hunlabelled hne
      · exact hunlabelled hne

/-- Where the calls so far are settled, they are so after one more line, and
the line is not of the kind unless the draft has a call of its own. -/
theorem settled_read {kind : List Char → Bool} {d : Draft}
    {lines : List (List Char)}
    (h : d.entries ≠ [] ∨ settled kind d.part (line :: lines) = true) :
    (d.entries = [] → d.part = .calls → kind line = false) ∧
    ((d.read owner line).entries ≠ [] ∨
      settled kind (d.read owner line).part lines = true) := by
  simp only [settled, Bool.and_eq_true, Bool.not_eq_true',
    Bool.and_eq_false_iff, Bool.or_eq_true] at h
  rw [part_read]
  rcases h with hne | ⟨hother, hrest⟩
  · exact ⟨fun hnil => absurd hnil hne, .inl (entries_read_ne_nil (.inl hne))⟩
  refine ⟨fun _ hpart => ?_, ?_⟩
  · rw [hpart] at hother
    exact hother.resolve_left (by decide)
  · rcases hrest with hcites | hrest
    · exact .inl (entries_read_ne_nil (.inr hcites))
    · exact .inr hrest

-- =========================================================== more lines

/-- Where the calls so far are settled, nothing reaches them. -/
theorem foldl_read_settled (lines : List (List Char)) (d : Draft)
    (h : d.entries ≠ [] ∨ settled describes d.part lines = true) :
    lines.foldl (read owner) (d.below ys) =
      (lines.foldl (read owner) d).below ys := by
  induction lines generalizing d with
  | nil => rfl
  | cons line lines ih =>
    obtain ⟨hline, hrest⟩ := @settled_read owner _ _ _ _ h
    rw [List.foldl_cons, List.foldl_cons, read_below, ih _ hrest]
    intro hnil hpart hdescribes
    rw [hline hnil hpart] at hdescribes
    cases hdescribes

end Draft

/-- The part of a whole section is that of its lines, one after another. -/
theorem part_ofLines (owner : String) (title : List Char)
    (body : List (List Char)) :
    (Draft.ofLines owner title body).part = body.foldl partAfter .opening := by
  have hfold : ∀ d : Draft, (body.foldl (Draft.read owner) d).part =
      body.foldl partAfter d.part := by
    induction body with
    | nil => exact fun _ => rfl
    | cons line body ih =>
      intro d
      rw [List.foldl_cons, List.foldl_cons, ih, Draft.part_read]
  exact hfold _

/-- Sections without headings go on in what comes after them. -/
theorem sections_opened {heading title : List Char}
    (h : opensBlock? heading = some title) (before : List (List Char))
    {front : List (List Char)} (hfront : ∀ line ∈ front, isHeading line = false)
    (back : List (List Char)) :
    sections (before ++ heading :: (front ++ back)) =
      sections before ++
        (title, front ++ back.takeWhile (!isHeading ·)) :: sections back := by
  have hheading : isHeading heading = true := by
    by_contra hno
    rw [opensBlock?_eq_none (by simpa using hno)] at h
    cases h
  rw [sections_append_heading hheading, sections, h]
  dsimp only
  rw [List.takeWhile_append_of_pos fun l hl => by simp [hfront l hl],
    sections_append fun l hl => opensBlock?_eq_none (hfront l hl)]

end CallTrace.Reply
