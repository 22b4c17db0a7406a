/-
A citation that cannot be read harms nothing but itself.

It leaves a dropped entry in the list of calls, and the lines that describe
it go with that entry. The entries before it are not looked at any more
once another one stands on top of them, and a dropped entry on top is as
good as none. So the lines after it are read as they would be without it,
unless they describe the call before it, which they do not where that
call's own lines are over. A block is built from what was kept, and there
the dropped entry has no part.
-/
import CallTrace.Proofs.Reply.Denial
import CallTrace.Proofs.Reply.Entries

namespace CallTrace.Reply

open Text

-- =========================================================== insertion

/-- The line cites a call, and the citation cannot be read. -/
inductive Rejected (owner : String) (line : List Char) : Prop where
  | labelled {name : String} {value : List Char}
      (hlabel : label? line = some (name, value))
      (hname : Label.ofName name = .call)
      (hread : Citation.read? owner ((inBackticks value).head?.getD value) =
        none)
  | bulleted {citation rest : List Char}
      (hbullet : bulletCitation? line = some (citation, rest))
      (hread : Citation.read? owner citation = none)

/-- A line that may stand below a citation: it is no heading, cites no
other call, and if it has a label, that is not about the block. -/
structure IsDetail (line : List Char) : Prop where
  noHeading : isHeading line = false
  noBullet : bulletCitation? line = none
  label : ∀ name value, label? line = some (name, value) →
    (Label.ofName name).ofCall = true ∨ Label.ofName name = .other

/-- The lines of `text'` are those of `text` and one more entry in the calls
of a block: a citation that cannot be read, and lines below it. The entry
stands behind another one that is described to the end, or first of all. -/
structure Insertion (owner text text' : String) where
  before : List (List Char)
  heading : List Char
  title : List Char
  /-- The lines of the block in front of the entry. -/
  body : List (List Char)
  citing : List Char
  details : List (List Char)
  /-- All lines after the entry. -/
  after : List (List Char)
  opens : opensBlock? heading = some title
  noHeading : ∀ line ∈ body, isHeading line = false
  inCalls : body.foldl partAfter .opening = .calls
  rejected : Rejected owner citing
  isDetail : ∀ line ∈ details, IsDetail line
  settled : settled describes .calls (after.takeWhile (!isHeading ·)) = true
  lines : linesOf text = before ++ heading :: (body ++ after)
  lines' : linesOf text' =
    before ++ heading :: (body ++ citing :: (details ++ after))

theorem Rejected.noHeading {owner : String} {line : List Char}
    (h : Rejected owner line) : isHeading line = false := by
  cases h with
  | labelled hlabel => exact isHeading_of_label? hlabel
  | bulleted hbullet => exact isHeading_of_bullet hbullet

/-- Every field of a call may stand below its citation. -/
theorem IsDetail.of_describes {line : List Char}
    (h : describes line = true) : IsDetail line := by
  obtain ⟨name, value, hlabel, hcall⟩ := exists_of_describes h
  refine ⟨isHeading_of_label? hlabel, ?_, fun name' value' hlabel' => ?_⟩
  · cases hbullet : bulletCitation? line with
    | none => rfl
    | some cited =>
      rw [label?_of_bullet hbullet] at hlabel
      cases hlabel
  · rw [hlabel] at hlabel'
    cases hlabel'
    exact .inl hcall

-- ======================================================= dropped entries

namespace Draft

variable {owner : String} {ys : List Entry} {line : List Char}

/-- Nothing reaches what is below a dropped entry. -/
theorem foldl_read_dropped (lines : List (List Char)) (d : Draft) :
    lines.foldl (read owner) (d.below (.dropped :: ys)) =
      (lines.foldl (read owner) d).below (.dropped :: ys) := by
  induction lines generalizing d with
  | nil => rfl
  | cons line lines ih =>
    rw [List.foldl_cons, List.foldl_cons, read_below, ih]
    intro _ _ _ c rest heq
    cases heq

/-- A citation that cannot be read leaves a dropped entry. -/
theorem read_rejected {d : Draft} (h : Rejected owner line)
    (hpart : d.part = .calls) :
    d.read owner line = { d with entries := .dropped :: d.entries } := by
  cases h with
  | labelled hlabel hname hread =>
    unfold read
    rw [hlabel]
    dsimp only
    rw [hname]
    dsimp only [cite]
    rw [hread, ← hpart]
  | bulleted hbullet hread =>
    unfold read readUnlabelled
    rw [label?_of_bullet hbullet]
    simp only [hpart, hbullet, cite, hread]

/-- A dropped entry takes the lines that stand below it. -/
theorem read_detail {d : Draft} (h : IsDetail line) (hpart : d.part = .calls)
    (hdropped : d.entries = .dropped :: ys) : d.read owner line = d := by
  unfold read
  cases hlabel : label? line with
  | none =>
    unfold readUnlabelled
    simp only [hpart, h.noBullet]
  | some found =>
    obtain ⟨name, value⟩ := found
    have habsorbed : ∀ label, d.readCallLine owner label value line = d := by
      intro label
      unfold readCallLine
      simp only [hpart, hdropped]
    have habout := h.label name value hlabel
    dsimp only
    cases hname : Label.ofName name with
    | blockTag | description | narrative | calls | call =>
      rw [hname] at habout
      exact absurd habout (by decide)
    | decision | reasoning | expected | condition | parameters | other =>
      exact habsorbed _

/-- Lines that describe a dropped entry change nothing. -/
theorem foldl_read_details {details : List (List Char)} {d : Draft}
    (h : ∀ line ∈ details, IsDetail line) (hpart : d.part = .calls)
    (hdropped : d.entries = .dropped :: ys) :
    details.foldl (read owner) d = d := by
  induction details with
  | nil => rfl
  | cons line details ih =>
    rw [List.foldl_cons, read_detail (h line (.head _)) hpart hdropped]
    exact ih fun l hl => h l (.tail _ hl)

-- =============================================================== blocks

/-- A dropped entry has no part in the block. -/
theorem toBlock_dropped (d : Draft) (ys : List Entry) :
    (d.below (.dropped :: ys)).toBlock = (d.below ys).toBlock := by
  have hkept : (d.below (.dropped :: ys)).keptCalls =
      (d.below ys).keptCalls := by
    simp [keptCalls, below, List.filterMap_append]
  funext index order
  unfold toBlock
  rw [hkept]
  rfl

/-- The block of a section is the same with and without an entry that
cannot be read. -/
theorem toBlock_insert {title citing : List Char}
    {body details back : List (List Char)}
    (hcalls : (ofLines owner title body).part = .calls)
    (hciting : Rejected owner citing)
    (hdetails : ∀ line ∈ details, IsDetail line)
    (hsettled : settled describes .calls back = true) :
    (ofLines owner title (body ++ citing :: (details ++ back))).toBlock =
      (ofLines owner title (body ++ back)).toBlock := by
  have hstart : ∀ rest, ofLines owner title (body ++ rest) =
      rest.foldl (read owner) (ofLines owner title body) := by
    intro rest
    exact List.foldl_append
  rw [hstart, hstart, List.foldl_cons, List.foldl_append]
  generalize ofLines owner title body = d at hcalls ⊢
  rw [read_rejected hciting hcalls]
  rw [foldl_read_details (d := { d with entries := .dropped :: d.entries })
    hdetails hcalls rfl]
  -- What was cited so far is below a draft that has no calls yet.
  obtain ⟨title, tag, description, narrative, ys, part⟩ := d
  let fresh : Draft := ⟨title, tag, description, narrative, [], part⟩
  have hbefore : back.foldl (read owner) (fresh.below ys) =
      (back.foldl (read owner) fresh).below ys := by
    apply foldl_read_settled
    rw [show fresh.part = .calls from hcalls]
    exact .inr hsettled
  have hafter : back.foldl (read owner) (fresh.below (.dropped :: ys)) =
      (back.foldl (read owner) fresh).below (.dropped :: ys) :=
    foldl_read_dropped back fresh
  rw [show (⟨title, tag, description, narrative, ys, part⟩ : Draft) =
    fresh.below ys from rfl, hbefore]
  show (back.foldl (read owner) (fresh.below (.dropped :: ys))).toBlock = _
  rw [hafter, toBlock_dropped]

end Draft

/-- Blocks are numbered alike where the drafts give the same blocks. -/
theorem numberBlocks_congr {drafts drafts' : List Draft}
    (h : drafts'.map Draft.toBlock = drafts.map Draft.toBlock) :
    ∀ index order, numberBlocks index order drafts' =
      numberBlocks index order drafts := by
  induction drafts generalizing drafts' with
  | nil =>
    intro index order
    rw [List.map_eq_nil_iff.1 h]
  | cons d rest ih =>
    intro index order
    obtain ⟨d', rest', rfl, hfirst, hrest⟩ := List.map_eq_cons_iff.1 h
    simp only [numberBlocks, hfirst, ih hrest]

-- ============================================================= replies

/-- The preamble does not go on after a block is opened. -/
theorem preamble_append {heading title : List Char}
    (h : opensBlock? heading = some title) (front back : List (List Char)) :
    preamble (front ++ heading :: back) = preamble front := by
  unfold preamble
  induction front with
  | nil => simp [h]
  | cons line front ih =>
    rw [List.cons_append, List.takeWhile_cons, List.takeWhile_cons, ih]

/-- Of a whole reply those types are suggested that each of its lines
suggests. -/
theorem mem_suggestions_of_lines {text name : String} :
    name ∈ suggestions (unifyPairs text.toList) ↔
      ∃ line ∈ linesOf text, name ∈ suggestions line := by
  have hfeed : isLineBreak '\n' = true := by decide
  have hpieces : splitBy isLineBreak (unifyPairs text.toList) =
      (linesOf text).flatMap (splitBy isLineBreak) := by
    conv_lhs => rw [← joinWith_splitOn '\n' (unifyPairs text.toList)]
    exact splitBy_joinWith hfeed (splitOn_ne_nil _ _)
  simp only [mem_suggestions, hpieces, List.mem_flatMap]
  constructor
  · rintro ⟨piece, ⟨line, hline, hpiece⟩, hnames⟩
    exact ⟨line, hline, piece, hpiece, hnames⟩
  · rintro ⟨line, hline, piece, hpiece, hnames⟩
    exact ⟨piece, ⟨line, hline, hpiece⟩, hnames⟩

/-- Where a method is told to be absent, the types suggested are those of
the whole text. -/
theorem suggestions_of_absent {owner text : String} {names : List String}
    (h : parse owner text = .absent names) :
    names = suggestions (unifyPairs text.toList) := by
  rw [parse] at h
  dsimp only at h
  split at h
  · exact (Reply.absent.inj h).symm
  · split at h <;> cases h

/-- Of two replies with the same preamble and the same blocks either both
tell of an absence, or neither does and they are the same. -/
theorem parse_congr {owner text text' : String}
    (hpreamble : preamble (linesOf text') = preamble (linesOf text))
    (hblocks : (sections (linesOf text')).map
        (fun s => (Draft.ofLines owner s.1 s.2).toBlock) =
      (sections (linesOf text)).map
        fun s => (Draft.ofLines owner s.1 s.2).toBlock) :
    (∃ names names', parse owner text = .absent names ∧
      parse owner text' = .absent names') ∨
    (¬∃ names, parse owner text = .absent names) ∧
      parse owner text' = parse owner text := by
  have habsent : (∃ names, parse owner text' = .absent names) ↔
      ∃ names, parse owner text = .absent names := by
    rw [absent_iff, absent_iff, hpreamble]
  by_cases hthere : ∃ names, parse owner text = .absent names
  · obtain ⟨names', hnames'⟩ := habsent.2 hthere
    obtain ⟨names, hnames⟩ := hthere
    exact .inl ⟨names, names', hnames, hnames'⟩
  · have hnone : sections (linesOf text') = [] ↔
        sections (linesOf text) = [] := by
      rw [← List.map_eq_nil_iff, hblocks, List.map_eq_nil_iff]
    have hdrafts : ((sections (linesOf text')).map fun s =>
          Draft.ofLines owner s.1 s.2).map Draft.toBlock =
        ((sections (linesOf text)).map fun s =>
          Draft.ofLines owner s.1 s.2).map Draft.toBlock := by
      rw [List.map_map, List.map_map]
      exact hblocks
    refine .inr ⟨hthere, ?_⟩
    rw [parse_of_present hthere, parse_of_present (habsent.not.2 hthere),
      numberBlocks_congr hdrafts]
    simp only [hnone]

/-- One more citation that cannot be read, between two calls of a block or
after the last one, with whatever describes it, changes nothing in what is
read from a reply: the same blocks with the same calls, in the same order
and with the same decisions, and the same status. Where the method is told
to be absent there are no blocks in either case, and it is told so in both;
but the types that are suggested instead are looked for in all lines, so
those on the new lines come to be suggested too, and no others. -/
theorem parse_insertion {owner text text' : String}
    (h : Insertion owner text text') :
    (parse owner text').blocks = (parse owner text).blocks ∧
    (parse owner text').calls = (parse owner text).calls ∧
    (parse owner text').status = (parse owner text).status ∧
    (parse owner text').errorMessage? owner =
      (parse owner text).errorMessage? owner ∧
    ((¬∃ names, parse owner text = .absent names) →
      parse owner text' = parse owner text) ∧
    ∀ names, parse owner text = .absent names →
      ∃ names', parse owner text' = .absent names' ∧
        ∀ name, name ∈ names' ↔ name ∈ names ∨
          ∃ line ∈ h.citing :: h.details, name ∈ suggestions line := by
  have hentry : ∀ line ∈ h.body ++ h.citing :: h.details,
      isHeading line = false := by
    intro line hline
    rw [List.mem_append, List.mem_cons] at hline
    rcases hline with hline | rfl | hline
    · exact h.noHeading line hline
    · exact h.rejected.noHeading
    · exact (h.isDetail line hline).noHeading
  have hsections := sections_opened h.opens h.before h.noHeading h.after
  have hsections' := sections_opened h.opens h.before hentry h.after
  rw [List.append_assoc, List.cons_append] at hsections'
  have hcalls : (Draft.ofLines owner h.title h.body).part = .calls := by
    rw [part_ofLines]
    exact h.inCalls
  have hblock := Draft.toBlock_insert hcalls h.rejected h.isDetail h.settled
  have hpreamble : preamble (linesOf text') = preamble (linesOf text) := by
    rw [h.lines, h.lines', preamble_append h.opens, preamble_append h.opens]
  have hblocks : (sections (linesOf text')).map
        (fun s => (Draft.ofLines owner s.1 s.2).toBlock) =
      (sections (linesOf text)).map
        fun s => (Draft.ofLines owner s.1 s.2).toBlock := by
    rw [h.lines, h.lines', hsections, hsections']
    simp only [List.map_append, List.map_cons, List.append_assoc,
      List.cons_append, hblock]
  rcases parse_congr hpreamble hblocks with
    ⟨names, names', habsent, habsent'⟩ | ⟨hthere, hsame⟩
  · rw [habsent, habsent']
    refine ⟨rfl, rfl, rfl, rfl, fun hno => absurd ⟨names, rfl⟩ hno, ?_⟩
    rintro _ ⟨⟩
    refine ⟨names', rfl, fun name => ?_⟩
    rw [suggestions_of_absent habsent, suggestions_of_absent habsent',
      mem_suggestions_of_lines, mem_suggestions_of_lines, h.lines, h.lines']
    constructor
    · rintro ⟨line, hline, hname⟩
      simp only [List.mem_append, List.mem_cons] at hline
      rcases hline with hline | rfl | hline | rfl | hline | hline
      · exact .inl ⟨line, by simp [hline], hname⟩
      · exact .inl ⟨h.heading, by simp, hname⟩
      · exact .inl ⟨line, by simp [hline], hname⟩
      · exact .inr ⟨h.citing, List.mem_cons_self, hname⟩
      · exact .inr ⟨line, List.mem_cons_of_mem _ hline, hname⟩
      · exact .inl ⟨line, by simp [hline], hname⟩
    · rintro (⟨line, hline, hname⟩ | ⟨line, hline, hname⟩)
      · refine ⟨line, ?_, hname⟩
        simp only [List.mem_append, List.mem_cons] at hline ⊢
        rcases hline with hline | hline | hline | hline <;> simp [hline]
      · refine ⟨line, ?_, hname⟩
        simp only [List.mem_append, List.mem_cons] at hline ⊢
        rcases hline with hline | hline <;> simp [hline]
  · rw [hsame]
    exact ⟨rfl, rfl, rfl, rfl, fun _ => rfl,
      fun names habsent => absurd ⟨names, habsent⟩ hthere⟩

/-- A reply with two calls. -/
def pairReply : String := "### Block 1\n- Call: `a()`\n- `b()`"

/-- The reply with a chained citation between the two. -/
def chainedReply : String :=
  "### Block 1\n- Call: `a()`\n- Call: `c().d()`\n- Step into: yes\n- `b()`"

def chainedInsertion : Insertion "A" pairReply chainedReply where
  before := []
  heading := "### Block 1".toList
  title := []
  body := ["- Call: `a()`".toList]
  citing := "- Call: `c().d()`".toList
  details := ["- Step into: yes".toList]
  after := ["- `b()`".toList]
  opens := by decide
  noHeading := by decide
  inCalls := by decide
  rejected := .labelled
    (show label? _ = some ("call", "`c().d()`".toList) by decide)
    (by decide) (by decide)
  isDetail := by
    intro line hline
    apply IsDetail.of_describes
    revert line
    decide
  settled := by decide
  lines := by decide +kernel
  lines' := by decide +kernel

/-- The decision is about the chained call, and goes with it. -/
theorem parse_insertion_chained :
    (parse "A" chainedReply).calls.map
      (fun c => (c.targetMethod, c.decision, c.order)) =
      [("a", .external, 0), ("b", .external, 1)] := by
  obtain ⟨-, hcalls, -⟩ := parse_insertion chainedInsertion
  have hpair : (parse "A" pairReply).calls.map
      (fun c => (c.targetMethod, c.decision, c.order)) =
      [("a", .external, 0), ("b", .external, 1)] := by
    decide +kernel
  exact (congrArg (List.map _) hcalls).trans hpair

/-- A reply that denies the method, and has a block all the same. -/
def deniedReply : String :=
  "### Method Not Found\n### Block 1\n- Call: `a()`"

/-- The reply with one more citation that cannot be read. -/
def deniedAgain : String :=
  "### Method Not Found\n### Block 1\n- Call: `a()`\n- `b().C`"

def deniedInsertion : Insertion "A" deniedReply deniedAgain where
  before := ["### Method Not Found".toList]
  heading := "### Block 1".toList
  title := []
  body := ["- Call: `a()`".toList]
  citing := "- `b().C`".toList
  details := []
  after := []
  opens := by decide
  noHeading := by decide
  inCalls := by decide
  rejected := .bulleted
    (show bulletCitation? _ = some ("b().C".toList, []) by decide)
    (by decide)
  isDetail := fun line hline => absurd hline List.not_mem_nil
  settled := by decide
  lines := by decide +kernel
  lines' := by decide +kernel

/-- The new line stands in a list and ends in the name of a type, so that
type comes to be suggested. -/
theorem denied_insertion_suggests :
    Nonempty (Insertion "A" deniedReply deniedAgain) ∧
    parse "A" deniedReply = .absent [] ∧
    parse "A" deniedAgain = .absent ["C"] ∧
    parse "A" deniedAgain ≠ parse "A" deniedReply := by
  have hreply : parse "A" deniedReply = .absent [] := by decide +kernel
  have hagain : parse "A" deniedAgain = .absent ["C"] := by decide +kernel
  refine ⟨⟨deniedInsertion⟩, hreply, hagain, ?_⟩
  rw [hreply, hagain]
  simp

end CallTrace.Reply
