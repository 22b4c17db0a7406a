/-
What is decided about the calls of a reply.

A classification changes the call that was cited last, and the lines after
it may say more of that call or cite others, but as long as none of them is
a classification of the same call, they leave what decides about it. So the
call comes to the decision of the last classification below its citation;
and that is the decision of its tag, unless the reason behind the tag holds
what the reader looks for before the separator.
-/
import CallTrace.Proofs.Reply.Entries
import CallTrace.Proofs.Reply.Separator

namespace CallTrace.Reply

open Text Written

-- ======================================================= one more line

/-- The line is a classification. -/
def judges (line : List Char) : Bool :=
  match label? line with
  | some (name, _) => Label.ofName name == .decision
  | none => false

/-- The same call with the same words to decide about it; what else is said
of it may differ. -/
structure SameVerdict (c c' : CallDraft) : Prop where
  phrase : c'.phrase = c.phrase
  targetType : c'.citation.targetType = c.citation.targetType
  targetMethod : c'.citation.targetMethod = c.citation.targetMethod

theorem SameVerdict.trans {a b c : CallDraft} (hab : SameVerdict a b)
    (hbc : SameVerdict b c) : SameVerdict a c where
  phrase := hbc.phrase.trans hab.phrase
  targetType := hbc.targetType.trans hab.targetType
  targetMethod := hbc.targetMethod.trans hab.targetMethod

/-- Every other field of a call leaves its verdict. -/
theorem sameVerdict_of_describeCall? {label : Label} {value : List Char}
    {c c' : CallDraft} (h : Draft.describeCall? label value c = some c')
    (hother : label ≠ .decision) : SameVerdict c c' := by
  cases label with
  | decision => exact absurd rfl hother
  | reasoning | expected | condition | parameters =>
    cases h
    exact ⟨rfl, rfl, rfl⟩
  | blockTag | description | narrative | calls | call | other => cases h

/-- A classification changes the call that was cited last, and in it what
decides and the reason. -/
theorem read_decision {owner name : String} {d : Draft} {c : CallDraft}
    {rest : List Entry} {line value : List Char} (hpart : d.part = .calls)
    (hentries : d.entries = .kept c :: rest)
    (hlabel : label? line = some (name, value))
    (hname : Label.ofName name = .decision) :
    d.read owner line =
      { d with
        entries := .kept
          { c with
            phrase := (splitReasoning value).1
            reasoning :=
              if (splitReasoning value).2.isEmpty then c.reasoning
              else (splitReasoning value).2 } :: rest } := by
  rw [Draft.read_of_call d hlabel (by rw [hname]; rfl), hname]
  unfold Draft.readCallLine
  rw [hpart, hentries]
  rfl

-- =========================================================== more lines

/-- A verdict is read under its label in each of the three styles, whatever
the reason is. -/
theorem label?_join (style : Style) (sep : Separator) (tag : Decision)
    (reason : List Char) :
    label? (Field.decision.line style (sep.join tag reason)) =
      some ("classification", trim (sep.join tag reason)) := by
  have hspace : trim (' ' :: sep.join tag reason) =
      trim (sep.join tag reason) := rfl
  rw [Field.line, Field.label?_bare, hspace]
  · rfl
  · have hhead : (trimLeft (' ' :: sep.join tag reason)).head? =
        tag.name.toList.head? := by
      cases tag <;> rfl
    rw [hhead]
    cases tag <;> decide

namespace Draft

variable {owner : String} {ys : List Entry} {c : CallDraft}

/-- A line that is no classification leaves the verdict of the call below. -/
theorem read_below_kept {line : List Char} (d : Draft)
    (h : d.entries = [] → d.part = .calls → judges line = false) :
    ∃ c', SameVerdict c c' ∧
      (d.below (.kept c :: ys)).read owner line =
        (d.read owner line).below (.kept c' :: ys) := by
  by_cases hreaches :
      d.entries = [] ∧ d.part = .calls ∧ describes line = true
  · obtain ⟨hnil, hpart, hdescribes⟩ := hreaches
    obtain ⟨name, value, hlabel, hcall⟩ := exists_of_describes hdescribes
    have hother : Label.ofName name ≠ .decision := by
      have hjudges := h hnil hpart
      rw [judges, hlabel] at hjudges
      exact beq_eq_false_iff_ne.1 hjudges
    obtain ⟨c', hdescribe⟩ := Option.isSome_iff_exists.1
      ((isSome_describeCall? (Label.ofName name) value c).trans hcall)
    refine ⟨c', sameVerdict_of_describeCall? hdescribe hother, ?_⟩
    rw [read_of_call _ hlabel hcall, read_of_call _ hlabel hcall]
    unfold readCallLine below
    simp only [hpart, hnil, List.nil_append, hdescribe,
      readUnlabelled_of_label hpart hlabel]
  · refine ⟨c, ⟨rfl, rfl, rfl⟩, read_below d fun hnil hpart hdescribes => ?_⟩
    exact absurd ⟨hnil, hpart, hdescribes⟩ hreaches

/-- No more do any lines up to the next citation, and those after it. -/
theorem foldl_read_kept (lines : List (List Char)) (d : Draft)
    (c : CallDraft)
    (h : d.entries ≠ [] ∨ settled judges d.part lines = true) :
    ∃ c', SameVerdict c c' ∧
      lines.foldl (read owner) (d.below (.kept c :: ys)) =
        (lines.foldl (read owner) d).below (.kept c' :: ys) := by
  induction lines generalizing d c with
  | nil => exact ⟨c, ⟨rfl, rfl, rfl⟩, rfl⟩
  | cons line lines ih =>
    obtain ⟨hline, hrest⟩ := @settled_read owner _ _ _ _ h
    obtain ⟨c', hc', hread⟩ := @read_below_kept owner ys c line d hline
    obtain ⟨c'', hc'', hfold⟩ := ih _ c' hrest
    refine ⟨c'', hc'.trans hc'', ?_⟩
    rw [List.foldl_cons, List.foldl_cons, hread, hfold]

/-- The calls that were kept among some entries. -/
def keptAmong (ys : List Entry) : List CallDraft :=
  keptCalls { title := [], entries := ys }

theorem keptCalls_below (d : Draft) :
    (d.below (.kept c :: ys)).keptCalls =
      keptAmong ys ++ c :: d.keptCalls := by
  simp [keptCalls, below, keptAmong, List.filterMap_append]

/-- The calls of a section with a verdict in it, and no other on the same
call behind that. -/
theorem keptCalls_ofLines {title verdict value : List Char}
    {body back : List (List Char)} {name : String} {earlier : List Entry}
    (hcalls : (ofLines owner title body).part = .calls)
    (htop : (ofLines owner title body).entries = .kept c :: earlier)
    (hlabel : label? verdict = some (name, value))
    (hname : Label.ofName name = .decision)
    (hlast : settled judges .calls back = true) :
    ∃ c' later, c'.phrase = (splitReasoning value).1 ∧
      c'.citation.targetType = c.citation.targetType ∧
      c'.citation.targetMethod = c.citation.targetMethod ∧
      (ofLines owner title (body ++ verdict :: back)).keptCalls =
        keptAmong earlier ++ c' :: later := by
  have hread := @read_decision owner _ _ _ _ _ _ hcalls htop hlabel hname
  have hstart : ofLines owner title (body ++ verdict :: back) =
      back.foldl (read owner)
        ((ofLines owner title body).read owner verdict) :=
    List.foldl_append
  rw [hstart, hread]
  generalize ofLines owner title body = d at hcalls ⊢
  -- What was cited so far is below a draft that has no calls yet.
  let fresh : Draft := { d with entries := [] }
  have hrest : fresh.entries ≠ [] ∨
      settled judges fresh.part back = true := by
    rw [show fresh.part = .calls from hcalls]
    exact .inr hlast
  obtain ⟨c', hc', hfold⟩ := @foldl_read_kept owner earlier back fresh
    { c with
      phrase := (splitReasoning value).1
      reasoning := if (splitReasoning value).2.isEmpty then c.reasoning
        else (splitReasoning value).2 } hrest
  have hkept := (congrArg keptCalls hfold).trans (keptCalls_below _)
  exact ⟨c', _, hc'.phrase, hc'.targetType, hc'.targetMethod, hkept⟩

end Draft

-- ============================================================= replies

/-- In the calls of a block a line gives a verdict on the call that was cited
last, and no line after it gives another one on the same call. -/
structure Judged (owner text : String) (sep : Separator) (tag : Decision)
    (reason : List Char) where
  before : List (List Char)
  heading : List Char
  title : List Char
  /-- The lines of the block in front of the verdict. -/
  body : List (List Char)
  verdict : List Char
  /-- All lines after the verdict. -/
  after : List (List Char)
  /-- The call that was cited last, and what was cited before it. -/
  cited : CallDraft
  earlier : List Entry
  /-- How the verdict is labelled. -/
  name : String
  opens : opensBlock? heading = some title
  noHeading : ∀ line ∈ body, isHeading line = false
  inCalls : (Draft.ofLines owner title body).part = .calls
  onTop : (Draft.ofLines owner title body).entries = .kept cited :: earlier
  label : label? verdict = some (name, trim (sep.join tag reason))
  decides : Label.ofName name = .decision
  last : settled judges .calls (after.takeWhile (!isHeading ·)) = true
  lines : linesOf text = before ++ heading :: (body ++ verdict :: after)

/-- How many calls are cited in front of the one that is judged. -/
def Judged.place {owner text : String} {sep : Separator} {tag : Decision}
    {reason : List Char} (h : Judged owner text sep tag reason) : Nat :=
  ((sections h.before).flatMap fun s =>
      (Draft.ofLines owner s.1 s.2).keptCalls).length +
    (Draft.keptAmong h.earlier).length

/-- What decides about a call is the tag of the last verdict on it, with no
more behind it than the verdict goes on with. The call comes to the decision
of the tag, whatever is said in the reason, if that stands in parentheses or
after a hyphen, or if the tag is that of the unknown; after one of the other
marks it does if nothing in the reason is looked for before the mark. -/
theorem parse_verdict {owner text : String} {sep : Separator}
    {tag : Decision} {reason : List Char}
    (h : Judged owner text sep tag reason)
    (hpresent : ¬∃ names, parse owner text = .absent names) :
    ∃ call, (parse owner text).calls[h.place]? = some call ∧
      call.targetType = h.cited.citation.targetType ∧
      call.targetMethod = h.cited.citation.targetMethod ∧
      (∃ more, more <+: sep.sign ++ sep.behind reason ∧
        call.decision = decisionOf (trim (tag.name.toList ++ more))) ∧
      (sep = .paren ∨ sep = .hyphen ∨ tag = .notFound ∨ sep.Sealed reason →
        call.decision = tag) := by
  obtain ⟨more, hmore, hbegins⟩ := splitReasoning_begins sep tag reason
  obtain ⟨c, later, hphrase, htype, hmethod, hkept⟩ :=
    Draft.keptCalls_ofLines h.inCalls h.onTop h.label h.decides h.last
  have hdecision : ∀ order,
      (c.toCall order).decision = decisionOf c.phrase := by
    intro order
    have hempty : c.phrase.isEmpty = false := by
      rw [hphrase, hbegins]
      exact isEmpty_trim_tag tag more
    simp only [CallDraft.toCall, hempty, Bool.false_eq_true, if_false]
  have hbody : ∀ line ∈ h.body ++ [h.verdict], isHeading line = false := by
    intro line hline
    rcases List.mem_append.1 hline with hline | hline
    · exact h.noHeading line hline
    · rw [List.mem_singleton.1 hline]
      exact isHeading_of_label? h.label
  have hsections := sections_opened h.opens h.before hbody h.after
  simp only [List.append_assoc, List.singleton_append] at hsections
  have hat : (parse owner text).calls[h.place]? =
      some (c.toCall h.place) := by
    rw [calls_of_present hpresent, h.lines, hsections, List.flatMap_append,
      List.flatMap_cons, hkept, List.getElem?_map, List.getElem?_zipIdx]
    simp [Judged.place]
  refine ⟨c.toCall h.place, hat, htype, hmethod, ⟨more, hmore, ?_⟩,
    fun hwhen => ?_⟩
  · rw [hdecision, hphrase, hbegins]
  · rw [hdecision, hphrase]
    exact decisionOf_splitReasoning sep tag reason hwhen

/-- A reply with one call and a verdict on it. -/
def judgedReply (sep : Separator) (tag : Decision) (reason : String) :
    String :=
  "### Block 1\n- Call: `a()`\n" ++
    String.ofList (Field.decision.line .plain (sep.join tag reason.toList))

theorem opens_judgedReply : opensBlock? "### Block 1".toList = some [] := by
  decide

theorem noHeading_judgedReply :
    ∀ line ∈ ["- Call: `a()`".toList], isHeading line = false := by
  decide

/-- A reason that names other decisions, and does not matter. -/
def sealedVerdict : Judged "A"
    (judgedReply .colon .stepInto "a lookup, not external")
    .colon .stepInto "a lookup, not external".toList where
  before := []
  heading := "### Block 1".toList
  title := []
  body := ["- Call: `a()`".toList]
  verdict := Field.decision.line .plain
    (Separator.colon.join .stepInto "a lookup, not external".toList)
  after := []
  cited := { citation := ⟨"A", "a", ""⟩, expected := [] }
  earlier := []
  name := "classification"
  opens := opens_judgedReply
  noHeading := noHeading_judgedReply
  inCalls := by decide
  onTop := by rfl
  label := label?_join .plain _ _ _
  decides := by decide
  last := by decide
  lines := by decide +kernel

/-- A colon before the reason keeps the verdict from it. -/
theorem parse_verdict_colon :
    ∃ call, (parse "A" (judgedReply .colon .stepInto
      "a lookup, not external")).calls[0]? = some call ∧
      call.targetMethod = "a" ∧ call.decision = .stepInto := by
  have hpresent : ¬∃ names, parse "A" (judgedReply .colon .stepInto
      "a lookup, not external") = .absent names := by
    rw [absent_iff]
    decide +kernel
  have hsealed : Separator.colon.Sealed "a lookup, not external".toList := by
    refine ⟨by decide, fun _ front inside heq => ?_⟩
    have hgroup : '(' ∈ front ++ '(' :: (inside ++ [')']) := by simp
    rw [← heq] at hgroup
    exact absurd hgroup (by decide)
  obtain ⟨call, hat, -, hmethod, -, htag⟩ :=
    parse_verdict sealedVerdict hpresent
  exact ⟨call, hat, hmethod, htag (.inr (.inr (.inr hsealed)))⟩

/-- Where the reason has a group at its end, or a mark that is looked for
first, its beginning decides too. -/
theorem verdict_leaks :
    (parse "A" (judgedReply .colon .stepInto
      "does a lookup (cached)")).calls.map (·.decision) =
        [.objectLookup] ∧
    (parse "A" (judgedReply .enDash .stepInto
      "does a lookup - cached")).calls.map (·.decision) =
        [.objectLookup] := by
  constructor
  all_goals decide +kernel

end CallTrace.Reply
