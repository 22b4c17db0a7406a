/-
The lines under a block's heading are read as the block.

One line of the layout changes the draft in one way: a label fills in its
field, a step goes on with the narrative, a blank line does nothing. So a
call's lines add one entry to the list of calls, and all lines together
give a draft with everything that was written, from which the block is
built.
-/
import CallTrace.Proofs.Reply.Citation
import CallTrace.Proofs.Reply.Labels
import CallTrace.Proofs.Text.Lines

namespace CallTrace.Reply

open Text Written

-- ======================================================= closed sets

theorem decisionOf_name (d : Decision) : decisionOf d.name.toList = d := by
  cases d <;> decide +kernel

theorem blockKindOf_name (k : BlockKind) (hasCalls : Bool) :
    blockKindOf k.name.toList hasCalls = k := by
  cases k <;> cases hasCalls <;> decide

/-- The reason is everything between the first parenthesis and the last
one. -/
theorem reasonInParens?_tag (tag : Decision) (reason : List Char) :
    reasonInParens? (tag.name.toList ++ (" (".toList ++ (reason ++ [')']))) =
      some (tag.name.toList, trim reason) := by
  have hspan : ∀ rest : List Char,
      (tag.name.toList ++ (" (".toList ++ rest)).span
        (fun c => !(c == '(' || isDash c)) =
          (tag.name.toList ++ [' '], '(' :: rest) := by
    intro rest
    cases tag <;> rfl
  have hphrase : trim (tag.name.toList ++ [' ']) = tag.name.toList := by
    cases tag <;> decide
  have hback : (reason ++ [')']).reverse = ')' :: reason.reverse := by
    simp
  rw [reasonInParens?, hspan]
  simp only [hback, hphrase, List.reverse_reverse]

namespace Written.Call

variable (c : Call)

theorem head?_verdict : ∃ d, c.verdict.head? = some d ∧
    isBlank d = false ∧ d ≠ ':' := by
  have hname : ∃ d rest, c.decision.name.toList = d :: rest ∧
      isBlank d = false ∧ d ≠ ':' := by
    cases c.decision <;> exact ⟨_, _, rfl, by decide, by decide⟩
  obtain ⟨d, rest, hd, hblank, hcolon⟩ := hname
  exact ⟨d, by rw [verdict, hd]; rfl, hblank, hcolon⟩

theorem trim_verdict : trim c.verdict = c.verdict := by
  refine trimOf_eq_self_iff.2 ⟨fun e he => ?_, fun e he => ?_⟩
  · obtain ⟨d, hd, hblank, -⟩ := c.head?_verdict
    obtain rfl : d = e := Option.some.inj (hd.symm.trans he)
    exact hblank
  · simp only [verdict, ← List.append_assoc, List.getLast?_concat] at he
    obtain rfl : ')' = e := Option.some.inj he
    decide

theorem splitReasoning_verdict :
    splitReasoning c.verdict =
      (c.decision.name.toList, c.reasoning.text) := by
  have hreason : reasonInParens? c.verdict =
      some (c.decision.name.toList, c.reasoning.text) := by
    rw [verdict, reasonInParens?_tag, c.reasoning.trimmed]
  simp only [splitReasoning, c.trim_verdict, hreason]

-- ============================================================ a call

/-- What is kept of the call while the section is read. -/
def draft (owner : String) : CallDraft where
  citation := c.cited.citation owner
  phrase := c.decision.name.toList
  reasoning := c.reasoning.text
  expected := c.expected.text
  condition := c.condition.map (·.text)

/-- The call is built from what is kept of it. -/
theorem toCall_draft (owner : String) (order : Nat) :
    (c.draft owner).toCall order = c.site owner order := by
  have hphrase : c.decision.name.toList.isEmpty = false := by
    cases c.decision <;> rfl
  have hexpected : c.expected.text.isEmpty = false := by
    simpa using c.expected.nonempty
  have hcondition : ((c.condition.map (·.text)).filter
      (!·.isEmpty)).map String.ofList =
        c.condition.map fun r => String.ofList r.text := by
    cases c.condition with
    | none => rfl
    | some r =>
      simp [r.nonempty]
  simp only [draft, CallDraft.toCall, site, hphrase, hexpected, hcondition,
    decisionOf_name, Cited.citation, Bool.false_eq_true, if_false]

end Written.Call

-- =============================================================== drafts

/-- Without backticks nothing stands between them. -/
theorem inBackticks_go_of_not_mem {cs : List Char} (h : backtick ∉ cs)
    (n : Nat) : inBackticks.go n cs = [] := by
  induction cs generalizing n with
  | nil => cases n <;> rfl
  | cons c rest ih =>
    obtain ⟨hc, hrest⟩ := not_or.1 fun hc => h (List.mem_cons.2 hc)
    cases n with
    | zero => rfl
    | succ n =>
      rw [inBackticks.go, if_neg (by simpa using Ne.symm hc), ih hrest]

/-- A text without backticks does not hide what stands between later ones.
-/
theorem inBackticks_append {front : List Char} (h : backtick ∉ front)
    (cs : List Char) : inBackticks (front ++ cs) = inBackticks cs := by
  induction front with
  | nil => rfl
  | cons c front ih =>
    obtain ⟨hc, hfront⟩ := not_or.1 fun hc => h (List.mem_cons.2 hc)
    rw [List.cons_append, inBackticks, List.length_cons, inBackticks.go,
      if_neg (by simpa using Ne.symm hc)]
    exact ih hfront

/-- What stands between the only two backticks is found there. -/
theorem inBackticks_quoted {cs after : List Char} (hne : cs ≠ [])
    (h : backtick ∉ cs) (hafter : backtick ∉ after) :
    inBackticks (backtick :: (cs ++ backtick :: after)) = [cs] := by
  have hspan : (cs ++ backtick :: after).span (· != backtick) =
      (cs, backtick :: after) := by
    refine span_append (fun d hd => ?_) fun d hd => ?_
    · simpa using fun heq : d = backtick => h (heq ▸ hd)
    · obtain rfl : backtick = d := Option.some.inj hd
      decide
  have hempty : cs.isEmpty = false := by simp [hne]
  rw [inBackticks, List.length_cons, inBackticks.go,
    if_pos (beq_self_eq_true backtick)]
  simp only [hspan, hempty, Bool.false_eq_true, if_false,
    inBackticks_go_of_not_mem hafter]

namespace Draft

variable {owner : String} (d : Draft) (f : Field) (s : Style)

-- ========================================================= single lines

theorem read_step (x : Step) (hpart : d.part = .narrative) :
    d.read owner x.text = { d with narrative := x.text :: d.narrative } := by
  have hempty : (trim x.text).isEmpty = false := by
    rw [x.trimmed]
    simpa using x.nonempty
  rw [read, x.noLabel]
  simp only [readUnlabelled, hpart, narrate, hempty, Bool.false_eq_true,
    if_false, trimRight_of_trim x.trimmed]

/-- A blank line says nothing in any part of a section. -/
theorem read_blank : d.read owner [] = d := by
  have hlabel : label? [] = none := by decide
  rw [read, hlabel]
  cases hpart : d.part <;> simp only [readUnlabelled, hpart] <;> rfl

/-- The line of a kind tags the block. -/
theorem read_kind (k : BlockKind) :
    d.read owner (Field.kind.line s k.name.toList) =
      { d with tag := k.name.toList } := by
  have htrim : trim k.name.toList = k.name.toList := by
    cases k <;> decide
  have hcolon : k.name.toList.head? ≠ some ':' := by
    cases k <;> decide
  rw [read, Field.label?_line _ s htrim hcolon]
  simp only [Field.ofName_name, Field.label]

theorem read_description (v : Value) :
    d.read owner (Field.description.line s v.text) =
      { d with description := v.text } := by
  rw [read, Field.label?_line _ s v.trimmed v.opening]
  simp only [Field.ofName_name, Field.label]

theorem read_narrative :
    d.read owner (Field.narrative.bare s) =
      { d with part := .narrative } := by
  rw [read, Field.label?_alone]
  simp only [Field.ofName_name, Field.label, List.isEmpty_nil, if_true]

theorem read_calls :
    d.read owner (Field.calls.bare s) = { d with part := .calls } := by
  rw [read, Field.label?_alone]
  simp only [Field.ofName_name, Field.label]

/-- The line of a call cites it, as a new entry. -/
theorem read_cited (c : Cited) :
    d.read owner
        (Field.call.line s (backtick :: (c.text ++ [backtick]))) =
      { d with
        part := .calls
        entries := .kept
          { citation := c.citation owner, expected := [] } :: d.entries } := by
  have htrim : trim (backtick :: (c.text ++ [backtick])) =
      backtick :: (c.text ++ [backtick]) := by
    refine trimOf_eq_self_iff.2 ⟨fun e he => ?_, fun e he => ?_⟩
    · obtain rfl : backtick = e := Option.some.inj he
      decide
    · rw [← List.cons_append, List.getLast?_concat] at he
      obtain rfl : backtick = e := Option.some.inj he
      decide
  have hcolon : (backtick :: (c.text ++ [backtick])).head? ≠ some ':' := by
    simp [backtick]
  have hquoted := inBackticks_quoted c.text_ne_nil c.backtick_not_mem
    List.not_mem_nil
  rw [read, Field.label?_line _ s htrim hcolon]
  simp only [Field.ofName_name, Field.label, hquoted, List.head?_cons,
    Option.getD_some, cite, c.read?_text]
  rfl

/-- A field of the call that was cited last. -/
theorem read_field {c c' : CallDraft} {rest : List Entry}
    {value : List Char} (hpart : d.part = .calls)
    (hentries : d.entries = .kept c :: rest)
    (htrim : trim value = value) (hcolon : value.head? ≠ some ':')
    (h : describeCall? f.label value c = some c') :
    d.read owner (f.line s value) =
      { d with entries := .kept c' :: rest } := by
  rw [read, Field.label?_line _ s htrim hcolon]
  simp only [Field.ofName_name]
  cases f with
  | decision | expected | condition =>
    simp only [Field.label] at h ⊢
    simp only [readCallLine, hpart, hentries, h]
  | kind | description | narrative | calls | call => cases h

/-- The lines of a call add the call to the list. -/
theorem foldl_read_call (c : Call) :
    c.lines.foldl (read owner) d =
      { d with
        part := .calls
        entries := .kept (c.draft owner) :: d.entries } := by
  have hdecision : ∀ x : CallDraft, x.reasoning = [] →
      describeCall? Field.decision.label c.verdict x =
        some { x with
          phrase := c.decision.name.toList
          reasoning := c.reasoning.text } := by
    intro x hx
    simp only [Field.label, describeCall?, c.splitReasoning_verdict, hx]
    split
    · rename_i hempty
      rw [List.isEmpty_iff.1 hempty]
    · rfl
  have hcolon : c.verdict.head? ≠ some ':' := by
    obtain ⟨e, he, -, hne⟩ := c.head?_verdict
    simpa [he] using hne
  rw [Call.lines, List.foldl_append]
  simp only [List.foldl_cons, List.foldl_nil]
  rw [read_cited,
    read_field _ .decision _ rfl rfl c.trim_verdict hcolon
      (hdecision _ rfl),
    read_field _ .expected _ rfl rfl c.expected.trimmed c.expected.opening
      rfl]
  cases hcondition : c.condition with
  | none => simp [Call.draft, hcondition]
  | some r =>
    simp only [Option.toList_some, List.map_cons, List.map_nil,
      List.foldl_cons, List.foldl_nil]
    rw [read_field _ .condition _ rfl rfl r.trimmed r.opening rfl]
    simp [Call.draft, hcondition]

/-- The lines of several calls add them in order. -/
theorem foldl_read_calls (cs : List Call) (hpart : d.part = .calls) :
    (cs.flatMap (·.lines)).foldl (read owner) d =
      { d with
        entries := (cs.map fun c => .kept (c.draft owner)).reverse ++
          d.entries } := by
  induction cs generalizing d with
  | nil => rfl
  | cons c cs ih =>
    rw [List.flatMap_cons, List.foldl_append, foldl_read_call, ih _ rfl]
    simp [hpart]

/-- Steps go on with the narrative. -/
theorem foldl_read_steps (xs : List Step) (hpart : d.part = .narrative) :
    (xs.map (·.text)).foldl (read owner) d =
      { d with narrative := (xs.map (·.text)).reverse ++ d.narrative } := by
  induction xs generalizing d with
  | nil => rfl
  | cons x xs ih =>
    rw [List.map_cons, List.foldl_cons, read_step d x hpart,
      ih { d with narrative := x.text :: d.narrative } hpart]
    simp

end Draft

namespace Written.Section

variable (s : Section) (owner : String)

-- ============================================================= sections

/-- What is kept of the section once it is read. -/
def draft : Draft where
  title := s.title.text
  tag := s.kind.name.toList
  description := s.description.text
  narrative := (s.steps.map (·.text)).reverse
  entries := (s.calls.map fun c => .kept (c.draft owner)).reverse
  part := if s.calls.isEmpty && !s.announced then .narrative else .calls

/-- What is kept before the calls are read. -/
theorem foldl_read_opening :
    s.opening.foldl (Draft.read owner) { title := s.title.text } =
      { s.draft owner with entries := [], part := .narrative } := by
  rw [opening, List.foldl_append, List.foldl_append]
  simp only [List.foldl_cons, List.foldl_nil]
  rw [Draft.read_kind, Draft.read_description, Draft.read_blank,
    Draft.read_narrative, Draft.foldl_read_steps _ _ rfl, Draft.read_blank]
  simp [draft]

/-- The body of a written section is read as the draft of that section. -/
theorem ofLines_body :
    Draft.ofLines owner s.title.text s.body = s.draft owner := by
  rw [Draft.ofLines, body, List.foldl_append, foldl_read_opening, closing]
  split
  · rename_i hnone
    have hcalls : s.calls = [] := by
      rw [Bool.and_eq_true] at hnone
      exact List.isEmpty_iff.1 hnone.1
    rw [draft, if_pos hnone, hcalls]
    rfl
  · rename_i hsome
    rw [List.cons_append, List.foldl_cons, Draft.read_calls,
      List.foldl_append, Draft.foldl_read_calls _ _ rfl, List.foldl_cons,
      List.foldl_nil, Draft.read_blank, List.append_nil]
    simp only [draft, if_neg hsome]

theorem keptCalls_draft :
    (s.draft owner).keptCalls = s.calls.map (·.draft owner) := by
  simp only [Draft.keptCalls, draft, List.reverse_reverse,
    List.filterMap_map]
  exact congrFun List.filterMap_eq_map' s.calls

/-- A narrative that is put together from steps has no blanks around it, and
says something. -/
theorem trim_joinWith {xs : List Step} (hne : xs ≠ []) :
    trim (joinWith ['\n'] (xs.map (·.text))) =
        joinWith ['\n'] (xs.map (·.text)) ∧
      joinWith ['\n'] (xs.map (·.text)) ≠ [] := by
  have hends : ∀ x : Step, (∀ c ∈ x.text.head?, isBlank c = false) ∧
      ∀ c ∈ x.text.getLast?, isBlank c = false :=
    fun x => trimOf_eq_self_iff.1 x.trimmed
  induction xs with
  | nil => exact absurd rfl hne
  | cons x xs ih =>
    cases xs with
    | nil =>
      rw [List.map_singleton, joinWith, List.intercalate_singleton]
      exact ⟨x.trimmed, x.nonempty⟩
    | cons y xs =>
      obtain ⟨htrim, hrest⟩ := ih (by simp)
      rw [List.map_cons, joinWith_cons (by simp)]
      refine ⟨trimOf_eq_self_iff.2 ⟨?_, ?_⟩, by simp⟩
      · rw [List.append_assoc, List.head?_append_of_ne_nil _ x.nonempty]
        exact (hends x).1
      · rw [List.getLast?_append_of_ne_nil _ hrest]
        exact (trimOf_eq_self_iff.1 htrim).2

/-- The block is built from what is kept of its section. -/
theorem toBlock_draft (index order : Nat) :
    (s.draft owner).toBlock index order = s.block owner index order := by
  obtain ⟨htrim, hne⟩ := trim_joinWith s.nonempty
  have hkept : (s.draft owner).keptCalls.zipIdx.map
      (fun e => e.1.toCall (order + e.2)) =
        s.calls.zipIdx.map fun e => e.1.site owner (order + e.2) := by
    rw [keptCalls_draft, List.zipIdx_map, List.map_map]
    exact List.map_congr_left fun e _ => e.1.toCall_draft owner _
  have hcalls : ((s.draft owner).toBlock index order).calls =
      (s.block owner index order).calls := hkept
  have hfirst : ∀ (cs : List Char) (more : List (List Char))
      (last : String), cs ≠ [] →
        firstNonempty (cs :: more) last = String.ofList cs := by
    intro cs more last hcs
    simp [firstNonempty, hcs]
  have hnarrative : trim (joinWith ['\n']
      (s.draft owner).narrative.reverse) =
        joinWith ['\n'] (s.steps.map (·.text)) := by
    rw [draft, List.reverse_reverse, htrim]
  refine (Block.mk.injEq ..).mpr ⟨rfl, ?_, ?_, ?_, hcalls, rfl⟩
  · exact blockKindOf_name _ _
  · exact hfirst _ _ _ s.title.nonempty
  · rw [hnarrative, hfirst _ _ _ hne]

end Written.Section

end CallTrace.Reply
