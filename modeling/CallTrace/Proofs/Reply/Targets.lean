/-
The targets that are read from a reply.

A citation may stand after a label or at a bullet, between backticks or
alone, but whatever is read as one stands on one line of the reply. So it
is a citation of the grammar: its method is an identifier, and its type is
one as well, or the type that owns the code. The lines that describe a
call afterwards change neither of the two, and no other step of reading
does.

Names of that form are worth a request, as long as they are not too long.
-/
import CallTrace.Proofs.Reply.Grammar
import CallTrace.Proofs.Reply.Outcome
import CallTrace.Proofs.Text.Lines
import CallTrace.Proofs.Text.Pattern
import CallTrace.Source.TypeName

namespace CallTrace.Reply

open Text

-- ============================================== what stands on a line

section

variable {line value citation rest : List Char} {name : String}

theorem trimOf_subset (p : Char → Bool) (cs : List Char) :
    trimOf p cs ⊆ cs := by
  obtain ⟨front, tail, hcs, -, -⟩ := trimOf_append p cs
  intro c hc
  rw [hcs]
  simp [hc]

/-- A line without its bullet is an end of the line. -/
theorem dropBullet_suffix (line : List Char) : dropBullet line <:+ line := by
  have hleft : trimLeft line <:+ line := List.dropWhile_suffix _
  unfold dropBullet
  dsimp only
  split
  · rename_i c b rest hcs
    split
    · rw [hcs] at hleft
      apply (List.dropWhile_suffix _).trans
      exact (List.suffix_cons c _).trans hleft
    · exact hleft
  · exact hleft

theorem dropOne_suffix (p : Char → Bool) (cs : List Char) :
    dropOne p cs <:+ cs := by
  unfold dropOne
  split
  · split
    · exact List.suffix_cons _ _
    · exact List.suffix_rfl
  · exact List.suffix_rfl

/-- The value of a bold label is an end of the line. -/
theorem boldLabel?_suffix {label : List Char}
    (h : boldLabel? line = some (label, value)) : value <:+ line := by
  unfold boldLabel? at h
  split at h
  · rename_i rest hline
    have hrest : rest <:+ line := by
      apply List.IsSuffix.trans _ (hline ▸ dropBullet_suffix line)
      exact (List.suffix_cons _ _).trans (List.suffix_cons _ _)
    split at h
    · rename_i c label after hspan
      rw [List.span_eq_takeWhile_dropWhile, Prod.mk.injEq] at hspan
      have hafter : after <:+ rest := by
        apply List.IsSuffix.trans _ (hspan.2 ▸ List.dropWhile_suffix _)
        exact (List.suffix_cons _ _).trans (List.suffix_cons _ _)
      obtain ⟨-, rfl⟩ := Prod.mk.inj (Option.some.inj h)
      apply (List.dropWhile_suffix _).trans
      apply (dropOne_suffix _ _).trans
      exact (List.dropWhile_suffix _).trans (hafter.trans hrest)
    · cases h
  · cases h

/-- The value of a plain label is an end of the line. -/
theorem plainLabel?_suffix {label : List Char}
    (h : plainLabel? line = some (label, value)) : value <:+ line := by
  obtain ⟨w, -, hread⟩ := List.exists_of_findSome?_eq_some h
  simp only [Option.bind_eq_bind, Option.bind_eq_some_iff] at hread
  obtain ⟨after, hafter, hmark⟩ := hread
  have hsuffix : after <:+ line :=
    ((Pattern.advances_caseless w).after? hafter).trans (dropBullet_suffix _)
  split at hmark
  · rename_i more hcolon
    obtain ⟨-, rfl⟩ := Prod.mk.inj (Option.some.inj hmark)
    apply (List.dropWhile_suffix _).trans
    apply (List.suffix_cons ':' _).trans
    rw [← hcolon]
    exact (List.dropWhile_suffix _).trans hsuffix
  · cases hmark

/-- The value after a label stands on the label's line. -/
theorem label?_subset (h : label? line = some (name, value)) :
    value ⊆ line := by
  simp only [label?, Option.bind_eq_bind, Option.bind_eq_some_iff,
    Option.some.injEq, Prod.mk.injEq] at h
  obtain ⟨⟨label, after⟩, hlabel, -, rfl⟩ := h
  have hsuffix : after <:+ line := by
    rcases Option.or_eq_some_iff.1 hlabel with hbold | ⟨-, hplain⟩
    · exact boldLabel?_suffix hbold
    · exact plainLabel?_suffix hplain
  exact List.Subset.trans (trimOf_subset _ _) hsuffix.subset

/-- What is found between backticks stands in the text. -/
theorem inBackticks_subset {cs inside : List Char}
    (h : inside ∈ inBackticks cs) : inside ⊆ cs := by
  have hgo : ∀ n cs, inside ∈ inBackticks.go n cs → inside ⊆ cs := by
    intro n
    induction n with
    | zero => intro cs h; cases h
    | succ n ih =>
      intro cs h
      cases cs with
      | nil => cases h
      | cons c rest =>
        have hrest : inside ∈ inBackticks.go n rest → inside ⊆ c :: rest :=
          fun h => List.Subset.trans (ih rest h) (List.subset_cons_self _ _)
        rw [inBackticks.go] at h
        split at h
        · split at h
          · rename_i found d after hspan
            rw [List.span_eq_takeWhile_dropWhile, Prod.mk.injEq] at hspan
            split at h
            · exact hrest h
            · rcases List.mem_cons.1 h with rfl | h
              · apply List.Subset.trans _ (List.subset_cons_self _ _)
                rw [← hspan.1]
                exact (List.takeWhile_prefix _).subset
              · apply List.Subset.trans (ih after h)
                apply List.Subset.trans _ (List.subset_cons_self _ _)
                apply List.Subset.trans (List.subset_cons_self d _)
                rw [← hspan.2]
                exact (List.dropWhile_suffix _).subset
          · cases h
        · exact hrest h
  exact hgo _ cs h

/-- The citation at a bullet stands on the bullet's line. -/
theorem bulletCitation?_subset
    (h : bulletCitation? line = some (citation, rest)) :
    citation ⊆ line := by
  have hleft : trimLeft line <:+ line := List.dropWhile_suffix _
  unfold bulletCitation? at h
  split at h
  · rename_i c b more hcs
    rw [hcs] at hleft
    split at h
    · split at h
      · rename_i t body hbody
        have hsuffix : body <:+ line := by
          apply (List.suffix_cons t _).trans
          rw [← hbody]
          apply (List.dropWhile_suffix _).trans
          exact (List.suffix_cons c _).trans hleft
        split at h
        · split at h
          · rename_i d inside e after hspan
            rw [List.span_eq_takeWhile_dropWhile, Prod.mk.injEq] at hspan
            have hcited : d :: inside ⊆ line := by
              rw [← hspan.1]
              exact List.Subset.trans (List.takeWhile_prefix _).subset
                hsuffix.subset
            split at h
            · cases h
              exact hcited
            · split at h
              · cases h
                exact hcited
              · cases h
          · cases h
        · cases h
      · cases h
    · cases h
  · cases h

end

-- ============================================================= targets

/-- The method is an identifier, and the type is one too or the owner. -/
structure Aimed (owner typeName method : String) : Prop where
  method : isIdent method.toList = true
  typeName : typeName = owner ∨ isIdent typeName.toList = true

variable {owner : String}

/-- A written reference is aimed at what it cites. -/
theorem Written.Reference.aimed (r : Written.Reference) (owner : String) :
    Aimed owner (r.citation owner).targetType
      (r.citation owner).targetMethod where
  method := by
    show isIdent (String.ofList r.method.text).toList = true
    rw [String.toList_ofList]
    exact r.method.isIdent
  typeName := by
    show r.receiver.target owner = owner ∨
      isIdent (r.receiver.target owner).toList = true
    unfold Written.Receiver.target
    split
    · exact .inl rfl
    · rename_i p _
      dsimp only
      split
      · exact .inl rfl
      · refine .inr ?_
        rw [String.toList_ofList]
        exact p.last.isIdent

/-- A citation on one line goes to a target of the right form. -/
theorem aimed_of_read? {cs : List Char} {c : Citation} (hline : '\n' ∉ cs)
    (h : Citation.read? owner cs = some c) :
    Aimed owner c.targetType c.targetMethod := by
  obtain ⟨r, -, rfl⟩ :=
    exists_reference (fun hmem => hline (bare_subset cs hmem)) h
  exact r.aimed owner

-- ============================================================== drafts

namespace Draft

/-- All calls that were kept so far go to targets of the right form. -/
def Aimed (owner : String) (d : Draft) : Prop :=
  ∀ c, .kept c ∈ d.entries →
    Reply.Aimed owner c.citation.targetType c.citation.targetMethod

namespace Aimed

variable {d d' : Draft} {line value citation : List Char}

/-- What keeps the entries keeps their targets. -/
theorem of_entries (h : d.Aimed owner) (hentries : d'.entries = d.entries) :
    d'.Aimed owner := by
  intro c hc
  exact h c (hentries ▸ hc)

/-- A citation on one line adds an entry that is aimed. -/
theorem cite (h : d.Aimed owner) (hline : '\n' ∉ citation)
    (expected : List Char) : (d.cite owner citation expected).Aimed owner := by
  intro c hc
  rcases List.mem_cons.1 hc with hnew | hold
  · cases hread : Citation.read? owner citation with
    | none => rw [hread] at hnew; cases hnew
    | some found =>
      rw [hread] at hnew
      cases hnew
      exact aimed_of_read? hline hread
  · exact h c hold

/-- A line without a label keeps the entries aimed. -/
theorem readUnlabelled (h : d.Aimed owner) (hline : '\n' ∉ line) :
    (d.readUnlabelled owner line).Aimed owner := by
  unfold Draft.readUnlabelled
  split
  · split
    · rename_i citation rest hbullet
      exact h.cite (fun hmem => hline (bulletCitation?_subset hbullet hmem)) _
    · exact h
  all_goals
    unfold narrate
    split
    · exact h
    · exact h.of_entries rfl

/-- No field of a call changes where it goes. -/
theorem describeCall {label : Label} {c c' : CallDraft}
    (h : describeCall? label value c = some c') :
    c'.citation.targetType = c.citation.targetType ∧
      c'.citation.targetMethod = c.citation.targetMethod := by
  unfold describeCall? at h
  split at h
  case h_6 => cases h
  all_goals
    obtain rfl := Option.some.inj h
    exact ⟨rfl, rfl⟩

/-- A line about a call keeps the entries aimed. -/
theorem readCallLine (h : d.Aimed owner) (hline : '\n' ∉ line)
    (label : Label) (value : List Char) :
    (d.readCallLine owner label value line).Aimed owner := by
  unfold Draft.readCallLine
  split
  · exact h
  · rename_i c rest _ hentries
    split
    · rename_i c' hdescribe
      obtain ⟨htype, hmethod⟩ := describeCall hdescribe
      intro x hx
      rcases List.mem_cons.1 hx with hnew | hold
      · cases hnew
        rw [htype, hmethod]
        exact h c (hentries ▸ List.mem_cons_self)
      · exact h x (hentries ▸ List.mem_cons_of_mem _ hold)
    · exact h.readUnlabelled hline
  · exact h.readUnlabelled hline

/-- Every line keeps the entries aimed. -/
theorem read (h : d.Aimed owner) (hline : '\n' ∉ line) :
    (Draft.read owner d line).Aimed owner := by
  unfold Draft.read
  cases hlabel : label? line with
  | none => exact h.readUnlabelled hline
  | some found =>
    obtain ⟨name, value⟩ := found
    have hvalue : '\n' ∉ value := fun hmem => hline (label?_subset hlabel hmem)
    dsimp only
    split
    · exact h.of_entries rfl
    · exact h.of_entries rfl
    · exact h.of_entries rfl
    · exact h.of_entries rfl
    · -- The citation is the first text between backticks, or all there is.
      have hcalls : ({ d with part := .calls } : Draft).Aimed owner :=
        h.of_entries rfl
      apply hcalls.cite
      cases hticks : (inBackticks value).head? with
      | none => exact hvalue
      | some inside =>
        have hinside := inBackticks_subset (List.mem_of_mem_head? hticks)
        exact fun hmem => hvalue (hinside hmem)
    · exact h.readCallLine hline _ value

end Aimed

end Draft

/-- A section that is read line by line is aimed. -/
theorem aimed_ofLines (owner : String) (title : List Char)
    {body : List (List Char)} (hbody : ∀ line ∈ body, '\n' ∉ line) :
    (Draft.ofLines owner title body).Aimed owner := by
  have hfold : ∀ d : Draft, d.Aimed owner →
      (body.foldl (Draft.read owner) d).Aimed owner := by
    induction body with
    | nil => exact fun d hd => hd
    | cons line body ih =>
      intro d hd
      apply ih fun l hl => hbody l (List.mem_cons_of_mem _ hl)
      exact hd.read (hbody line List.mem_cons_self)
  apply hfold
  intro c hc
  cases hc

-- ============================================================= replies

/-- The calls of a reply go to targets of the right form. -/
theorem aimed_parse (owner text : String) :
    ∀ c ∈ (parse owner text).calls,
      Aimed owner c.targetType c.targetMethod := by
  intro c hc
  obtain ⟨⟨title, body⟩, hsection, x, n, hkept, rfl⟩ :=
    exists_kept_of_mem_calls hc
  have hbody : ∀ line ∈ body, '\n' ∉ line := fun line hline =>
    sep_not_mem_of_mem_splitOn (mem_of_mem_sections hsection hline)
  exact aimed_ofLines owner title hbody x hkept

-- ======================================================== plausibility

/-- An identifier is a qualified name of one part. -/
theorem allIdents_segments {cs : List Char} (h : isIdent cs = true) :
    allIdents (segments cs) = true := by
  have hsegments : segments cs = [cs] := by
    have hgo : segmentsBy.go false [] (cs ++ []) =
        segmentsBy.go false (cs.reverse ++ []) [] :=
      segments_go_append (fun c hc => isIdentRest_of_mem h hc) [] []
    simpa [segments, segmentsBy, segmentsBy.go] using hgo
  rw [hsegments]
  simpa [allIdents] using h

/-- In the code of a type that may be asked about, a target of the right
form is worth a request just when neither of its names is too long. -/
theorem Aimed.isPlausible_iff {typeName method : String}
    (h : Aimed owner typeName method) {m : String}
    (howner : Source.isPlausible owner m = true) :
    Source.isPlausible typeName method = true ↔
      typeName.length ≤ Source.maxNameLength ∧
        method.length ≤ Source.maxNameLength := by
  rw [Source.isPlausible_iff]
  constructor
  · intro ⟨htype, hmethod, _⟩
    exact ⟨htype.2, hmethod.2⟩
  intro ⟨htype, hmethod⟩
  have hnonempty : ∀ {name : String}, isIdent name.toList = true →
      0 < name.length := by
    intro name hident
    rw [← String.length_toList]
    exact List.length_pos_iff.2 (isIdent_ne_nil hident)
  have hform : 0 < typeName.length ∧
      upToFinalBreak (fun cs => allIdents (segments cs)) typeName.toList =
        true := by
    rcases h.typeName with rfl | hident
    · obtain ⟨hlength, -, hname, -⟩ := Source.isPlausible_iff.1 howner
      exact ⟨hlength.1, hname⟩
    · exact ⟨hnonempty hident, upToFinalBreak_of (allIdents_segments hident)⟩
  exact ⟨⟨hform.1, htype⟩, ⟨hnonempty h.method, hmethod⟩, hform.2,
    upToFinalBreak_of h.method⟩

end CallTrace.Reply
