/-
The texts of a block are trimmed.

Whatever a reply looks like, the description and the narrative of each of
its blocks are not empty, and neither begins nor ends with a blank. The
pieces of which they are made were trimmed when their lines were read, and
what stands in for a missing one is trimmed as well.

It matters when texts are put together. Where the outermost ends are no
blanks, trimming the whole takes nothing away.
-/
import CallTrace.Proofs.Reply.Labels
import CallTrace.Proofs.Reply.Outcome
import CallTrace.Proofs.Text.Blank

namespace CallTrace

-- ================================================================ ends

namespace Text

/-- The text begins with something that is no blank. -/
def Begins (s : String) : Prop :=
  ∃ c rest, s.toList = c :: rest ∧ isBlank c = false

/-- The text ends with something that is no blank. -/
def Ends (s : String) : Prop :=
  ∃ front c, s.toList = front ++ [c] ∧ isBlank c = false

/-- There is something in the text, and nothing to trim. -/
structure Tidy (s : String) : Prop where
  begins : Begins s
  ends : Ends s

variable {s sep : String} {ss : List String} {cs : List Char}

theorem Begins.append (h : Begins s) (t : String) : Begins (s ++ t) := by
  obtain ⟨c, rest, hs, hc⟩ := h
  exact ⟨c, rest ++ t.toList, by rw [String.toList_append, hs]; rfl, hc⟩

theorem Ends.append {t : String} (s : String) (h : Ends t) :
    Ends (s ++ t) := by
  obtain ⟨front, c, ht, hc⟩ := h
  exact ⟨s.toList ++ front, c,
    by rw [String.toList_append, ht, List.append_assoc], hc⟩

theorem Begins.intercalate (h : Begins s) (sep : String)
    (ss : List String) : Begins (sep.intercalate (s :: ss)) := by
  cases ss with
  | nil => rwa [String.intercalate_singleton]
  | cons t ss =>
    rw [String.intercalate_cons_cons]
    exact (h.append sep).append _

/-- Where all pieces end well, the whole does. -/
theorem ends_intercalate (hne : ss ≠ []) (h : ∀ s ∈ ss, Ends s) :
    Ends (sep.intercalate ss) := by
  induction ss with
  | nil => exact absurd rfl hne
  | cons s ss ih =>
    cases ss with
    | nil =>
      rw [String.intercalate_singleton]
      exact h s List.mem_cons_self
    | cons t ss =>
      rw [String.intercalate_cons_cons]
      exact (ih (by simp) fun s hs => h s (List.mem_cons_of_mem _ hs)).append _

theorem Tidy.trim_eq (h : Tidy s) : trim s.toList = s.toList := by
  obtain ⟨⟨c, rest, hbegins, hc⟩, front, d, hends, hd⟩ := h
  refine trimOf_eq_self_iff.2 ⟨?_, ?_⟩
  · rw [hbegins]
    simpa using hc
  · rw [hends]
    simpa using hd

/-- A trimmed text with something in it is tidy. -/
theorem tidy_of_trim (htrim : trim cs = cs) (hne : cs ≠ []) :
    Tidy (String.ofList cs) := by
  obtain ⟨hhead, hlast⟩ := trimOf_eq_self_iff.1 htrim
  constructor
  · cases cs with
    | nil => exact absurd rfl hne
    | cons c rest => exact ⟨c, rest, String.toList_ofList, hhead c rfl⟩
  · rcases List.eq_nil_or_concat cs with rfl | ⟨front, c, rfl⟩
    · exact absurd rfl hne
    · exact ⟨front, c, by rw [String.toList_ofList, List.concat_eq_append],
        hlast c (by simp)⟩

/-- A text that was trimmed is not changed by trimming it again. -/
theorem trim_trim (cs : List Char) : trim (trim cs) = trim cs := by
  have hleft : ∀ c ∈ (trimLeft cs).head?, isBlank c = false := by
    refine trimLeftOf_eq_self_iff.1 (List.dropWhile_eq_self_iff.2 ?_)
    intro h
    have hdrop := List.dropWhile_get_zero_not isBlank cs h
    rw [Bool.not_eq_true] at hdrop ⊢
    exact hdrop
  refine trimOf_eq_self_iff.2 ⟨fun c hc => ?_, ?_⟩
  · -- What is left of the text begins as it did before its end was cut.
    obtain ⟨tail, htail, -⟩ := trimRightOf_append isBlank (trimLeft cs)
    refine hleft c ?_
    rw [htail]
    exact List.mem_head?_append_of_mem_head? hc
  · exact trimRightOf_eq_self_iff.1 (List.rdropWhile_idempotent _ _)

end Text

-- =============================================================== drafts

namespace Reply

open Text

/-- The title and the description of a section are trimmed. -/
structure Draft.Trimmed (d : Draft) : Prop where
  title : trim d.title = d.title
  description : trim d.description = d.description

namespace Draft.Trimmed

variable {d : Draft} {owner : String}

/-- What keeps the title and the description keeps them trimmed. -/
theorem of_eq {d' : Draft} (h : d.Trimmed) (htitle : d'.title = d.title)
    (hdescription : d'.description = d.description) : d'.Trimmed :=
  ⟨by rw [htitle, h.title], by rw [hdescription, h.description]⟩

/-- A line without a label keeps the draft trimmed. -/
theorem readUnlabelled (h : d.Trimmed) (line : List Char) :
    (d.readUnlabelled owner line).Trimmed := by
  rw [Draft.readUnlabelled]
  split
  · split
    · exact h.of_eq rfl rfl
    · exact h
  all_goals
    rw [narrate]
    split
    · exact h
    · exact h.of_eq rfl rfl

/-- A line about a call keeps the draft trimmed. -/
theorem readCallLine (h : d.Trimmed) (label : Label)
    (value line : List Char) :
    (d.readCallLine owner label value line).Trimmed := by
  rw [Draft.readCallLine]
  split
  · exact h
  · split
    · exact h.of_eq rfl rfl
    · exact h.readUnlabelled line
  · exact h.readUnlabelled line

/-- Every line keeps the draft trimmed. -/
theorem read (h : d.Trimmed) (line : List Char) :
    (Draft.read owner d line).Trimmed := by
  rw [Draft.read]
  cases hlabel : label? line with
  | none => exact h.readUnlabelled line
  | some found =>
    obtain ⟨name, value⟩ := found
    have hvalue : trim value = value := by
      simp only [label?, Option.bind_eq_bind, Option.bind_eq_some_iff,
        Option.some.injEq, Prod.mk.injEq] at hlabel
      obtain ⟨_, _, _, rfl⟩ := hlabel
      exact trim_trim _
    dsimp only
    split
    · exact h.of_eq rfl rfl
    · exact ⟨h.title, hvalue⟩
    · exact h.of_eq rfl rfl
    · exact h.of_eq rfl rfl
    · exact h.of_eq rfl rfl
    · exact h.readCallLine _ value line

end Draft.Trimmed

/-- A section is read into a trimmed draft. -/
theorem trimmed_ofLines (owner : String) {title : List Char}
    (htitle : trim title = title) (body : List (List Char)) :
    (Draft.ofLines owner title body).Trimmed := by
  have hbody : ∀ d : Draft, d.Trimmed →
      (body.foldl (Draft.read owner) d).Trimmed := by
    induction body with
    | nil => exact fun d hd => hd
    | cons line body ih => exact fun d hd => ih _ (hd.read line)
  exact hbody _ ⟨htitle, rfl⟩

-- =============================================================== blocks

/-- The texts of a block that was read from a reply. -/
structure TidyBlock (b : Block) : Prop where
  description : Tidy b.description
  narrative : Tidy b.narrative

/-- The first text that is not empty is tidy, and so is what stands in for
it. -/
theorem tidy_firstNonempty {choices : List (List Char)} {last : String}
    (hchoices : ∀ cs ∈ choices, trim cs = cs) (hlast : Tidy last) :
    Tidy (firstNonempty choices last) := by
  rw [firstNonempty]
  cases hfind : choices.find? (!·.isEmpty) with
  | none => exact hlast
  | some cs =>
    refine tidy_of_trim (hchoices cs (List.mem_of_find?_eq_some hfind)) ?_
    simpa using List.find?_some hfind

/-- The name of a block by its number is tidy. -/
theorem tidy_numberedName (n : Nat) : Tidy ("Block " ++ toString n) where
  begins := by
    have hblock : Begins "Block " := ⟨'B', "lock ".toList, rfl, by decide⟩
    exact hblock.append _
  ends := by
    refine Ends.append _ ?_
    have hne : (toString n).toList ≠ [] := by
      rw [Nat.toString_eq_repr, Nat.toList_repr]
      exact Nat.toDigits_ne_nil
    refine ⟨_, _, (List.dropLast_append_getLast hne).symm, ?_⟩
    exact isBlank_of_isDigit (isDigit_of_mem_toString (List.getLast_mem hne))

/-- A trimmed draft makes a tidy block. -/
theorem tidy_toBlock {d : Draft} (h : d.Trimmed) (index order : Nat) :
    TidyBlock (d.toBlock index order) where
  description := by
    refine tidy_firstNonempty ?_ (tidy_numberedName _)
    simpa using ⟨h.title, h.description⟩
  narrative := by
    refine tidy_firstNonempty ?_ ?_
    · simpa using ⟨trim_trim _, h.description⟩
    · exact ⟨⟨'N', _, rfl, by decide⟩,
        ⟨"No execution flow documente".toList, 'd', by decide, by decide⟩⟩

/-- Trimmed drafts make tidy blocks. -/
theorem tidy_numberBlocks {drafts : List Draft}
    (h : ∀ d ∈ drafts, d.Trimmed) :
    ∀ index order, ∀ b ∈ numberBlocks index order drafts, TidyBlock b := by
  induction drafts with
  | nil => exact fun _ _ b hb => absurd hb List.not_mem_nil
  | cons d rest ih =>
    intro index order b hb
    rcases List.mem_cons.1 hb with rfl | hb
    · exact tidy_toBlock (h d List.mem_cons_self) index order
    · exact ih (fun d hd => h d (List.mem_cons_of_mem _ hd)) _ _ b hb

/-- The blocks of a reply have tidy texts. -/
theorem tidy_parse (owner text : String) :
    ∀ b ∈ (parse owner text).blocks, TidyBlock b := by
  intro b hb
  rw [parse] at hb
  split at hb
  · exact absurd hb (by simp [blocks])
  split at hb
  · exact absurd hb (by simp [blocks])
  have hdrafts : ∀ d ∈ (sections (splitOn '\n' (unifyPairs text.toList))).map
      fun s => Draft.ofLines owner s.1 s.2, d.Trimmed := by
    intro d hd
    obtain ⟨⟨title, body⟩, hmem, rfl⟩ := List.mem_map.1 hd
    refine trimmed_ofLines owner ?_ body
    have htitle : title ∈ titles (splitOn '\n' (unifyPairs text.toList)) := by
      rw [← map_fst_sections]
      exact List.mem_map_of_mem hmem
    obtain ⟨line, -, hopens⟩ := List.mem_filterMap.1 htitle
    simp only [opensBlock?, Option.bind_eq_bind, Option.bind_eq_some_iff,
      Option.some.injEq] at hopens
    obtain ⟨_, _, _, _, rfl⟩ := hopens
    exact trim_trim _
  -- The links change neither of the texts.
  have hpair := List.mem_map_of_mem (f := fun b : Block =>
    (b.description, b.narrative)) hb
  dsimp only [blocks] at hpair
  rw [map_linkBlocks (fun _ _ => rfl)] at hpair
  obtain ⟨b', hb', htexts⟩ := List.mem_map.1 hpair
  obtain ⟨hdescription, hnarrative⟩ := Prod.mk.inj htexts
  have htidy := tidy_numberBlocks hdrafts 0 0 b' hb'
  exact ⟨hdescription ▸ htidy.description, hnarrative ▸ htidy.narrative⟩

end Reply

end CallTrace
