/-
Headers that name supertypes in clauses.

A header says what a type extends and what it implements, in two clauses or
in one after a colon; the type and all names in the clauses may have type
arguments. What is read of such a header are the names as they stand in it.
That no name is taken for a word of the header, and no word for a name, is
read off the runs of the header: in a list of names they are the names.
-/
import CallTrace.Proofs.Source.Declared
import CallTrace.Proofs.Source.Generics

namespace CallTrace.Source

open Text Text.Pattern

-- ===================================================== written clauses

/-- Type arguments, without their brackets. -/
structure Arguments where
  text : List Char
  balanced : anglesAfter? 0 text = some 0
  oneLine : '\n' ∉ text
  unbraced : '\x7b' ∉ text

/-- The arguments in their brackets, if there are any. -/
def group : Option Arguments → List Char
  | some args => '<' :: (args.text ++ ['>'])
  | none => []

/-- The words that a header is read by. -/
def clauseWords : List (List Char) :=
  ["extends", "implements", "with", "where"].map String.toList

/-- A type that is named in a clause. -/
structure Base where
  type : Dotted
  args : Option Arguments := none
  unreserved : ∀ w ∈ type.words, w.text ∉ clauseWords

def Base.text (b : Base) : List Char := b.type.text ++ group b.args

/-- A clause that names at least one type. -/
def clause (lead : String) (names : List (List Char)) : List Char :=
  if names.isEmpty then [] else lead.toList ++ joinWith comma names

/-- What a header says of the types above its own. -/
inductive Clauses where
  | listed (extended implemented : List Base)
  | afterColon (bases : List Base)

namespace Clauses

def bases : Clauses → List Base
  | listed extended implemented => extended ++ implemented
  | afterColon bases => bases

/-- The clauses, with a text for each of the types. -/
def textBy (f : Base → List Char) : Clauses → List Char
  | listed extended implemented =>
    clause " extends " (extended.map f) ++
      clause " implements " (implemented.map f)
  | afterColon bases => clause " : " (bases.map f)

def text (cl : Clauses) : List Char := cl.textBy Base.text

end Clauses

-- ====================================================== without arguments

theorem strips_arguments (args : Option Arguments) : Strips (group args) [] := by
  cases args with
  | none => exact strips_of_not_mem List.not_mem_nil
  | some args => exact strips_group args.balanced

theorem Base.strips_text (b : Base) : Strips b.text b.type.text := by
  have htype : Strips b.type.text b.type.text :=
    strips_of_not_mem (b.type.not_mem_text (by decide))
  have hgroup := htype.append (strips_arguments b.args)
  rwa [List.append_nil] at hgroup

theorem strips_clause {lead : String} (hlead : '<' ∉ lead.toList)
    (bases : List Base) : Strips (clause lead (bases.map Base.text))
      (clause lead (bases.map (·.type.text))) := by
  cases bases with
  | nil => exact strips_of_not_mem List.not_mem_nil
  | cons b bases =>
    exact (strips_of_not_mem hlead).append
      (.joinWith (by decide) fun b _ => b.strips_text)

theorem Clauses.strips_text (cl : Clauses) :
    Strips cl.text (cl.textBy (·.type.text)) := by
  cases cl with
  | listed extended implemented =>
    exact (strips_clause (by decide) extended).append
      (strips_clause (by decide) implemented)
  | afterColon bases => exact strips_clause (by decide) bases

-- ===================================================== lists of names

/-- The names of a list, without their arguments. -/
def listText (bases : List Base) : List Char :=
  joinWith comma (bases.map (·.type.text))

/-- In a list no word of a header stands alone. -/
theorem not_mem_runs_listText {w : List Char} (hw : w ∈ clauseWords)
    (bases : List Base) : w ∉ runs (listText bases) := by
  have hne : w ≠ [] := by
    rintro rfl
    exact absurd hw (by decide)
  intro h
  have hcomma : ∀ c ∈ comma, isWord c = false := forall_mem_of_all (by decide)
  have hdot : ∀ c ∈ ['.'], isWord c = false := forall_mem_of_all (by decide)
  obtain ⟨l, hl, h⟩ :=
    (mem_runs_joinWith (by decide) hcomma h).resolve_left hne
  obtain ⟨b, -, rfl⟩ := List.mem_map.1 hl
  obtain ⟨l, hl, h⟩ :=
    (mem_runs_joinWith (by decide) hdot h).resolve_left hne
  obtain ⟨word, hword, rfl⟩ := List.mem_map.1 hl
  rw [runs_of_word word.solid, List.mem_singleton] at h
  exact b.unreserved word hword (h ▸ hw)

/-- A list of bases is split into their names, whatever blanks follow it.
-/
theorem splitNames_listText_append (bases : List Base) {tail : List Char}
    (htail : ∀ c ∈ tail, isBlank c = true) :
    splitNames (listText bases ++ tail) =
      bases.map (·.type.name.text) := by
  have hcomma : ∀ l ∈ bases.map (·.type.text), ',' ∉ l := by
    intro l hl
    obtain ⟨b, -, rfl⟩ := List.mem_map.1 hl
    exact b.type.not_mem_text (by decide)
  have hnames := flatMap_splitNames (bases.map (·.type))
  rw [List.map_map, List.map_map] at hnames
  rw [listText, splitNames_joinWith hcomma htail]
  exact hnames

theorem splitNames_listText (bases : List Base) :
    splitNames (listText bases) = bases.map (·.type.name.text) := by
  have hnames := splitNames_listText_append bases
    (List.forall_mem_nil (isBlank · = true))
  rwa [List.append_nil] at hnames

theorem listText_ne_nil {bases : List Base} (hne : bases ≠ []) :
    listText bases ≠ [] := by
  obtain ⟨b, bases, rfl⟩ := List.exists_cons_of_ne_nil hne
  exact joinWith_ne_nil b.type.text_ne_nil

theorem trim_listText (bases : List Base) :
    trim (listText bases) = listText bases := by
  refine trim_joinWith fun l hl => ?_
  obtain ⟨b, -, rfl⟩ := List.mem_map.1 hl
  exact ⟨b.type.text_ne_nil, b.type.trim_text⟩

/-- A list begins with what is not blank, whatever follows it. -/
theorem isBlank_head_listText {bases : List Base} (hne : bases ≠ [])
    (tail : List Char) :
    ∀ c ∈ (listText bases ++ tail).head?, isBlank c = false := by
  rw [List.head?_append_of_ne_nil _ (listText_ne_nil hne)]
  exact (trimOf_eq_self_iff.1 (trim_listText bases)).1

/-- Blanks around a list with something in front of it are cut off. -/
theorem trim_lead {bases : List Base} (hne : bases ≠ []) {front : List Char}
    {c : Char} (hfront : front.head? = some c) (hc : isBlank c = false) :
    trim (' ' :: (front ++ listText bases) ++ [' ']) =
      front ++ listText bases := by
  have htrim : trim (front ++ listText bases) = front ++ listText bases := by
    refine trimOf_eq_self_iff.2 ⟨fun d hd => ?_, ?_⟩
    · rw [List.head?_append, hfront] at hd
      obtain rfl := Option.some.inj hd
      exact hc
    · rw [List.getLast?_append_of_ne_nil _ (listText_ne_nil hne)]
      exact (trimOf_eq_self_iff.1 (trim_listText bases)).2
  have hleft : ∀ cs, trim (' ' :: cs) = trim cs := fun _ => rfl
  rw [trim, trimOf_append_of_all (forall_mem_of_all (by decide))]
  exact (hleft _).trans htrim

-- ============================================================ reading

section Reading

variable {stop : Pattern} {w : String} {ends : List String}
  {body front tail : List Char}

/-- A clause goes on to the first place where a word ends it. -/
theorem upTo_append (hne : body ≠ [])
    (h : startsIn stop none body tail = false)
    (hstop : tail = [] ∨ stop ⟨body.getLast?, tail⟩ ≠ []) :
    upTo stop (body ++ tail) = body := by
  have hgo : ∀ {before xs}, startsIn stop before xs tail = false →
      (tail = [] ∨ stop ⟨xs.getLast?.or before, tail⟩ ≠ []) →
        upTo.go stop before (xs ++ tail) = xs := by
    intro before xs h hstop
    induction xs generalizing before with
    | nil =>
      rcases hstop with rfl | hstop
      · rfl
      · rw [List.nil_append]
        cases tail with
        | nil => rfl
        | cons c tail =>
          rw [upTo.go, if_neg]
          simpa using hstop
    | cons c xs ih =>
      rw [startsIn, Bool.or_eq_false_iff, Bool.not_eq_false'] at h
      rw [getLast?_cons_or] at hstop
      rw [List.cons_append, upTo.go, if_pos h.1, ih h.2 hstop]
  cases body with
  | nil => exact absurd rfl hne
  | cons c body =>
    rw [startsIn, Bool.or_eq_false_iff] at h
    rw [← Option.or_none (o := (c :: body).getLast?), getLast?_cons_or]
      at hstop
    rw [List.cons_append, upTo, hgo h.2 hstop]

/-- A word and the space behind it, in front of a list. -/
theorem toList_append_of_space {lead w : String}
    (h : lead.toList = w.toList ++ [' ']) (rest : List Char) :
    lead.toList ++ rest = w.toList ++ ' ' :: rest := by
  rw [h, List.append_assoc, List.singleton_append]

/-- Which words can lead a clause or end one. -/
theorem isWord_lead (hw : w.toList ∈ clauseWords) :
    w.toList ≠ [] ∧ ∀ c ∈ w.toList, isWord c = true := by
  have hall : ∀ w ∈ clauseWords, w ≠ [] ∧ w.all isWord = true := by decide
  obtain ⟨hne, hword⟩ := hall _ hw
  exact ⟨hne, List.all_eq_true.1 hword⟩

theorem clause?_eq_none (hw : w.toList ∈ clauseWords)
    (h : w.toList ∉ runs body) : clause? w ends body = none := by
  obtain ⟨hne, hword⟩ := isWord_lead hw
  have hnone : find? (all [boundary, word w, blanks1]) body = none :=
    (findsWord_blanks1 hne hword).find?_eq_none hne hword h
  rw [clause?, hnone]

/-- A clause is found behind its word, and ends before the next one. -/
theorem clause?_append (hw : w.toList ∈ clauseWords)
    (hfront : w.toList ∉ runs front)
    (hlast : front.getLast?.any isWord = false) (hne : body ≠ [])
    (hbody : ∀ c ∈ body.head?, isBlank c = false) :
    clause? w ends (front ++ (w.toList ++ ' ' :: body)) =
      some (upTo (any (ends.map alone)) body) := by
  obtain ⟨hwne, hword⟩ := isWord_lead hw
  have hstart : startsIn (all [boundary, word w, blanks1]) none front
      (w.toList ++ ' ' :: body) = false :=
    startsIn_of_runs (findsWord_blanks1 hwne hword) hword
      ⟨fun h => hfront (List.mem_of_mem_tail h), fun _ => hfront⟩ (.inl hlast)
  have hmatch : all [boundary, word w, blanks1]
      ⟨front.getLast?.or none, w.toList ++ ' ' :: body⟩ =
        [⟨some ' ', body⟩] := by
    rw [word, seq_boundary_literal hwne hword (by simpa using hlast), all,
      seq_of_eq (blanks1_space hbody)]
    rfl
  rw [clause?, find?, findAt?_append hstart, findAt?_of_match hmatch]
  simp [hne]

/-- No word that ends a clause is found where none is a run. -/
theorem startsIn_ends (h : ∀ w ∈ ends, w.toList ∈ clauseWords ∧
    w.toList ∉ runs body) (hend : body.getLast?.any isWord = false ∨
      tail.head?.any isWord = false) :
    startsIn (any (ends.map alone)) none body tail = false := by
  refine startsIn_any fun a ha => ?_
  obtain ⟨w, hw, rfl⟩ := List.mem_map.1 ha
  obtain ⟨hclause, hruns⟩ := h w hw
  obtain ⟨hne, hword⟩ := isWord_lead hclause
  exact startsIn_of_runs (findsWord_boundary hne hword) hword
    ⟨fun h => hruns (List.mem_of_mem_tail h), fun _ => hruns⟩ hend

end Reading

section Headers

variable {bases : List Base} (hne : bases ≠ [])

include hne

/-- The clause after `extends` ends at the end, or before `implements`. -/
theorem clause?_extends {tail : List Char}
    (htail : tail = [] ∨ ∃ more, tail = " implements ".toList ++ more) :
    (clause? "extends" ["implements", "with"]
      ("extends ".toList ++ (listText bases ++ tail))).map splitNames =
        some (bases.map (·.type.name.text)) := by
  have hclause : clause? "extends" ["implements", "with"]
      ([] ++ ("extends".toList ++ ' ' :: (listText bases ++ tail))) =
        some (upTo (any (["implements", "with"].map alone))
          (listText bases ++ tail)) :=
    clause?_append (by decide) (by decide) rfl
      (List.append_ne_nil_of_left_ne_nil (listText_ne_nil hne) tail)
      (isBlank_head_listText hne tail)
  have hends : ∀ w ∈ ["implements", "with"], w.toList ∈ clauseWords := by
    decide
  have hruns : ∀ w ∈ ["implements", "with"],
      w.toList ∉ runs (listText bases) :=
    fun w hw => not_mem_runs_listText (hends w hw) bases
  have hlead : "extends ".toList ++ (listText bases ++ tail) =
      [] ++ ("extends".toList ++ ' ' :: (listText bases ++ tail)) :=
    toList_append_of_space (by decide) _
  rw [hlead, hclause, Option.map_some, Option.some.injEq]
  rcases htail with rfl | ⟨more, rfl⟩
  · have hstart : startsIn (any (["implements", "with"].map alone)) none
        (listText bases) [] = false :=
      startsIn_ends (fun w hw => ⟨hends w hw, hruns w hw⟩) (.inr rfl)
    rw [upTo_append (listText_ne_nil hne) hstart (.inl rfl),
      splitNames_listText]
  · -- The space in front of the next word belongs to the clause.
    have hspace : listText bases ++ (" implements ".toList ++ more) =
        (listText bases ++ [' ']) ++ ("implements".toList ++ ' ' :: more) := by
      simp
    have hspaced : ∀ w ∈ ["implements", "with"],
        w.toList ∉ runs (listText bases ++ [' ']) := by
      intro w hw
      refine not_mem_runs_append rfl (hruns w hw) ?_
      revert w
      decide
    have hstart : startsIn (any (["implements", "with"].map alone)) none
        (listText bases ++ [' ']) ("implements".toList ++ ' ' :: more) =
          false := by
      refine startsIn_ends (fun w hw => ⟨hends w hw, hspaced w hw⟩) (.inl ?_)
      rw [List.getLast?_concat]
      rfl
    have hword : isWord 's' = true := by decide
    have hstop : alone "implements" ⟨some ' ',
        "implements".toList ++ ' ' :: more⟩ = [⟨some 's', ' ' :: more⟩] := by
      rw [alone, word,
        seq_boundary_literal (by decide) (forall_mem_of_all (by decide)) rfl]
      exact (seq_of_eq (boundary_of_isWord hword _)).trans rfl
    rw [hspace, upTo_append (by simp) hstart (.inr ?_)]
    · exact splitNames_listText_append bases (forall_mem_of_all (by decide))
    · rw [List.getLast?_concat]
      exact List.ne_nil_of_mem
        (mem_any.2 ⟨_, .head _, hstop ▸ List.mem_singleton_self _⟩)

/-- The clause after `implements` ends at the end. -/
theorem clause?_implements {front : List Char}
    (hfront : "implements".toList ∉ runs front)
    (hlast : front.getLast?.any isWord = false) :
    (clause? "implements" ["extends"] (front ++
      ("implements ".toList ++ listText bases))).map splitNames =
        some (bases.map (·.type.name.text)) := by
  have hclause : clause? "implements" ["extends"]
      (front ++ ("implements".toList ++ ' ' :: listText bases)) =
        some (upTo (any (["extends"].map alone)) (listText bases)) :=
    clause?_append (by decide) hfront hlast (listText_ne_nil hne)
      (by simpa using isBlank_head_listText hne [])
  have hends : ∀ w ∈ ["extends"], w.toList ∈ clauseWords := by decide
  have hstart : startsIn (any (["extends"].map alone)) none
      (listText bases) [] = false :=
    startsIn_ends (fun w hw => ⟨hends w hw, not_mem_runs_listText (hends w hw)
      bases⟩) (.inr rfl)
  have hall := upTo_append (listText_ne_nil hne) hstart (.inl rfl)
  have hlead : "implements ".toList ++ listText bases =
      "implements".toList ++ ' ' :: listText bases :=
    toList_append_of_space (by decide) _
  rw [List.append_nil] at hall
  rw [hlead, hclause, hall, Option.map_some, splitNames_listText]

end Headers

-- ============================================================ headers

/-- A header that opens no parenthesis is read by its clauses. -/
theorem namesOfHeader_of_head {header : List Char} {c : Char}
    (h : header.head? = some c) (hc : c ≠ '(') :
    namesOfHeader header = namesOfClauses header := by
  obtain ⟨rest, rfl⟩ := List.head?_eq_some_iff.1 h
  unfold namesOfHeader
  split
  · rename_i heq
    exact absurd (List.cons.inj heq).1 hc
  · rfl

/-- With a clause after `extends` there is none after a colon. -/
theorem namesOfClauses_of_extends {header : List Char}
    {names : List (List Char)}
    (h : (clause? "extends" ["implements", "with"] header).map splitNames =
      some names) :
    namesOfClauses header = names ++
      ((clause? "implements" ["extends"] header).map splitNames).getD [] := by
  obtain ⟨text, htext, rfl⟩ := Option.map_eq_some_iff.1 h
  unfold namesOfClauses
  simp [htext]

/-- Without a clause of what is extended, the names are those of what is
implemented. -/
theorem namesOfClauses_of_none {header : List Char}
    (h : clause? "extends" ["implements", "with"] header = none)
    (hcolon : header.head? ≠ some ':') :
    namesOfClauses header =
      ((clause? "implements" ["extends"] header).map splitNames).getD [] := by
  unfold namesOfClauses
  simp only [h]
  split
  · exact absurd rfl hcolon
  · simp

theorem namesOfClauses_of_colon {rest : List Char}
    (hextends : clause? "extends" ["implements", "with"] (':' :: rest) = none)
    (himplements : clause? "implements" ["extends"] (':' :: rest) = none) :
    namesOfClauses (':' :: rest) =
      if (trimLeft rest).isEmpty then []
      else splitNames (beforeWhere (trimLeft rest)) := by
  unfold namesOfClauses
  simp [hextends, himplements]

theorem beforeWhere_listText (bases : List Base) :
    beforeWhere (listText bases) = listText bases := by
  have hwhere : " where ".toList = ' ' :: ("where".toList ++ [' ']) := rfl
  have hword : ∀ c ∈ "where".toList, isWord c = true :=
    forall_mem_of_all (by decide)
  rw [beforeWhere, hwhere, cutAtText?_of_not_mem_runs hword rfl rfl
    (not_mem_runs_listText (by decide) bases)]

/-- What is read of both clauses are the names of both lists. -/
theorem namesOfHeader_extends {bases : List Base} (hne : bases ≠ [])
    (implemented : List Base) :
    namesOfHeader ("extends ".toList ++ (listText bases ++
      clause " implements " (implemented.map (·.type.text)))) =
        (bases ++ implemented).map (·.type.name.text) := by
  have hlist : "implements".toList ∉ runs (listText bases) :=
    not_mem_runs_listText (by decide) bases
  have hruns : ∀ {rest}, "implements".toList ∉ runs rest →
      "implements".toList ∉ runs ("extends ".toList ++ rest) := by
    intro rest hrest
    have hlead : "extends ".toList ++ rest =
        "extends".toList ++ ' ' :: rest :=
      toList_append_of_space (by decide) rest
    rw [hlead]
    exact not_mem_runs_append rfl (by decide) hrest
  have hhead : ∀ rest, ("extends ".toList ++ rest).head? = some 'e' :=
    fun _ => rfl
  rw [List.map_append]
  by_cases himp : implemented = []
  · subst himp
    have hextends := clause?_extends hne (.inl rfl)
    have himplements : clause? "implements" ["extends"]
        ("extends ".toList ++ (listText bases ++ [])) = none :=
      clause?_eq_none (by decide) (hruns (by simpa using hlist))
    have hnone : clause " implements "
        (([] : List Base).map (·.type.text)) = [] := rfl
    rw [hnone, namesOfHeader_of_head (hhead _) (by decide),
      namesOfClauses_of_extends hextends, himplements]
    rfl
  · have hclause : clause " implements "
        (implemented.map (·.type.text)) =
          " implements ".toList ++ listText implemented :=
      if_neg (by simpa using himp)
    have hspaced : "implements".toList ∉ runs (listText bases ++ [' ']) :=
      not_mem_runs_append rfl hlist (by decide)
    have hextends := clause?_extends hne (.inr ⟨listText implemented, rfl⟩)
    have himplements := clause?_implements himp (hruns hspaced)
      (by rw [← List.append_assoc, List.getLast?_concat]; rfl)
    have hheader : "extends ".toList ++ (listText bases ++ [' ']) ++
        ("implements ".toList ++ listText implemented) =
          "extends ".toList ++ (listText bases ++
            (" implements ".toList ++ listText implemented)) := by simp
    rw [hheader] at himplements
    rw [hclause, namesOfHeader_of_head (hhead _) (by decide),
      namesOfClauses_of_extends hextends, himplements, Option.getD_some]

/-- What is implemented is told where nothing is extended. -/
theorem namesOfHeader_implements {bases : List Base} (hne : bases ≠ []) :
    namesOfHeader ("implements ".toList ++ listText bases) =
      bases.map (·.type.name.text) := by
  have hlead : "implements ".toList ++ listText bases =
      "implements".toList ++ ' ' :: listText bases :=
    toList_append_of_space (by decide) _
  have hextends : clause? "extends" ["implements", "with"]
      ("implements ".toList ++ listText bases) = none := by
    refine clause?_eq_none (by decide) ?_
    rw [hlead]
    exact not_mem_runs_append rfl (by decide)
      (not_mem_runs_listText (by decide) bases)
  have himplements : (clause? "implements" ["extends"]
      ([] ++ ("implements ".toList ++ listText bases))).map splitNames =
        some (bases.map (·.type.name.text)) :=
    clause?_implements hne (by decide) rfl
  rw [List.nil_append] at himplements
  have hhead : ("implements ".toList ++ listText bases).head? = some 'i' :=
    rfl
  rw [namesOfHeader_of_head hhead (by decide), namesOfClauses_of_none hextends
    (by simp), himplements, Option.getD_some]

/-- What follows a colon is told. -/
theorem namesOfHeader_colon {bases : List Base} (hne : bases ≠ []) :
    namesOfHeader (": ".toList ++ listText bases) =
      bases.map (·.type.name.text) := by
  have hnone : ∀ {w ends}, w.toList ∈ clauseWords →
      w.toList ∉ runs [':'] →
        clause? w ends ([':'] ++ ' ' :: listText bases) = none :=
    fun hw hcolon => clause?_eq_none hw
      (not_mem_runs_append rfl hcolon (not_mem_runs_listText hw bases))
  have hrest : trimLeft (' ' :: listText bases) = listText bases :=
    trimLeft_of_trim (trim_listText bases)
  have hclauses : namesOfClauses (':' :: ' ' :: listText bases) =
      if (trimLeft (' ' :: listText bases)).isEmpty then []
      else splitNames (beforeWhere (trimLeft (' ' :: listText bases))) :=
    namesOfClauses_of_colon (hnone (by decide) (by decide))
      (hnone (by decide) (by decide))
  rw [hrest, if_neg (by simpa using listText_ne_nil hne),
    beforeWhere_listText, splitNames_listText] at hclauses
  exact hclauses

/-- A header is read as the names in its clauses. -/
theorem namesOfHeader_textBy (cl : Clauses) :
    namesOfHeader (trim (cl.textBy (·.type.text) ++ [' '])) =
      cl.bases.map (·.type.name.text) := by
  have hclause : ∀ lead {bases : List Base}, bases ≠ [] →
      clause lead (bases.map (·.type.text)) =
        lead.toList ++ listText bases :=
    fun lead bases hne => if_neg (by simpa using hne)
  have hnone : ∀ lead, clause lead
      (([] : List Base).map (·.type.text)) = [] := fun _ => rfl
  have hextends : " extends ".toList = ' ' :: "extends ".toList := rfl
  cases cl with
  | listed extended implemented =>
    rw [Clauses.textBy, Clauses.bases]
    by_cases hext : extended = []
    · subst hext
      by_cases himp : implemented = []
      · subst himp
        rfl
      · have himplements : " implements ".toList =
            ' ' :: "implements ".toList := rfl
        rw [hnone, hclause _ himp, himplements, List.nil_append,
          List.cons_append, trim_lead himp rfl (by decide : isBlank 'i' = false),
          namesOfHeader_implements himp, List.nil_append]
    · have hnames := namesOfHeader_extends hext implemented
      by_cases himp : implemented = []
      · subst himp
        rw [hnone, List.append_nil] at hnames
        rw [hclause _ hext, hnone, hextends, List.append_nil, List.cons_append,
          trim_lead hext rfl (by decide : isBlank 'e' = false), hnames]
      · have hfront : ("extends ".toList ++ (listText extended ++
            " implements ".toList)).head? = some 'e' := rfl
        have htrim := trim_lead himp hfront (by decide)
        simp only [List.append_assoc, List.cons_append] at htrim
        rw [hclause _ himp] at hnames
        rw [hclause _ hext, hclause _ himp, hextends]
        simp only [List.append_assoc, List.cons_append]
        rw [htrim, hnames]
  | afterColon bases =>
    by_cases hne : bases = []
    · subst hne
      rfl
    · have hcolon : " : ".toList = ' ' :: ": ".toList := rfl
      rw [Clauses.textBy, Clauses.bases, hclause _ hne, hcolon,
        List.cons_append, trim_lead hne rfl (by decide : isBlank ':' = false),
        namesOfHeader_colon hne]

-- ========================================================= declarations

/-- What stands between the name of a type and its body. -/
def header (args : Option Arguments) (cl : Clauses) : List Char :=
  group args ++ (cl.text ++ [' '])

section Declarations

variable (d : Declared) (args : Option Arguments) (cl : Clauses)

/-- A header is one line without braces. -/
theorem not_mem_header {c : Char} (hc : c = '\x7b' ∨ c = '\n') :
    c ∉ header args cl := by
  have hgroup : ∀ args, c ∉ group args := by
    rintro (_ | args)
    · exact List.not_mem_nil
    · have htext : c ∉ args.text := by
        rcases hc with rfl | rfl
        · exact args.unbraced
        · exact args.oneLine
      rcases hc with rfl | rfl <;> simp [group, htext]
  have hclause : ∀ {lead : String} (bases : List Base), c ∉ lead.toList →
      c ∉ clause lead (bases.map Base.text) := by
    intro lead bases hlead h
    rw [clause] at h
    split at h
    · cases h
    · refine (List.mem_append.1 h).elim hlead fun h => ?_
      rcases mem_of_mem_joinWith h with h | ⟨l, hl, h⟩
      · rcases hc with rfl | rfl <;> exact absurd h (by decide)
      · obtain ⟨b, -, rfl⟩ := List.mem_map.1 hl
        refine (List.mem_append.1 h).elim ?_ (hgroup b.args)
        rcases hc with rfl | rfl <;> exact b.type.not_mem_text (by decide)
  have hlead : ∀ lead ∈ [" extends ", " implements ", " : "],
      c ∉ lead.toList := by
    rcases hc with rfl | rfl <;> decide
  have htext : c ∉ cl.text := by
    cases cl with
    | listed extended implemented =>
      exact fun h => (List.mem_append.1 h).elim
        (hclause _ (hlead _ (by simp))) (hclause _ (hlead _ (by simp)))
    | afterColon bases => exact hclause _ (hlead _ (by simp))
  have hspace : c ≠ ' ' := by
    rcases hc with rfl | rfl <;> decide
  simp [header, hgroup, htext, hspace]

/-- A name does not go on in its header. -/
theorem isWord_head_header (rest : List Char) :
    (header args cl ++ rest).head?.any isWord = false := by
  have hclause : ∀ (lead : String) {names : List (List Char)},
      clause lead names = [] ∨
        ∃ more, clause lead names = lead.toList ++ more := by
    intro lead names
    rw [clause]
    split
    · exact .inl rfl
    · exact .inr ⟨_, rfl⟩
  have htext : cl.text = [] ∨ ∃ more, cl.text = ' ' :: more := by
    cases cl with
    | listed extended implemented =>
      rw [Clauses.text, Clauses.textBy]
      rcases hclause " extends " with hext | ⟨more, hext⟩ <;> rw [hext]
      · rcases hclause " implements " with himp | ⟨more, himp⟩ <;> rw [himp]
        · exact .inl rfl
        · exact .inr ⟨_, rfl⟩
      · exact .inr ⟨_, rfl⟩
    | afterColon bases =>
      rcases hclause " : " with h | ⟨more, h⟩
      · exact .inl h
      · exact .inr ⟨_, h⟩
  cases args with
  | some args => rfl
  | none =>
    rcases htext with h | ⟨more, h⟩ <;> rw [header, h] <;> rfl

/-- A type whose header has clauses is told to have the types that they
name above it, those that it extends before those that it implements. -/
theorem supertypes_clauses {before body : List Char}
    (h : d.Fresh before (header args cl ++ '\x7b' :: body)) :
    supertypes (String.ofList (before ++ (d.text ++
      (header args cl ++ '\x7b' :: body)))) (String.ofList d.name) =
        namesTold (String.ofList d.name)
          (cl.bases.map (·.type.name.text)) := by
  obtain ⟨k, e, hfind, hrest⟩ := d.find?_text h (isWord_head_header args cl _)
  have hstrips : Strips (header args cl)
      (cl.textBy (·.type.text) ++ [' ']) :=
    (strips_arguments args).append
      (cl.strips_text.append (strips_of_not_mem (by decide)))
  have hheader : headerOf e.rest = header args cl := by
    rw [hrest]
    exact headerOf_append (not_mem_header args cl (.inl rfl))
      (not_mem_header args cl (.inr rfl)) (.inl rfl)
  rw [supertypes_of_declared (by simpa using hfind), hheader,
    hstrips.stripGenerics, namesOfHeader_textBy]

end Declarations

def cartArguments : Arguments where
  text := "T extends Map<K, V>".toList
  balanced := by decide
  oneLine := by decide
  unbraced := by decide

def cartClauses : Clauses :=
  .listed
    [⟨⟨[Word.of "market"], Word.of "Basket"⟩,
      some ⟨"T".toList, by decide, by decide, by decide⟩, by decide⟩]
    [⟨⟨[], Word.of "Seq"⟩,
      some ⟨"List<Cart<T>>, T".toList, by decide, by decide, by decide⟩,
        by decide⟩,
      ⟨⟨[], Word.of "Basket"⟩, none, by decide⟩]

/-- A class that extends one type and implements two: each is told once. -/
theorem supertypes_clauses_cart :
    cartClass.Fresh "// A class.\npublic ".toList
        (header (some cartArguments) cartClauses ++ "\x7b \x7d".toList) ∧
      supertypes ("// A class.\npublic class Cart<T extends Map<K, V>> " ++
        "extends market.Basket<T> implements Seq<List<Cart<T>>, T>, Basket \x7b \x7d")
          "Cart" = ["Basket", "Seq"] := by
  have hfresh : cartClass.Fresh "// A class.\npublic ".toList
      (header (some cartArguments) cartClauses ++ "\x7b \x7d".toList) :=
    ⟨by decide, by decide +kernel⟩
  have htold : namesTold "Cart"
      (cartClauses.bases.map (·.type.name.text)) = ["Basket", "Seq"] := by
    decide +kernel
  have hcontent : "// A class.\npublic class Cart<T extends Map<K, V>> " ++
      "extends market.Basket<T> implements Seq<List<Cart<T>>, T>, Basket \x7b \x7d" =
        String.ofList ("// A class.\npublic ".toList ++ (cartClass.text ++
          (header (some cartArguments) cartClauses ++ "\x7b \x7d".toList))) := by
    decide +kernel
  have hname : "Cart" = String.ofList cartClass.name := by decide
  rw [hcontent, ← htold, hname]
  exact ⟨hfresh,
    supertypes_clauses cartClass (some cartArguments) cartClauses hfresh⟩

end CallTrace.Source
