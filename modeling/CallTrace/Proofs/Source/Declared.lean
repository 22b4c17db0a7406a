/-
Declarations as they are written, and what is read of their parts.

A declaration is a keyword, a name and a header. The search for it ends
behind its name, wherever it stands, if no declaration of the name begins
before it; the header is what follows up to the mark it ends with. In a
header names stand in lists, and what a list is read as are the last parts
of its names.
-/
import CallTrace.Proofs.Source.Names
import CallTrace.Proofs.Text.Lines
import CallTrace.Proofs.Text.Runs

namespace CallTrace.Source

open Text Text.Pattern

-- ======================================================= dotted names

/-- An identifier of word characters. It begins with an ASCII letter or an
underscore. -/
structure Word where
  text : List Char
  isIdent : isIdent text = true
  solid : ∀ c ∈ text, isWord c = true

/-- A text that can be seen to be such an identifier. -/
def Word.of (s : String) (hident : Text.isIdent s.toList = true := by decide)
    (hsolid : s.toList.all Text.isWord = true := by decide) : Word where
  text := s.toList
  isIdent := hident
  solid := List.all_eq_true.1 hsolid

/-- A name with the names in front of its dots. -/
structure Dotted where
  outer : List Word := []
  name : Word

namespace Dotted

variable (d : Dotted)

def words : List Word := d.outer ++ [d.name]

def text : List Char := joinWith ['.'] (d.words.map (·.text))

theorem isDotted_of_mem_text {c : Char} (h : c ∈ d.text) :
    isDotted c = true := by
  rw [isDotted, Bool.or_eq_true, beq_iff_eq]
  rcases mem_of_mem_joinWith h with hc | ⟨l, hl, hc⟩
  · exact .inr (List.mem_singleton.1 hc)
  · obtain ⟨w, -, rfl⟩ := List.mem_map.1 hl
    exact .inl (w.solid c hc)

theorem not_mem_text {c : Char} (h : isDotted c = false) : c ∉ d.text :=
  fun hmem => absurd (d.isDotted_of_mem_text hmem) (by simp [h])

theorem trim_text : trim d.text = d.text :=
  trimOf_eq_self_iff.2 ⟨fun _ hc => isBlank_of_isDotted
    (d.isDotted_of_mem_text (List.mem_of_mem_head? hc)), fun _ hc =>
    isBlank_of_isDotted (d.isDotted_of_mem_text (List.mem_of_getLast? hc))⟩

/-- A dotted path is read as its names. -/
theorem segments_joinWith {ws : List Word} (hne : ws ≠ []) :
    segments (joinWith ['.'] (ws.map (·.text))) = ws.map (·.text) := by
  have hword : ∀ w : Word, ∀ c ∈ w.text, isIdentRest c = true :=
    fun w _ hc => isIdentRest_of_mem w.isIdent hc
  unfold segments segmentsBy
  induction ws with
  | nil => exact absurd rfl hne
  | cons w ws ih =>
    cases ws with
    | nil => simpa [joinWith] using segments_go_of_isIdent false w.isIdent
    | cons w' ws =>
      rw [List.map_cons, joinWith_cons (by simp), List.append_assoc,
        segments_go_append (hword w), List.singleton_append, segmentsBy.go,
        ih (by simp)]
      simp

/-- A name stands for its last part. -/
theorem simpleName_text : simpleName d.text = d.name.text := by
  have hsegments : segments d.text = d.words.map (·.text) :=
    segments_joinWith (by simp [words])
  rw [simpleName_of_dotted fun _ hc => d.isDotted_of_mem_text hc, hsegments,
    lastOf, words, List.map_append, List.map_singleton, List.getLast?_concat,
    Option.getD_some]

theorem text_ne_nil : d.text ≠ [] := by
  intro hnil
  have hname : d.name.text = [] := by
    rw [← d.simpleName_text, hnil]
    rfl
  exact isIdent_ne_nil d.name.isIdent hname

end Dotted

-- =============================================================== lists

/-- What is joined from trimmed texts has no blanks around it. -/
theorem trim_joinWith {sep : List Char} {ls : List (List Char)}
    (h : ∀ l ∈ ls, l ≠ [] ∧ trim l = l) :
    trim (joinWith sep ls) = joinWith sep ls := by
  induction ls with
  | nil => rfl
  | cons l ls ih =>
    obtain ⟨hne, hl⟩ := h l (.head _)
    cases ls with
    | nil => simpa [joinWith] using hl
    | cons m ls =>
      have hrest := trimRight_of_trim (ih fun l hl => h l (.tail _ hl))
      rw [joinWith_cons (by simp), List.append_assoc, trim,
        trimOf_append_of_trimmed hne hl, trimRightOf_append_of_ne_nil sep
          (joinWith_ne_nil (h m (by simp)).1) hrest]

/-- The comma between the entries of a list. -/
def comma : List Char := ", ".toList

/-- A list is cut into its entries, whatever blanks follow it. -/
theorem map_trim_splitOn {items : List (List Char)} (hne : items ≠ [])
    (h : ∀ l ∈ items, ',' ∉ l) {tail : List Char}
    (htail : ∀ c ∈ tail, isBlank c = true) :
    (splitOn ',' (joinWith comma items ++ tail)).map trim =
      items.map trim := by
  have hcomma : ',' ∉ tail := fun hc => absurd (htail _ hc) (by decide)
  induction items with
  | nil => exact absurd rfl hne
  | cons l items ih =>
    have hl := h l (.head _)
    cases items with
    | nil =>
      have hwhole : splitOn ',' (l ++ tail) = [l ++ tail] :=
        splitOn_of_not_mem (by simp [hl, hcomma])
      have htrim : trim (l ++ tail) = trim l := trimOf_append_of_all htail l
      simp [joinWith, hwhole, htrim]
    | cons m items =>
      have hspace : ∀ cs : List Char, (splitOn ',' (' ' :: cs)).map trim =
          (splitOn ',' cs).map trim := by
        intro cs
        have hpiece : ∀ piece, trim (' ' :: piece) = trim piece :=
          fun _ => rfl
        have hcut : splitOn ',' ([' '] ++ cs) =
            (splitOn ',' cs).modifyHead ([' '] ++ ·) :=
          splitOn_append_of_not_mem (by decide) cs
        have hlead : ' ' :: cs = [' '] ++ cs := rfl
        rw [hlead, hcut]
        cases hcs : splitOn ',' cs with
        | nil => exact absurd hcs (splitOn_ne_nil ',' cs)
        | cons piece pieces =>
          rw [List.modifyHead_cons, List.map_cons, List.map_cons,
            List.singleton_append, hpiece]
      have hjoin : joinWith comma (l :: m :: items) ++ tail =
          l ++ ',' :: (' ' :: (joinWith comma (m :: items) ++ tail)) := by
        rw [joinWith_cons (by simp)]
        simp [comma]
      rw [hjoin, splitOn_append, splitOn_of_not_mem hl, List.map_append, hspace,
        ih (by simp) fun l hl => h l (.tail _ hl)]
      rfl

/-- The names among the entries of a list. -/
def namesAmong (parts : List (List Char)) : List (List Char) :=
  ((parts.filter fun part => !part.isEmpty && !part.contains '=').map
    simpleName).filter isIdent

theorem splitNames_eq (cs : List Char) :
    splitNames cs = namesAmong ((splitOn ',' cs).map trim) := rfl

theorem splitNames_of_not_mem {cs : List Char} (h : ',' ∉ cs) :
    splitNames cs = namesAmong [trim cs] := by
  rw [splitNames_eq, splitOn_of_not_mem h]
  rfl

/-- A list is read entry by entry. -/
theorem splitNames_joinWith {items : List (List Char)}
    (h : ∀ l ∈ items, ',' ∉ l) {tail : List Char}
    (htail : ∀ c ∈ tail, isBlank c = true) :
    splitNames (joinWith comma items ++ tail) =
      items.flatMap splitNames := by
  have hentries : namesAmong (items.map trim) =
      items.flatMap splitNames := by
    induction items with
    | nil => rfl
    | cons l items ih =>
      rw [List.flatMap_cons, ← ih fun l hl => h l (.tail _ hl),
        splitNames_of_not_mem (h l (.head _))]
      simp only [namesAmong, ← List.filter_append, ← List.map_append]
      rfl
  cases items with
  | nil =>
    have hcomma : ',' ∉ tail := fun hc => absurd (htail _ hc) (by decide)
    have htrim : trim tail = [] := trimOf_append_of_all htail []
    rw [List.flatMap_nil, joinWith, List.intercalate_nil, List.nil_append,
      splitNames_of_not_mem hcomma, htrim]
    rfl
  | cons l items =>
    rw [splitNames_eq, map_trim_splitOn (by simp) h htail, hentries]

theorem Dotted.splitNames_text (d : Dotted) :
    splitNames d.text = [d.name.text] := by
  have hvalue : '=' ∉ d.text := d.not_mem_text (by decide)
  rw [splitNames_of_not_mem (d.not_mem_text (by decide)), d.trim_text,
    namesAmong, List.filter_cons_of_pos (by simp [d.text_ne_nil, hvalue]),
    List.filter_nil, List.map_singleton, d.simpleName_text,
    List.filter_cons_of_pos d.name.isIdent, List.filter_nil]

theorem flatMap_splitNames (ds : List Dotted) :
    (ds.map (·.text)).flatMap splitNames = ds.map (·.name.text) := by
  rw [List.flatMap_map, List.map_eq_flatMap]
  exact congrArg (ds.flatMap ·) (funext Dotted.splitNames_text)

-- ======================================================= declarations

/-- The words that declare a type. -/
def declaring : List String :=
  ["class", "interface", "struct", "record", "object", "trait", "enum"]

/-- A declaration up to the end of the name. The name may be any text that
can be found behind a blank, and that a word could not go on from. -/
structure Declared where
  keyword : String
  isKeyword : keyword ∈ declaring
  name : List Char
  opening : name.head?.any isBlank = false
  closing : name.getLast?.any isWord = true

namespace Declared

variable (d : Declared)

def text : List Char := d.keyword.toList ++ ' ' :: d.name

/-- A text in which no declaration of the type begins, also where it goes
on, and that does not run into the keyword. -/
structure Fresh (before rest : List Char) : Prop where
  apart : before.getLast?.any isWord = false
  undeclared :
    startsIn (declaration d.name) none before (d.text ++ rest) = false

/-- The keyword of a declaration starts a word, and is one of those that
declare. -/
theorem keyword_text (rest : List Char) :
    (∃ c, (d.keyword.toList ++ rest).head? = some c ∧ isWord c = true) ∧
      ∀ before, oneOf declaring ⟨before, d.keyword.toList ++ rest⟩ =
        [⟨d.keyword.toList.getLast?, rest⟩] := by
  have hkeyword := d.isKeyword
  simp only [declaring, List.mem_cons, List.not_mem_nil, or_false]
    at hkeyword
  rcases hkeyword with h | h | h | h | h | h | h <;> rw [h] <;>
    exact ⟨⟨_, rfl, by decide⟩, fun _ => rfl⟩

/-- Behind its name the declaration is found. -/
theorem declaration_text {before : Option Char} {rest : List Char}
    (hbefore : before.any isWord = false)
    (hrest : rest.head?.any isWord = false) :
    declaration d.name ⟨before, d.text ++ rest⟩ =
      [⟨d.name.getLast?, rest⟩] := by
  have htext : d.text ++ rest =
      d.keyword.toList ++ (' ' :: (d.name ++ rest)) := by simp [text]
  obtain ⟨⟨c, hhead, hc⟩, hkeyword⟩ :=
    d.keyword_text (' ' :: (d.name ++ rest))
  have hfront : boundary
      ⟨before, d.keyword.toList ++ (' ' :: (d.name ++ rest))⟩ =
      [⟨before, d.keyword.toList ++ (' ' :: (d.name ++ rest))⟩] := by
    rw [boundary_eq, hbefore, hhead, Option.any_some, hc]
    rfl
  have hname : ∀ c ∈ (d.name ++ rest).head?, isBlank c = false := by
    cases hcs : d.name with
    | nil => exact absurd d.closing (by simp [hcs])
    | cons c cs =>
      have hopening := d.opening
      rw [hcs] at hopening
      rintro c' ⟨⟩
      exact hopening
  have hback : boundary ⟨d.name.getLast?, rest⟩ =
      [⟨d.name.getLast?, rest⟩] := by
    rw [boundary_eq, d.closing, hrest]
    rfl
  have hlast : d.name.getLast?.or (some ' ') = d.name.getLast? := by
    have hclosing := d.closing
    cases hlast : d.name.getLast? with
    | none => simp [hlast] at hclosing
    | some c => rfl
  have hpattern : declaration d.name = all [boundary, oneOf declaring,
      blanks1, literal d.name, boundary] := rfl
  rw [hpattern, htext, all, seq_of_eq hfront, all, seq_of_eq (hkeyword _),
    all, seq_of_eq (blanks1_space hname), all,
    seq_of_eq (literal_append ..), hlast, all, seq_of_eq hback]
  rfl

/-- The search ends behind the name. -/
theorem find?_text {before rest : List Char} (h : d.Fresh before rest)
    (hrest : rest.head?.any isWord = false) :
    ∃ k e, find? (declaration d.name) (before ++ (d.text ++ rest)) =
      some (k, e) ∧ e.rest = rest := by
  obtain ⟨hbefore, hfresh⟩ := h
  have hlast : (before.getLast?.or none).any isWord = false := by
    simpa using hbefore
  have hhere := d.declaration_text hlast hrest
  rw [find?, findAt?_append hfresh]
  exact ⟨_, _, findAt?_of_match hhere, rfl⟩

end Declared

/-- A class for headers of either kind. -/
def cartClass : Declared where
  keyword := "class"
  isKeyword := by decide
  name := "Cart".toList
  opening := by decide
  closing := by decide

-- ============================================================= headers

/-- A line on which something follows does not end there. -/
theorem lineEnds_append {cs rest : List Char} {c : Char}
    (hbreak : '\n' ∉ cs) (hc : isBlank c = false) :
    lineEnds (cs ++ c :: rest) = false := by
  have hbreaks : '\n' ∉ (cs ++ c :: rest).takeWhile isBlank := by
    intro h
    rw [List.takeWhile_append, List.takeWhile_cons_of_neg (by simp [hc]),
      List.append_nil] at h
    split at h
    · exact hbreak h
    · exact hbreak ((List.takeWhile_prefix _).subset h)
  simpa [lineEnds] using hbreaks

/-- The header ends at a brace, or at a colon that ends its line. -/
theorem headerOf_append {header rest : List Char} {c : Char}
    (hbrace : '\x7b' ∉ header) (hbreak : '\n' ∉ header)
    (hc : c = '\x7b' ∨ c = ':' ∧ lineEnds rest = true) :
    headerOf (header ++ c :: rest) = header := by
  have hend : c == '\x7b' || ((c == ':' || c == '\n') && lineEnds rest) := by
    rcases hc with rfl | ⟨rfl, hrest⟩
    · rfl
    · simp [hrest]
  have hblank : isBlank c = false := by
    rcases hc with rfl | ⟨rfl, -⟩ <;> decide
  have hgo : ∀ done, headerOf.go done (header ++ c :: rest) =
      some (done.reverse ++ header) := by
    induction header with
    | nil =>
      intro done
      rw [List.nil_append, headerOf.go, if_pos hend, List.append_nil]
    | cons d header ih =>
      intro done
      rw [List.mem_cons, not_or] at hbrace hbreak
      have hgoes : ¬(d == '\x7b' || ((d == ':' || d == '\n') &&
          lineEnds (header ++ c :: rest))) = true := by
        simp [Ne.symm hbrace.1, lineEnds_append hbreak.2 hblank]
      rw [List.cons_append, headerOf.go, if_neg hgoes,
        ih hbrace.2 hbreak.2]
      simp
  rw [headerOf, hgo]
  rfl

end CallTrace.Source
