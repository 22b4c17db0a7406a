/-
A reply that denies the method is read as the types it names.

Such a reply has a layout of its own: a heading and a sentence that say
the method is missing, the types that the type extends and implements, and
other types that may have the method. Only the lines of its lists name
types. The sentence does not, although both names stand between backticks
in it; nor does what is said about a type, since no backticks are in it.
-/
import CallTrace.Proofs.Distinct
import CallTrace.Proofs.Reply.Presence
import CallTrace.Proofs.Reply.Sections

namespace CallTrace.Reply

open Text Text.Pattern Written

-- ========================================================== the layout

namespace Written

/-- Why another type may have the method. -/
structure Reason where
  text : List Char
  isLine : IsLine text
  unquoted : backtick ∉ text

/-- A type that is named in place of the one without the method. Dots and
colons join its name to what qualifies it. -/
structure Suggested where
  outer : List (Ident × Joint) := []
  joined : ∀ part ∈ outer, part.2 ≠ .arrow := by simp
  name : List Char
  isTypeName : isTypeName name = true
  reason : Option Reason := none

/-- What stands in front of a type in each of the lists. -/
def bullet : Mention → String
  | .extended => "- **Extends**: "
  | .implemented => "- **Implements**: "
  | .listed => "- "

namespace Suggested

/-- The name with what qualifies it. -/
def text (s : Suggested) : List Char :=
  s.outer.flatMap (fun (name, joint) => name.text ++ joint.text) ++ s.name

/-- What follows the name on its line. -/
def note (s : Suggested) : List Char :=
  match s.reason with
  | some r => " - ".toList ++ r.text
  | none => []

def line (s : Suggested) (m : Mention) : List Char :=
  (bullet m).toList ++ backtick :: (s.text ++ backtick :: s.note)

end Suggested

/-- The types that are named in place of one, list by list. -/
structure Denial where
  extended : List Suggested := []
  implemented : List Suggested := []
  listed : List Suggested := []

/-- The sentence that says the method is missing. -/
def sentence (typeName method : String) : List Char :=
  "Method ".toList ++ backtick :: (method.toList ++ backtick ::
    (" not found in type ".toList ++
      backtick :: (typeName.toList ++ [backtick])))

namespace Denial

variable (d : Denial)

/-- The lines after the sentence. -/
def lists : List (List Char) :=
  [[], "#### Check Parent Types:".toList] ++
    d.extended.map (·.line .extended) ++
    d.implemented.map (·.line .implemented) ++
    [[], "#### Alternative Classes:".toList] ++
    d.listed.map (·.line .listed)

/-- The whole reply. -/
def reply (typeName method : String) : String :=
  String.ofList (joinWith ['\n'] ("### Method Not Found".toList :: [] ::
    sentence typeName method :: d.lists))

/-- The names of the types, each at its first place. -/
def names : List String :=
  ((d.extended ++ d.implemented ++ d.listed).map (·.name)).eraseDups.map
    String.ofList

end Denial

end Written

-- ==================================================== names on a line

/-- The type names on a line of a kind. -/
def namesOn (m : Mention) (line : List Char) : List (List Char) :=
  if mention? line = some m then typeNames line else []

/-- Suggestions are collected list by list, from all lines. -/
theorem suggestions_eq (cs : List Char) :
    suggestions cs = (([Mention.extended, .implemented, .listed].flatMap
      fun m => (lines cs).flatMap (namesOn m)).eraseDups).map
        String.ofList := by
  have hof : ∀ (m : Mention) (ls : List (List Char)),
      ((ls.filterMap fun line => (mention? line).map
        (·, typeNames line)).filter (·.1 = m)).flatMap (·.2) =
      ls.flatMap (namesOn m) := by
    intro m ls
    induction ls with
    | nil => rfl
    | cons line ls ih =>
      rw [List.flatMap_cons, ← ih, namesOn]
      cases hline : mention? line with
      | none => simp [hline]
      | some m' =>
        by_cases hm : m' = m <;> simp [hline, hm]
  simp only [suggestions, hof, firstPlaces_eq, List.flatMap_cons,
    List.flatMap_nil, List.append_nil, List.append_assoc]

theorem typeNames_of_not_mem {line : List Char} (h : backtick ∉ line) :
    typeNames line = [] := by
  rw [typeNames, inBackticks, inBackticks_go_of_not_mem h]
  rfl

/-- A type is suggested on one of the lines, and which one does not
matter. -/
theorem mem_suggestions {cs : List Char} {name : String} :
    name ∈ suggestions cs ↔ ∃ line ∈ splitBy isLineBreak cs, ∃ m,
      ∃ n ∈ namesOn m line, String.ofList n = name := by
  have hlines : ∀ m, (lines cs).flatMap (namesOn m) =
      (splitBy isLineBreak cs).flatMap (namesOn m) := by
    intro m
    have hempty : namesOn m [] = [] := by
      rw [namesOn, typeNames_of_not_mem List.not_mem_nil, ite_self]
    rw [flatMap_lines hempty, flatMap_splitBy_unifyPairs hempty]
  rw [suggestions_eq]
  simp only [hlines, List.mem_map, List.mem_eraseDups, List.mem_flatMap]
  constructor
  · rintro ⟨n, ⟨m, -, line, hline, hn⟩, hname⟩
    exact ⟨line, hline, m, n, hn, hname⟩
  · rintro ⟨line, hline, m, n, hn, hname⟩
    exact ⟨n, ⟨m, by cases m <;> simp, line, hline, hn⟩, hname⟩

theorem isIdent_of_isTypeName {cs : List Char} (h : isTypeName cs = true) :
    isIdent cs = true := by
  cases cs with
  | nil => cases h
  | cons c rest =>
    rw [isTypeName, Bool.and_eq_true] at h
    have hletter : c.isAlpha = (c.isUpper || c.isLower) := rfl
    simp [isIdent, isIdentStart, hletter, h]

namespace Written

/-- The line is of the kind that its bullet is for. -/
theorem mention?_bullet (m : Mention) (cs : List Char) :
    mention? ((bullet m).toList ++ backtick :: cs) = some m := by
  cases m <;> rfl

namespace Suggested

variable (s : Suggested)

def ident : Ident := ⟨s.name, isIdent_of_isTypeName s.isTypeName⟩

theorem mem_text {d : Char} (h : d ∈ s.text) :
    isIdentRest d = true ∨ d ∈ ['.', ':', '-', '>'] := by
  have hpath : d ∈ s.outer.flatMap
      (fun (name, joint) => name.text ++ joint.text) ++ s.ident.text := h
  exact mem_path hpath

theorem isBlank_text {d : Char} (h : d ∈ s.text) : isBlank d = false :=
  isBlank_of_mem_path (s.mem_text h)

theorem backtick_not_mem_text : backtick ∉ s.text := by
  intro h
  rcases s.mem_text h with h | h
  · exact absurd h (by decide)
  · exact absurd h (by simp [backtick])

theorem text_ne_nil : s.text ≠ [] :=
  List.append_ne_nil_of_right_ne_nil _ (isIdent_ne_nil s.ident.isIdent)

/-- A qualified name stands for its last part. -/
theorem lastOf_text : lastOf (segments (trim s.text)) = s.name := by
  have htrim : trim s.text = s.text :=
    trimOf_eq_self_iff.2 ⟨fun c hc => s.isBlank_text
      (List.mem_of_mem_head? hc), fun c hc => s.isBlank_text
      (List.mem_of_getLast? hc)⟩
  have hsegments : segments s.text =
      s.outer.map (·.1.text) ++ [s.name] :=
    segmentsBy_append (fun part h => .inr (s.joined part h)) s.ident
  rw [htrim, hsegments, lastOf, List.getLast?_concat, Option.getD_some]

theorem backtick_not_mem_note : backtick ∉ s.note := by
  have hdash : backtick ∉ " - ".toList := by decide
  rw [note]
  cases s.reason with
  | none => exact List.not_mem_nil
  | some r => exact fun h => (List.mem_append.1 h).elim hdash r.unquoted

/-- A line of a list up to the end of the name. -/
def front (m : Mention) : List Char :=
  (bullet m).toList ++ backtick :: (s.text ++ [backtick])

theorem line_eq (m : Mention) : s.line m = s.front m ++ s.note := by
  simp [line, front]

/-- A mention is written on one line, without blanks around it. -/
theorem isLine_line (m : Mention) : IsLine (s.line m) := by
  have hfront : '\n' ∉ s.front m := by
    have hbullet : '\n' ∉ (bullet m).toList := by cases m <;> decide
    have htext : '\n' ∉ s.text := fun h =>
      absurd (s.isBlank_text h) (by decide)
    have hquote : '\n' ≠ backtick := by decide
    simp [front, hbullet, htext, hquote]
  rw [line_eq]
  cases hnote : s.reason with
  | none =>
    refine ⟨by simpa [note, hnote] using hfront, ?_⟩
    have hlast : (s.front m ++ s.note).getLast? = some backtick := by
      rw [note, hnote, List.append_nil, front, ← List.cons_append,
        ← List.append_assoc, List.getLast?_concat]
    rw [hlast]
    decide
  | some r =>
    have hdash : '\n' ∉ s.front m ++ " - ".toList := by simp [hfront]
    rw [note, hnote, ← List.append_assoc]
    cases htext : r.text with
    | nil =>
      refine ⟨by simpa using hdash, ?_⟩
      rw [List.append_nil, List.getLast?_append_of_ne_nil _ (by simp)]
      decide
    | cons c rest =>
      exact (htext ▸ r.isLine).append (List.cons_ne_nil _ _) hdash

/-- The line names its type, and what is said about it names none, even
where it holds other breaks than line feeds. -/
theorem namesOn_line (m m' : Mention) :
    (splitBy isLineBreak (s.line m)).flatMap (namesOn m') =
      if m = m' then [s.name] else [] := by
  have hfront : ∀ c ∈ s.front m, isLineBreak c = false := by
    intro c hc
    simp only [front, List.mem_append, List.mem_cons, List.not_mem_nil,
      or_false] at hc
    rcases hc with hc | rfl | hc | rfl
    · have hbullet : ∀ c ∈ (bullet m).toList, isLineBreak c = false := by
        cases m <;> exact forall_mem_of_all (by decide)
      exact hbullet c hc
    · decide
    · have hblank := s.isBlank_text hc
      exact Bool.eq_false_iff.2 fun h =>
        absurd (isBlank_of_isLineBreak h) (by simp [hblank])
    · decide
  have hquote : backtick ∉ (bullet m).toList := by cases m <;> decide
  rw [line_eq, splitBy_append_of_not hfront]
  cases hpieces : splitBy isLineBreak s.note with
  | nil => exact absurd hpieces (splitBy_ne_nil _ _)
  | cons piece pieces =>
    have hplain : ∀ p ∈ piece :: pieces, backtick ∉ p := fun p hp hmem =>
      s.backtick_not_mem_note (mem_of_mem_splitBy (hpieces ▸ hp) hmem)
    have hrest : pieces.flatMap (namesOn m') = [] := by
      refine List.flatMap_eq_nil_iff.2 fun p hp => ?_
      rw [namesOn, typeNames_of_not_mem (hplain p (.tail _ hp)), ite_self]
    have htext : s.front m ++ piece =
        (bullet m).toList ++ backtick :: (s.text ++ backtick :: piece) := by
      simp [front]
    have hname : typeNames (s.front m ++ piece) = [s.name] := by
      rw [htext, typeNames, inBackticks_append hquote, inBackticks_quoted
        s.text_ne_nil s.backtick_not_mem_text (hplain piece (.head _)),
        List.map_singleton, lastOf_text,
        List.filter_cons_of_pos s.isTypeName, List.filter_nil]
    rw [List.modifyHead_cons, List.flatMap_cons, hrest, List.append_nil,
      namesOn, hname, htext, mention?_bullet]
    simp only [Option.some.injEq]

end Suggested

namespace Denial

variable (d : Denial)

/-- The lists name what was put into them, and their headings nothing. -/
theorem namesOn_lists (m : Mention) :
    (d.lists.flatMap (splitBy isLineBreak)).flatMap (namesOn m) =
      match m with
      | .extended => d.extended.map (·.name)
      | .implemented => d.implemented.map (·.name)
      | .listed => d.listed.map (·.name) := by
  have hblank : (splitBy isLineBreak []).flatMap (namesOn m) = [] := by
    cases m <;> decide
  have hparents : (splitBy isLineBreak
      "#### Check Parent Types:".toList).flatMap (namesOn m) = [] := by
    cases m <;> decide
  have hothers : (splitBy isLineBreak
      "#### Alternative Classes:".toList).flatMap (namesOn m) = [] := by
    cases m <;> decide
  have hlist : ∀ (m' : Mention) (ss : List Suggested),
      ((ss.map (·.line m')).flatMap (splitBy isLineBreak)).flatMap
        (namesOn m) = if m' = m then ss.map (·.name) else [] := by
    intro m' ss
    induction ss with
    | nil => simp
    | cons s ss ih =>
      rw [List.map_cons, List.flatMap_cons, List.flatMap_append, ih,
        s.namesOn_line]
      split <;> rfl
  simp only [lists, List.flatMap_append, List.flatMap_cons,
    List.flatMap_nil, hblank, hparents, hothers, hlist, List.nil_append,
    List.append_nil]
  cases m <;> simp

/-- Each of the lists takes up lines of its own. -/
theorem isLine_lists : ∀ l ∈ d.lists, IsLine l := by
  have hlist : ∀ (m : Mention) (ss : List Suggested),
      ∀ l ∈ ss.map (·.line m), IsLine l := by
    intro m ss l hl
    obtain ⟨s, -, rfl⟩ := List.mem_map.1 hl
    exact s.isLine_line m
  have hblank : IsLine [] := ⟨by decide, by decide⟩
  have hparents : IsLine "#### Check Parent Types:".toList :=
    ⟨by decide, by decide⟩
  have hothers : IsLine "#### Alternative Classes:".toList :=
    ⟨by decide, by decide⟩
  intro l hl
  simp only [lists, List.mem_append, List.mem_cons, List.not_mem_nil,
    or_false] at hl
  rcases hl with ((((rfl | rfl) | hl) | hl) | (rfl | rfl)) | hl
  · exact hblank
  · exact hparents
  · exact hlist _ _ l hl
  · exact hlist _ _ l hl
  · exact hblank
  · exact hothers
  · exact hlist _ _ l hl

end Denial

-- ======================================================= the sentence

theorem sentence_eq (typeName method : String) :
    sentence typeName method = "Method ".toList ++ backtick ::
      (method.toList ++ backtick :: (" not found in type ".toList ++
        backtick :: (typeName.toList ++ [backtick]))) := rfl

section

variable {typeName method : String}
  (h : Source.isPlausible typeName method = true)

include h

/-- The sentence of the denial takes up lines of its own. -/
theorem isLine_of_mem_sentence :
    ∀ l ∈ splitOn '\n' (sentence typeName method), IsLine l := by
  obtain ⟨htype, hmethod⟩ := isNamed_of_isPlausible h
  have hreturn : '\r' ∉ sentence typeName method := by
    have htypeReturn := htype.not_mem (c := '\r') (by decide) (by decide)
    have hmethodReturn := hmethod.not_mem (c := '\r') (by decide) (by decide)
    have hquote : '\r' ≠ backtick := by decide
    rw [sentence_eq]
    simp [htypeReturn, hmethodReturn, hquote]
  exact fun l hl => ⟨sep_not_mem_of_mem_splitOn hl, fun hlast =>
    hreturn (mem_of_mem_splitOn hl (List.mem_of_getLast? hlast))⟩

/-- The sentence names no type. A name in it may end in a line feed, and
then the next line begins with the backtick after the name. -/
theorem mention?_of_mem_sentence :
    ∀ l ∈ splitBy isLineBreak (sentence typeName method),
      mention? l = none := by
  have hstart : ∀ cs, mention? ("Method ".toList ++ backtick :: cs) = none :=
    fun _ => rfl
  have hquote : ∀ cs, mention? (backtick :: cs) = none := by
    intro cs
    cases cs <;> rfl
  obtain ⟨⟨front, htype, hfront⟩, name, hmethod, hname⟩ :=
    isNamed_of_isPlausible h
  have hplain : ∀ {w cs : List Char}, (∀ c ∈ w, isLineBreak c = false) →
      (∀ c ∈ cs, isIdentRest c = true ∨ c ∈ ['.', ':', '-', '>']) →
        ∀ c ∈ w ++ cs, isLineBreak c = false := by
    intro w cs hw hcs c hc
    rcases List.mem_append.1 hc with hc | hc
    · exact hw c hc
    · have hblank := isBlank_of_mem_path (hcs c hc)
      exact Bool.eq_false_iff.2 fun h =>
        absurd (isBlank_of_isLineBreak h) (by simp [hblank])
  have htail : ∀ {cs name : List Char}, (cs = name ∨ cs = name ++ ['\n']) →
      ∃ tail, cs = name ++ tail ∧
        (tail = [] ∨ ∃ c, tail = [c] ∧ isLineBreak c = true) := by
    rintro cs name (rfl | rfl)
    · exact ⟨[], by simp, .inl rfl⟩
    · exact ⟨['\n'], rfl, .inr ⟨'\n', rfl, by decide⟩⟩
  obtain ⟨typeTail, htype, htypeTail⟩ := htail htype
  obtain ⟨methodTail, hmethod, hmethodTail⟩ := htail hmethod
  have hsentence : sentence typeName method =
      ("Method ".toList ++ [backtick] ++ name) ++ (methodTail ++
        ((backtick :: " not found in type ".toList ++ [backtick] ++ front) ++
          (typeTail ++ [backtick]))) := by
    rw [sentence_eq, htype, hmethod]
    simp
  intro l hl
  rw [hsentence] at hl
  rcases prefix_or_mem_splitBy (hplain (forall_mem_of_all (by decide)) hname)
    hmethodTail hl with ⟨rest, rfl⟩ | hl
  · simpa using hstart (name ++ rest)
  rcases prefix_or_mem_splitBy (hplain (forall_mem_of_all (by decide)) hfront)
    htypeTail hl with ⟨rest, rfl⟩ | hl
  · exact hquote _
  · have hlast : splitBy isLineBreak [backtick] = [[backtick]] :=
      splitBy_of_not (forall_mem_of_all (by decide))
    rw [hlast, List.mem_singleton] at hl
    exact hl ▸ hquote []

end

-- ========================================================== the replies

/-- The heading alone says that the method is missing. -/
theorem tellsAbsence_heading (cs : List Char) :
    tellsAbsence ("### Method Not Found".toList ++ cs) = true := by
  have hsigns : run1 (· == '#') ⟨none, "### Method Not Found".toList ++ cs⟩ =
      [⟨some '#', " Method Not Found".toList ++ cs⟩,
       ⟨some '#', "# Method Not Found".toList ++ cs⟩,
       ⟨some '#', "## Method Not Found".toList ++ cs⟩] := rfl
  have hgap : blanks ⟨some '#', " Method Not Found".toList ++ cs⟩ =
      [⟨some ' ', "Method Not Found".toList ++ cs⟩,
       ⟨some '#', " Method Not Found".toList ++ cs⟩] := rfl
  have hmethod : caseless "method"
      ⟨some ' ', "Method Not Found".toList ++ cs⟩ =
        [⟨some 'd', " Not Found".toList ++ cs⟩] := rfl
  have hblank : blanks1 ⟨some 'd', " Not Found".toList ++ cs⟩ =
      [⟨some ' ', "Not Found".toList ++ cs⟩] := rfl
  have hnot : caseless "not" ⟨some ' ', "Not Found".toList ++ cs⟩ =
      [⟨some 't', " Found".toList ++ cs⟩] := rfl
  have hblank' : blanks1 ⟨some 't', " Found".toList ++ cs⟩ =
      [⟨some ' ', "Found".toList ++ cs⟩] := rfl
  have hfound : caseless "found" ⟨some ' ', "Found".toList ++ cs⟩ =
      [⟨some 'd', cs⟩] := rfl
  refine List.any_eq_true.2 ⟨_, .head _, ?_⟩
  apply occursIn_of_match
  simp only [Pattern.all, seq, Pattern.empty, hsigns, hgap, hmethod, hblank,
    hnot, hblank', hfound, List.flatMap_cons, List.flatMap_nil,
    List.append_nil, List.singleton_append]
  rfl

/-- The lines of the whole reply. -/
def Denial.lines (d : Denial) (typeName method : String) :
    List (List Char) :=
  "### Method Not Found".toList :: [] ::
    (splitOn '\n' (sentence typeName method) ++ d.lists)

section

variable {typeName method : String}
  (h : Source.isPlausible typeName method = true) (d : Denial)

include h

/-- A denial is made of lines. -/
theorem Denial.isLine_lines : ∀ l ∈ d.lines typeName method, IsLine l := by
  have hblank : IsLine [] := ⟨by decide, by decide⟩
  have hheading : IsLine "### Method Not Found".toList :=
    ⟨by decide, by decide⟩
  intro l hl
  rw [lines, List.mem_cons, List.mem_cons, List.mem_append] at hl
  rcases hl with rfl | rfl | hl | hl
  · exact hheading
  · exact hblank
  · exact isLine_of_mem_sentence h l hl
  · exact d.isLine_lists l hl

/-- The lines come out of the text as they went in. -/
theorem Denial.reply_eq : unifyPairs (d.reply typeName method).toList =
    joinWith ['\n'] (d.lines typeName method) := by
  have hlists : d.lists ≠ [] := by simp [lists]
  have htext : (d.reply typeName method).toList =
      joinWith ['\n'] (d.lines typeName method) := by
    rw [reply, String.toList_ofList, lines]
    rw [joinWith_cons (by simp), joinWith_cons (by simp),
      joinWith_cons hlists, joinWith_cons (by simp),
      joinWith_cons (by simp [hlists]),
      joinWith_append (splitOn_ne_nil _ _) hlists, joinWith_splitOn]
  rw [htext, unifyPairs_joinWith (d.isLine_lines h)]

/-- The lists of the reply name what was put into them, and nothing else
does. -/
theorem Denial.suggestions_reply :
    suggestions (unifyPairs (d.reply typeName method).toList) = d.names := by
  have hnone : ∀ m, namesOn m [] = [] := by
    intro m
    cases m <;> decide
  have hblank : ∀ m, (splitBy isLineBreak []).flatMap (namesOn m) = [] := by
    intro m
    cases m <;> decide
  have hheading : ∀ m, (splitBy isLineBreak
      "### Method Not Found".toList).flatMap (namesOn m) = [] := by
    intro m
    cases m <;> decide
  have hbreak : isLineBreak '\n' = true := by decide
  have hsentence : ∀ m, ((splitOn '\n' (sentence typeName method)).flatMap
      (splitBy isLineBreak)).flatMap (namesOn m) = [] := by
    intro m
    rw [← splitBy_joinWith hbreak (splitOn_ne_nil _ _),
      joinWith_splitOn, List.flatMap_eq_nil_iff]
    intro l hl
    rw [namesOn, mention?_of_mem_sentence h l hl, if_neg (by simp)]
  have hnames : ∀ m, (Text.lines (unifyPairs (d.reply typeName
      method).toList)).flatMap (namesOn m) =
      (d.lists.flatMap (splitBy isLineBreak)).flatMap (namesOn m) := by
    intro m
    rw [flatMap_lines (hnone m), d.reply_eq h,
      unifyPairs_joinWith (d.isLine_lines h),
      splitBy_joinWith (by decide) (by simp [Denial.lines]), Denial.lines,
      List.flatMap_cons, List.flatMap_cons, List.flatMap_append,
      List.flatMap_append, List.flatMap_append, List.flatMap_append,
      hheading, hblank, hsentence, List.nil_append, List.nil_append,
      List.nil_append]
  rw [suggestions_eq]
  simp only [hnames, d.namesOn_lists, List.flatMap_cons, List.flatMap_nil,
    List.append_nil, names, List.map_append, List.append_assoc]

/-- A reply that denies the method of a plausible type, in the layout for
it, is read as the types it names: those the type extends, then those it
implements, then the others, each at its first place. -/
theorem parse_denial (owner : String) :
    parse owner (d.reply typeName method) = .absent d.names ∧
      (parse owner (d.reply typeName method)).blocks = [] := by
  have hheading : opensBlock? "### Method Not Found".toList = none := by
    decide
  have habsent : tellsAbsence (joinWith ['\n'] (preamble (splitOn '\n'
      (unifyPairs (d.reply typeName method).toList)))) = true := by
    rw [d.reply_eq h, splitOn_joinWith (fun l hl =>
      (d.isLine_lines h l hl).oneLine) (by simp [Denial.lines]),
      Denial.lines, preamble, List.takeWhile_cons_of_pos
      (by rw [hheading]; rfl)]
    cases hrest : List.takeWhile (fun line => (opensBlock? line).isNone)
      ([] :: (splitOn '\n' (sentence typeName method) ++ d.lists)) with
    | nil => simpa [joinWith] using tellsAbsence_heading []
    | cons l ls =>
      rw [joinWith_cons (List.cons_ne_nil _ _), List.append_assoc]
      exact tellsAbsence_heading _
  have hparse : parse owner (d.reply typeName method) = .absent d.names := by
    rw [parse]
    simp only [habsent, if_true, d.suggestions_reply h]
  exact ⟨hparse, by rw [hparse]; rfl⟩

end

/-- What is said about a type, as it stands. -/
def plainReason (cs : List Char)
    (h : '\n' ∉ cs ∧ cs.getLast? ≠ some '\r' ∧ backtick ∉ cs := by
      decide) : Reason :=
  ⟨cs, ⟨h.1, h.2.1⟩, h.2.2⟩

/-- The types that are named as

    - **Extends**: `store.Basket`
    - **Implements**: `Payable`
    - **Implements**: `store::api.Basket`

and, in the other list, as

    - `Till` - takes money: - **Extends**: Bank
    - `Payable` - 
-/
def cartDenial : Denial where
  extended :=
    [{ outer := [(⟨"store".toList, by decide⟩, .dot)]
       joined := by simp
       name := "Basket".toList
       isTypeName := by decide }]
  implemented :=
    [{ name := "Payable".toList
       isTypeName := by decide },
     { outer := [(⟨"store".toList, by decide⟩, .colons),
         (⟨"api".toList, by decide⟩, .dot)]
       joined := by simp
       name := "Basket".toList
       isTypeName := by decide }]
  listed :=
    [{ name := "Till".toList
       isTypeName := by decide
       reason := some (plainReason
         "takes money: - **Extends**: Bank".toList) },
     { name := "Payable".toList
       isTypeName := by decide
       reason := some (plainReason []) }]

/-- Each of the types is named once, and neither `Cart` nor `Pay` is. -/
theorem parse_denial_cart :
    Source.isPlausible "Cart\n" "Pay\n" = true ∧
    parse "Cart" (cartDenial.reply "Cart\n" "Pay\n") =
      .absent ["Basket", "Payable", "Till"] ∧
    (parse "Cart" (cartDenial.reply "Cart\n" "Pay\n")).blocks = [] := by
  have hasked : Source.isPlausible "Cart\n" "Pay\n" = true := by decide
  have hnames : cartDenial.names = ["Basket", "Payable", "Till"] := by decide
  obtain ⟨hparse, hblocks⟩ := parse_denial hasked cartDenial "Cart"
  exact ⟨hasked, hnames ▸ hparse, hblocks⟩

end Written

end CallTrace.Reply
