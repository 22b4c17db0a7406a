/-
The ways to ask for a method.

A type and a method can be given as two words or in dotted form, with the
name of the tool in front or, in dotted form, without it. In dotted form
after the name of the tool every type and method is understood, since a
text with a dot in it is none of the fixed commands. The other forms share
their words with something else: two words may be a fixed command or the
change of the model, and a type may begin as the name of the tool does.
Nothing else comes between, so each form is understood exactly where this
is not so.
-/
import CallTrace.Proofs.Text.Case
import CallTrace.Proofs.Text.Pattern
import CallTrace.Request
import CallTrace.Source.TypeName

namespace CallTrace

open Text Text.Pattern

-- ============================================================ characters

namespace Text

variable {c : Char} {cs : List Char}

theorem lower_append (cs ds : List Char) :
    lower (cs ++ ds) = lower cs ++ lower ds := List.flatMap_append

theorem mem_lower {d : Char} (hc : c ∈ cs) (hd : d ∈ lowerChar c) :
    d ∈ lower cs := List.mem_flatMap.2 ⟨c, hc, hd⟩

/-- Lowering makes nothing but letters and a mark out of other
characters. -/
theorem mem_lowerChar {d : Char} (h : d ∈ lowerChar c) :
    d = c ∨ d.isLower = true ∨ d = Char.ofNat 0x307 := by
  have hsmall := forall_ascii (p := fun c =>
    c.toLower = c ∨ c.toLower.isLower = true) (by decide)
  rw [lowerChar] at h
  split at h
  · rename_i hascii
    rw [List.mem_singleton.1 h]
    exact (hsmall c hascii).imp_right .inl
  split at h
  · rw [List.mem_singleton.1 h]
    exact .inr (.inl rfl)
  split at h
  · rcases List.mem_cons.1 h with rfl | h
    · exact .inr (.inl rfl)
    · exact .inr (.inr (List.mem_singleton.1 h))
  · exact .inl (List.mem_singleton.1 h)

/-- Lowering makes no blanks. -/
theorem isBlank_of_mem_lower (h : ∀ c ∈ cs, isBlank c = false) :
    ∀ c ∈ lower cs, isBlank c = false := by
  have hletter := forall_ascii (p := fun c =>
    c.isLower = true → isBlank c = false) (by decide)
  intro d hd
  obtain ⟨c, hc, hd⟩ := List.mem_flatMap.1 hd
  rcases mem_lowerChar hd with rfl | hlower | rfl
  · exact h d hc
  · refine hletter d ?_ hlower
    unfold Char.isLower at hlower
    simp only [Bool.and_eq_true, decide_eq_true_eq] at hlower
    have hz := UInt32.le_iff_toNat_le.1 hlower.2
    simp only [isAscii, decide_eq_true_eq]
    exact Nat.lt_of_le_of_lt hz (by decide)
  · decide

/-- Lowering a text does not empty it. -/
theorem lower_ne_nil (h : cs ≠ []) : lower cs ≠ [] := by
  obtain ⟨c, rest, rfl⟩ := List.exists_cons_of_ne_nil h
  have hc : lowerChar c ≠ [] := by
    unfold lowerChar
    split
    · simp
    split
    · simp
    split <;> simp
  simp [lower, hc]

/-- What a caseless pattern takes for a `w` is a word character. -/
theorem isWord_of_fold (h : fold c = 'w') : isWord c = true := by
  have hsmall := forall_ascii (p := fun c =>
    fold c = 'w' → isWord c = true) (by decide)
  by_cases hascii : isAscii c = true
  · exact hsmall c hascii h
  · rw [fold, if_neg hascii] at h
    split at h
    · cases h
    split at h
    · cases h
    split at h
    · cases h
    · rw [h] at hascii
      exact absurd (by decide) hascii

/-- A caseless word matches what folds to it. -/
theorem Pattern.literalBy_fold {w done : List Char} (h : done.map fold = w)
    (before : Option Char) (rest : List Char) :
    literalBy (fun w c => w == fold c) w ⟨before, done ++ rest⟩ =
      [⟨done.getLast?.or before, rest⟩] := by
  induction done generalizing w before with
  | nil =>
    subst h
    rfl
  | cons c done ih =>
    subst h
    have hlast : (c :: done).getLast?.or before =
        done.getLast?.or (some c) := by
      cases done with
      | nil => rfl
      | cons d done => simp [List.getLast?_cons]
    simp only [List.map_cons, List.cons_append, literalBy, BEq.rfl, if_true]
    rw [ih rfl, hlast]

/-- A text has no blanks if none is met on going through it. -/
theorem plain_of_all {cs : List Char} (h : cs.all (!isBlank ·) = true) :
    ∀ c ∈ cs, isBlank c = false := by
  simpa using h

/-- A word: it is not empty, and has no blanks. -/
structure IsSolid (w : List Char) : Prop where
  ne_nil : w ≠ []
  plain : ∀ c ∈ w, isBlank c = false

namespace IsSolid

variable {x y : List Char}

theorem lower (h : IsSolid x) : IsSolid (lower x) :=
  ⟨lower_ne_nil h.ne_nil, isBlank_of_mem_lower h.plain⟩

theorem words (h : IsSolid x) : words x = [x] :=
  words_of_word h.ne_nil h.plain

theorem words_pair (hx : IsSolid x) (hy : IsSolid y) :
    Text.words (x ++ ' ' :: y) = [x, y] := by
  rw [words_append hx.ne_nil hx.plain (by decide), hy.words]

/-- A text between words is left as it is by trimming. -/
theorem trim_append (hx : IsSolid x) (hy : IsSolid y) (cs : List Char) :
    trim (x ++ cs ++ y) = x ++ cs ++ y := by
  refine trimOf_eq_self_iff.2 ⟨fun c hc => hx.plain c ?_,
    fun c hc => hy.plain c ?_⟩
  · rw [List.append_assoc, List.head?_append_of_ne_nil _ hx.ne_nil] at hc
    exact List.mem_of_mem_head? hc
  · rw [List.getLast?_append_of_ne_nil _ hy.ne_nil] at hc
    exact List.mem_of_mem_getLast? hc

end IsSolid

end Text

namespace Request

-- ====================================================== without the tool

/-- What a message asks for, once the name of the tool is taken off. -/
def ofText (clean : List Char) : Request :=
  let phrase := String.ofList (squeeze (lower clean))
  match commands.find? (·.1 == phrase) with
  | some (_, r) => r
  | none => ofWords clean (words clean)

/-- A message is read without the name of the tool before it. -/
theorem parse_eq (message : String) :
    parse message = ofText
      (trim ((after? toolName (trim message.toList)).getD
        (trim message.toList))) := by
  -- Its equation would run into the name of the tool.
  delta parse
  dsimp only
  generalize trim ((after? toolName (trim message.toList)).getD
    (trim message.toList)) = clean
  rfl

theorem ofText_of_none {clean phrase : List Char}
    (hphrase : squeeze (lower clean) = phrase)
    (h : commands.find? (·.1 == String.ofList phrase) = none) :
    ofText clean = ofWords clean (words clean) := by
  simp only [ofText, hphrase, h]

theorem ofText_of_some {clean phrase : List Char}
    (hphrase : squeeze (lower clean) = phrase) {e : String × Request}
    (h : commands.find? (·.1 == String.ofList phrase) = some e) :
    ofText clean = e.2 := by
  simp only [ofText, hphrase, h]

/-- No fixed command traces a method. -/
theorem commands_not_analyze {phrase : String} {e : String × Request}
    (h : commands.find? (·.1 == phrase) = some e) (t m : String) :
    e.2 ≠ analyze t m := by
  have hmem := List.mem_of_find?_eq_some h
  simp only [commands, List.mem_cons, List.not_mem_nil, or_false] at hmem
  rcases hmem with rfl | rfl | rfl | rfl | rfl | rfl <;> simp

/-- A phrase with a dot is no fixed command. -/
theorem commands_of_dot {phrase : List Char} (h : '.' ∈ phrase) :
    commands.find? (·.1 == String.ofList phrase) = none := by
  have hdots : ∀ e ∈ commands, '.' ∉ e.1.toList := by decide
  refine List.find?_eq_none.2 fun e he hsame => hdots e he ?_
  rw [beq_iff_eq.1 hsame, String.toList_ofList]
  exact h

/-- A fixed command of two words is one about the model or the cache. -/
theorem commands_of_words {x y : List Char} {e : String × Request}
    (hx : IsSolid x) (hy : IsSolid y)
    (h : commands.find? (·.1 == String.ofList (x ++ ' ' :: y)) = some e) :
    x = "model".toList ∨
      x = "cache".toList ∧ (y = "clear".toList ∨ y = "stats".toList) := by
  have hsame : (e.1 == String.ofList (x ++ ' ' :: y)) = true :=
    List.find?_some (p := fun e : String × Request =>
      e.1 == String.ofList (x ++ ' ' :: y)) h
  have htext : e.1.toList = x ++ ' ' :: y := by
    rw [beq_iff_eq.1 hsame, String.toList_ofList]
  have hall : ∀ e ∈ commands, (words e.1.toList).length = 1 ∨
      (words e.1.toList).head? = some "model".toList ∨
      words e.1.toList = ["cache".toList, "clear".toList] ∨
      words e.1.toList = ["cache".toList, "stats".toList] := by decide
  have hcases := hall e (List.mem_of_find?_eq_some h)
  rw [htext, hx.words_pair hy] at hcases
  rcases hcases with h | h | h | h
  · cases h
  · exact .inl (Option.some.inj h)
  · obtain ⟨rfl, hy⟩ := List.cons.inj h
    exact .inr ⟨rfl, .inl (List.cons.inj hy).1⟩
  · obtain ⟨rfl, hy⟩ := List.cons.inj h
    exact .inr ⟨rfl, .inr (List.cons.inj hy).1⟩

/-- The name of a type is also that of the change of the model. -/
def NamesModel (t : List Char) : Prop := lower t = "model".toList

/-- The names of a type and a method are also the words of a command about
the cache. -/
def NamesCache (t m : List Char) : Prop :=
  lower t = "cache".toList ∧
    (lower m = "clear".toList ∨ lower m = "stats".toList)

/-- Two words are the change of the model, a command about the cache, or a
type and a method. -/
theorem ofText_pair_iff {t w : List Char} (ht : IsSolid t) (hw : IsSolid w)
    (hdash : '-' ∉ t) :
    ofText (t ++ ' ' :: w) =
        analyze (String.ofList t) (String.ofList (dropEmptyCall w)) ↔
      ¬NamesModel t ∧ ¬NamesCache t w := by
  have hlower : lower (t ++ ' ' :: w) = lower t ++ ' ' :: lower w := by
    rw [lower_append]
    rfl
  have hphrase : squeeze (lower (t ++ ' ' :: w)) =
      lower t ++ ' ' :: lower w := by
    rw [squeeze, hlower, ht.lower.words_pair hw.lower]
    simp [joinWith, List.intercalate]
  have hchange : lower t ≠ "change-model".toList := by
    intro h
    have hmem : '-' ∈ lower t := by
      rw [h]
      decide
    obtain ⟨c, hc, hd⟩ := List.mem_flatMap.1 hmem
    rcases mem_lowerChar hd with rfl | hlow | hmark
    · exact hdash hc
    · exact absurd hlow (by decide)
    · exact absurd hmark (by decide)
  rcases hfind : commands.find? (·.1 == String.ofList
    (lower t ++ ' ' :: lower w)) with _ | e
  · -- No fixed command, so the first word decides.
    have hcache : ¬NamesCache t w := by
      rintro ⟨hcache, hclear | hstats⟩
      · rw [hcache, hclear] at hfind
        exact absurd hfind (by decide)
      · rw [hcache, hstats] at hfind
        exact absurd hfind (by decide)
    have hfirst : (["change-model", "model"].contains
        (String.ofList (lower t))) = true ↔ NamesModel t := by
      rw [List.contains_cons, List.contains_cons, List.contains_nil,
        Bool.or_false, Bool.or_eq_true, beq_iff_eq, beq_iff_eq,
        ← String.toList_inj, ← String.toList_inj, String.toList_ofList]
      exact or_iff_right hchange
    rw [ofText_of_none hphrase hfind, ht.words_pair hw, ofWords]
    by_cases hmodel : NamesModel t
    · rw [if_pos (hfirst.2 hmodel)]
      exact iff_of_false (by simp) fun h => h.1 hmodel
    · rw [if_neg fun h => hmodel (hfirst.1 h)]
      exact iff_of_true rfl ⟨hmodel, hcache⟩
  · rw [ofText_of_some hphrase hfind]
    refine iff_of_false (commands_not_analyze hfind _ _)
      fun ⟨hmodel, hcache⟩ => ?_
    exact (commands_of_words ht.lower hw.lower hfind).elim hmodel hcache

-- ============================================================ dotted form

/-- A pair of empty parentheses at the end is dropped, and nothing
else. -/
theorem dropEmptyCall_append (cs : List Char) :
    dropEmptyCall (cs ++ "()".toList) = cs := by
  simp [dropEmptyCall]

/-- A name at the end of a text is no empty call. -/
theorem dropEmptyCall_of_ident (cs : List Char) {m : List Char}
    (hm : isIdent m = true) : dropEmptyCall (cs ++ m) = cs ++ m := by
  obtain ⟨front, c, rfl⟩ :=
    (List.eq_nil_or_concat' m).resolve_left (isIdent_ne_nil hm)
  have hc : c ≠ ')' := by
    rintro rfl
    have := isIdentRest_of_mem hm (c := ')') (by simp)
    exact absurd this (by decide)
  rw [dropEmptyCall]
  split
  · rename_i hrev
    simp only [List.reverse_append, List.reverse_cons, List.reverse_nil,
      List.nil_append, List.cons_append, List.cons.injEq] at hrev
    exact absurd hrev.1 hc
  · rfl

/-- A method after a dot, with or without an empty pair of parentheses. -/
def IsTail (m tail : List Char) : Prop := tail = m ∨ tail = m ++ "()".toList

theorem dropEmptyCall_tail {m tail : List Char} (hm : isIdent m = true)
    (h : IsTail m tail) (cs : List Char) :
    dropEmptyCall (cs ++ tail) = cs ++ m := by
  rcases h with rfl | rfl
  · exact dropEmptyCall_of_ident cs hm
  · rw [← List.append_assoc, dropEmptyCall_append]

/-- The tail of a dotted request is one word. -/
theorem IsTail.solid {m tail : List Char} (hm : isIdent m = true)
    (h : IsTail m tail) : IsSolid tail := by
  have hplain : ∀ c ∈ m, isBlank c = false := fun c hc =>
    isBlank_of_isIdentRest (isIdentRest_of_mem hm hc)
  rcases h with rfl | rfl
  · exact ⟨isIdent_ne_nil hm, hplain⟩
  · refine ⟨by simp [isIdent_ne_nil hm], ?_⟩
    rw [List.forall_mem_append]
    exact ⟨hplain, plain_of_all (by decide)⟩

/-- The last dot is where the method begins. -/
theorem dotted?_eq {t m tail : List Char}
    (ht : ∀ c ∈ t, isTypeChar c = true) (hm : isIdent m = true)
    (h : IsTail m tail) :
    dotted? (t ++ '.' :: tail) = if t = [] then none else some (t, m) := by
  have hdrop : dropEmptyCall (t ++ '.' :: tail) = t ++ '.' :: m := by
    have := dropEmptyCall_tail hm h (t ++ ['.'])
    simpa using this
  have hback : (t ++ '.' :: m).reverse = m.reverse ++ '.' :: t.reverse := by
    simp
  have hspan : (m.reverse ++ '.' :: t.reverse).span isIdentRest =
      (m.reverse, '.' :: t.reverse) :=
    span_append (fun c hc => isIdentRest_of_mem hm (List.mem_reverse.1 hc))
      (by rintro c ⟨⟩; decide)
  rw [List.span_eq_takeWhile_dropWhile, Prod.mk.injEq] at hspan
  simp only [dotted?, hdrop, hback, hspan.1, hspan.2, List.reverse_reverse,
    hm, Bool.true_and]
  have hall : t.all isTypeChar = true := List.all_eq_true.2 ht
  cases t <;> simp_all

/-- A dotted request is read as its type and method, and refused where the
type is missing. -/
theorem ofText_dotted {t m tail : List Char}
    (ht : ∀ c ∈ t, isTypeChar c = true) (hm : isIdent m = true)
    (h : IsTail m tail) :
    (t ≠ [] → ofText (t ++ '.' :: tail) =
      analyze (String.ofList t) (String.ofList m)) ∧
    (t = [] → ∃ message, ofText (t ++ '.' :: tail) = invalid message) := by
  have hdot : '.' ∈ lower (t ++ '.' :: tail) :=
    mem_lower (c := '.') (by simp) (by decide)
  have hsolid : IsSolid (t ++ '.' :: tail) := by
    refine ⟨by simp, fun c hc => ?_⟩
    rcases List.mem_append.1 hc with hc | hc
    · have hkind := ht c hc
      simp only [isTypeChar, Bool.or_eq_true, beq_iff_eq] at hkind
      rcases hkind with ((hword | rfl) | rfl) | rfl
      · exact isBlank_of_isWord hword
      all_goals decide
    · rcases List.mem_cons.1 hc with rfl | hc
      · decide
      · exact (h.solid hm).plain c hc
  have hfirst : ¬(["change-model", "model"].contains
      (String.ofList (lower (t ++ '.' :: tail)))) = true := by
    intro hmem
    simp only [List.contains_cons, List.contains_nil, Bool.or_false,
      Bool.or_eq_true, beq_iff_eq, ← String.toList_inj,
      String.toList_ofList] at hmem
    rcases hmem with hmem | hmem <;> rw [hmem] at hdot <;>
      exact absurd hdot (by decide)
  have hphrase : '.' ∈ squeeze (lower (t ++ '.' :: tail)) := by
    rw [squeeze, hsolid.lower.words]
    simpa [joinWith, List.intercalate] using hdot
  rw [ofText_of_none rfl (commands_of_dot hphrase), hsolid.words, ofWords,
    if_neg hfirst, dotted?_eq ht hm h]
  exact ⟨fun hne => by simp [hne], fun hnil => by simp [hnil]⟩

-- ================================================================ the tool

/-- The name of a type begins as the name of the tool, in any letter case,
and does not go on with a word character. -/
def NamesTool (t : List Char) : Prop :=
  ∃ name rest, t = name ++ rest ∧ name.map fold = "flow".toList ∧
    rest.head?.any isWord = false

/-- A text that starts with neither a blank nor a mark of address starts
with the name of the tool, or there is none to take off. -/
theorem toolName_eq {cs : List Char}
    (hblank : ∀ c ∈ cs.head?, isBlank c = false)
    (hmark : ∀ c ∈ cs.head?, c ≠ '@') :
    toolName ⟨none, cs⟩ = seq (caseless "flow") boundary ⟨none, cs⟩ := by
  cases cs with
  | nil => rfl
  | cons c rest =>
    have hc : isBlank c = false := hblank c rfl
    have hat : (c == '@') = false := beq_eq_false_iff_ne.2 (hmark c rfl)
    have hnone : ∀ b : Pattern, Pattern.optional (seq (one (· == '@')) b)
        ⟨none, c :: rest⟩ = [⟨none, c :: rest⟩] := by
      intro b
      simp [Pattern.optional, Pattern.any, seq, one, hat, Pattern.empty]
    have hone : Pattern.optional (one (· == '@')) ⟨none, c :: rest⟩ =
        [⟨none, c :: rest⟩] := by
      simp [Pattern.optional, Pattern.any, one, hat, Pattern.empty]
    have hblanks : blanks ⟨none, c :: rest⟩ = [⟨none, c :: rest⟩] := by
      simp [blanks, run, run.go, hc]
    have hempty : ∀ a : Pattern, seq a Pattern.empty = a := by
      intro a
      funext k
      exact List.flatMap_singleton' (a k)
    simp only [toolName, Pattern.all, hempty]
    rw [seq, hblanks, List.flatMap_singleton, seq, hnone,
      List.flatMap_singleton, seq, hone, List.flatMap_singleton]

/-- The name of the tool is taken off where it stands as a word of its own,
in any case. -/
theorem after?_toolName {cs : List Char} (rest : List Char)
    (hblank : ∀ c ∈ cs.head?, isBlank c = false)
    (hmark : ∀ c ∈ cs.head?, c ≠ '@') :
    after? toolName cs = some rest ↔
      ∃ name, cs = name ++ rest ∧ name.map fold = "flow".toList ∧
        rest.head?.any isWord = false := by
  -- The name of the tool ends in a word character, so what follows decides.
  have hends : ∀ {name rest}, name.map fold = "flow".toList →
      seq (caseless "flow") boundary ⟨none, name ++ rest⟩ =
        if rest.head?.any isWord then []
        else [⟨name.getLast?, rest⟩] := by
    intro name rest hname
    obtain ⟨front, c, rfl⟩ := (List.eq_nil_or_concat' name).resolve_left
      (by rintro rfl; cases hname)
    have hc : isWord c = true := by
      have hsplit : front.map fold ++ [fold c] = ['f', 'l', 'o'] ++ ['w'] := by
        rw [← List.map_singleton, ← List.map_append, hname]
        rfl
      exact isWord_of_fold
        (List.cons.inj (List.append_inj_right' hsplit rfl)).1
    have hlast : (front ++ [c]).getLast? = some c := List.getLast?_concat
    rw [seq, caseless, literalBy_fold hname, List.flatMap_singleton, hlast,
      Option.some_or, boundary_of_isWord hc]
  rw [after?, toolName_eq hblank hmark]
  constructor
  · intro h
    obtain ⟨e, he, rfl⟩ := Option.map_eq_some_iff.1 h
    obtain ⟨m, hm, -⟩ := mem_seq.1 (List.mem_of_mem_head? he)
    obtain ⟨name, hcs, hname⟩ := mem_caseless hm
    have hcs : cs = name ++ m.rest := hcs
    rw [hcs, hends hname] at he
    split at he
    · cases he
    · rename_i hrest
      cases he
      exact ⟨name, hcs, hname, by simpa using hrest⟩
  · rintro ⟨name, rfl, hname, hrest⟩
    rw [hends hname, if_neg (by simp [hrest])]
    rfl

-- =============================================================== the forms

/-- A type and a method that are worth a request, without blanks. -/
structure Traceable (t m : String) : Prop where
  nameable : Source.isPlausible t m = true
  typePlain : ∀ c ∈ t.toList, isBlank c = false
  methodPlain : ∀ c ∈ m.toList, isBlank c = false

namespace Traceable

variable {t m : String} (h : Traceable t m)

include h

/-- A name that is plausible and has no blanks has no line feed either, so
it is made of names alone. -/
theorem names :
    allIdents (segments t.toList) = true ∧ isIdent m.toList = true := by
  -- What is let through besides names ends in a line feed, a blank.
  have hfinal : ∀ {p : List Char → Bool} {cs : List Char},
      upToFinalBreak p cs = true → (∀ c ∈ cs, isBlank c = false) →
      p cs = true := by
    intro p cs hp hcs
    obtain ⟨front, hfront, rfl | rfl⟩ := exists_of_upToFinalBreak hp
    · exact hfront
    · exact absurd (hcs '\n' (by simp)) (by decide)
  have hp := h.nameable
  simp only [Source.isPlausible, Bool.and_eq_true] at hp
  exact ⟨hfinal hp.1.2 h.typePlain, hfinal hp.2 h.methodPlain⟩

/-- A type is made of the characters that stand before a dot. -/
theorem isTypeChar : ∀ c ∈ t.toList, isTypeChar c = true := by
  intro c hc
  rcases mem_joints_or_piece false [] t.toList (.inr hc) with hjoint |
    ⟨piece, hpiece, hc⟩
  · simp only [joints, Bool.false_eq_true, if_false, List.mem_cons,
      List.not_mem_nil, or_false] at hjoint
    rcases hjoint with rfl | rfl <;> decide
  · have hrest := isIdentRest_of_mem
      (List.all_eq_true.1 h.names.1 piece hpiece) hc
    rw [isIdentRest, Bool.or_eq_true] at hrest
    rcases hrest with hword | hdollar
    · simp [Request.isTypeChar, hword]
    · simp [Request.isTypeChar, hdollar]

/-- A type starts as a name does. -/
theorem start : ∃ c rest, t.toList = c :: rest ∧ isIdentStart c = true := by
  obtain ⟨front, more, hgo, hfront⟩ := head_segments_go false [] t.toList
  have hident : isIdent front = true :=
    List.all_eq_true.1 h.names.1 front (by
      rw [segments, segmentsBy, hgo]
      exact List.mem_cons_self ..)
  obtain ⟨rest, hrest⟩ := hfront
  cases front with
  | nil => cases hident
  | cons c front =>
    rw [isIdent, Bool.and_eq_true] at hident
    exact ⟨c, front ++ rest, hrest.symm, hident.1⟩

theorem typeSolid : IsSolid t.toList := by
  obtain ⟨c, rest, hcs, -⟩ := h.start
  exact ⟨by simp [hcs], h.typePlain⟩

end Traceable

/-- After the name of the tool the rest of the message is read. -/
theorem parse_flow {x y : List Char} (hx : IsSolid x) (hy : IsSolid y)
    (cs : List Char) {message : String}
    (hmessage : message.toList = "flow ".toList ++ (x ++ cs ++ y)) :
    parse message = ofText (x ++ cs ++ y) := by
  have hflow : IsSolid "flow".toList :=
    ⟨by decide, plain_of_all (by decide)⟩
  have hsplit : message.toList =
      "flow".toList ++ (' ' :: (x ++ cs)) ++ y := by
    rw [hmessage]
    simp
  have htrim : trim message.toList = message.toList := by
    rw [hsplit]
    exact hflow.trim_append hy _
  have hafter : after? toolName message.toList =
      some (' ' :: (x ++ cs ++ y)) := by
    rw [hmessage]
    exact (after?_toolName _ (by rintro c ⟨⟩; decide)
      (by rintro c ⟨⟩; decide)).2
      ⟨"flow".toList, rfl, by decide, (by decide : isWord ' ' = false)⟩
  have hleft : trim (' ' :: (x ++ cs ++ y)) = trim (x ++ cs ++ y) := rfl
  rw [parse_eq, htrim, hafter, Option.getD_some, hleft, hx.trim_append hy]

/-- The dot is not in the name of the tool, so what is taken off a type and
a method in dotted form is taken off the type. -/
theorem after?_dotted {t m : String} (h : Traceable t m)
    (rest : List Char) :
    after? toolName (t.toList ++ '.' :: m.toList) = some rest ↔
      ∃ name more, t.toList = name ++ more ∧
        name.map fold = "flow".toList ∧ more.head?.any isWord = false ∧
        rest = more ++ '.' :: m.toList := by
  obtain ⟨c, front, hfront, hstart⟩ := h.start
  have hhead : ∀ d ∈ (t.toList ++ '.' :: m.toList).head?, d = c := by
    rw [hfront]
    rintro d ⟨⟩
    rfl
  have hblank : ∀ d ∈ (t.toList ++ '.' :: m.toList).head?,
      isBlank d = false := fun d hd =>
    hhead d hd ▸ h.typePlain c (by simp [hfront])
  have hmark : ∀ d ∈ (t.toList ++ '.' :: m.toList).head?, d ≠ '@' := by
    intro d hd
    rw [hhead d hd]
    rintro rfl
    exact absurd hstart (by decide)
  have hword : ∀ more : List Char,
      (more ++ '.' :: m.toList).head?.any isWord =
        more.head?.any isWord := by
    intro more
    cases more with
    | nil => exact (by decide : isWord '.' = false)
    | cons d more => rfl
  rw [after?_toolName rest hblank hmark]
  constructor
  · rintro ⟨name, hcs, hfold, hrest⟩
    obtain ⟨more, hsame, rfl⟩ : ∃ more, t.toList = name ++ more ∧
        rest = more ++ '.' :: m.toList := by
      rcases List.append_eq_append_iff.1 hcs with
        ⟨more, hsame, hmore⟩ | ⟨more, hsame, hmore⟩
      · cases more with
        | nil =>
          exact ⟨[], by simpa using hsame.symm, by simpa using hmore.symm⟩
        | cons d more =>
          have hd : d = '.' := (List.cons.inj hmore).1.symm
          have hmem : fold '.' ∈ "flow".toList := by
            rw [← hfold, hsame, hd]
            simp
          exact absurd hmem (by decide)
      · exact ⟨more, hsame, hmore⟩
    exact ⟨name, more, hsame, hfold, hword more ▸ hrest, rfl⟩
  · rintro ⟨name, more, hsame, hfold, hmore, rfl⟩
    exact ⟨name, by rw [hsame, List.append_assoc], hfold,
      (hword more).trans hmore⟩

/-- If the head of a type is taken off, it is not asked for any more. -/
theorem ofText_headless {t m : String} (h : Traceable t m)
    {name more : List Char} (hsame : t.toList = name ++ more)
    (hname : name ≠ []) :
    ofText (trim (more ++ '.' :: m.toList)) ≠ analyze t m := by
  have hm := h.names.2
  have hplain : IsTail m.toList m.toList := .inl rfl
  have hmore : ∀ d ∈ more, isTypeChar d = true := fun d hd =>
    h.isTypeChar d (by simp [hsame, hd])
  have hsolid : IsSolid (more ++ ['.']) := by
    refine ⟨by simp, fun d hd => ?_⟩
    rcases List.mem_append.1 hd with hd | hd
    · exact h.typePlain d (by simp [hsame, hd])
    · rw [List.mem_singleton.1 hd]
      decide
  have hclean : trim (more ++ '.' :: m.toList) = more ++ '.' :: m.toList := by
    have := hsolid.trim_append (hplain.solid hm) []
    simpa using this
  rw [hclean]
  by_cases hnil : more = []
  · obtain ⟨text, htext⟩ := (ofText_dotted hmore hm hplain).2 hnil
    rw [htext]
    exact fun hwrong => nomatch hwrong
  · -- What is left of the type is shorter than the type.
    rw [(ofText_dotted hmore hm hplain).1 hnil]
    intro hwrong
    have htype : more = t.toList := by
      rw [← (analyze.inj hwrong).1, String.toList_ofList]
    have hlength := congrArg List.length hsame
    rw [List.length_append, htype] at hlength
    exact hname (List.length_eq_zero_iff.1 (by omega))

/-- Without the name of the tool the whole message is read, unless its
type begins as that name does. -/
theorem parse_bare {t m message : String} (h : Traceable t m)
    (hmessage : message.toList = t.toList ++ '.' :: m.toList) :
    parse message = analyze t m ↔ ¬NamesTool t.toList := by
  have hm := h.names.2
  have hplain : IsTail m.toList m.toList := .inl rfl
  have htrim : trim (t.toList ++ '.' :: m.toList) =
      t.toList ++ '.' :: m.toList := by
    have := h.typeSolid.trim_append (hplain.solid hm) ['.']
    simpa using this
  rw [parse_eq, hmessage, htrim]
  rcases hafter : after? toolName (t.toList ++ '.' :: m.toList) with _ | rest
  · have hnone : ¬NamesTool t.toList := by
      rintro ⟨name, more, htool⟩
      have hsome := (after?_dotted h (more ++ '.' :: m.toList)).2
        ⟨name, more, htool.1, htool.2.1, htool.2.2, rfl⟩
      rw [hafter] at hsome
      cases hsome
    refine iff_of_true ?_ hnone
    rw [Option.getD_none, htrim,
      (ofText_dotted h.isTypeChar hm hplain).1 h.typeSolid.ne_nil,
      String.ofList_toList, String.ofList_toList]
  · obtain ⟨name, more, hsame, hfold, hmore, rfl⟩ :=
      (after?_dotted h rest).1 hafter
    have hname : name ≠ [] := by
      rintro rfl
      cases hfold
    exact iff_of_false (ofText_headless h hsame hname)
      (not_not.2 ⟨name, more, hsame, hfold, hmore⟩)

/-- A type and a method that are worth a request are asked for in dotted
form after the name of the tool, with or without parentheses, whatever they
are. As two words they are unless the type has the name of the change of
the model, or both are the words of a command about the cache, which have no
parentheses; and in dotted form alone, unless the type begins as the name
of the tool does and does not go on with a word character. -/
theorem parse_forms {t m : String} (h : Traceable t m) :
    parse ("flow " ++ t ++ "." ++ m) = analyze t m ∧
    parse ("flow " ++ t ++ "." ++ m ++ "()") = analyze t m ∧
    (parse ("flow " ++ t ++ " " ++ m ++ "()") = analyze t m ↔
      ¬NamesModel t.toList) ∧
    (parse ("flow " ++ t ++ " " ++ m) = analyze t m ↔
      ¬NamesModel t.toList ∧ ¬NamesCache t.toList m.toList) ∧
    (parse (t ++ "." ++ m) = analyze t m ↔ ¬NamesTool t.toList) := by
  have ht := h.typeSolid
  have hm := h.names.2
  have hplain : IsTail m.toList m.toList := .inl rfl
  have hcall : IsTail m.toList (m.toList ++ "()".toList) := .inr rfl
  have hdotted : ∀ {tail : List Char} {message : String},
      IsTail m.toList tail →
      message.toList = "flow ".toList ++ (t.toList ++ ['.'] ++ tail) →
      parse message = analyze t m := by
    intro tail message htail hmessage
    rw [parse_flow ht (htail.solid hm) ['.'] hmessage, List.append_assoc,
      List.singleton_append, (ofText_dotted h.isTypeChar hm htail).1 ht.ne_nil,
      String.ofList_toList, String.ofList_toList]
  have hdash : '-' ∉ t.toList := fun hmem =>
    absurd (h.isTypeChar '-' hmem) (by decide)
  have hwords : ∀ {tail : List Char} {message : String},
      IsTail m.toList tail →
      message.toList = "flow ".toList ++ (t.toList ++ [' '] ++ tail) →
      (parse message = analyze t m ↔
        ¬NamesModel t.toList ∧ ¬NamesCache t.toList tail) := by
    intro tail message htail hmessage
    have hpair := ofText_pair_iff ht (htail.solid hm) hdash
    have hdrop : dropEmptyCall tail = m.toList := by
      have := dropEmptyCall_tail hm htail []
      simpa using this
    rw [hdrop, String.ofList_toList, String.ofList_toList] at hpair
    rw [parse_flow ht (htail.solid hm) [' '] hmessage, List.append_assoc,
      List.singleton_append, hpair]
  -- No command has parentheses.
  have hnone : ¬NamesCache t.toList (m.toList ++ "()".toList) := by
    rintro ⟨-, hname⟩
    have hmem : '(' ∈ lower (m.toList ++ "()".toList) :=
      mem_lower (c := '(') (by simp) (by decide)
    rcases hname with hname | hname <;> rw [hname] at hmem <;>
      exact absurd hmem (by decide)
  exact ⟨hdotted hplain (by simp), hdotted hcall (by simp),
    (hwords hcall (by simp)).trans (and_iff_left hnone),
    hwords hplain (by simp), parse_bare h (by simp)⟩

/-- A qualified type, a method, and none of the words of a command. -/
theorem parse_forms_qualified :
    parse "flow store::Cache.clear" = analyze "store::Cache" "clear" ∧
    parse "flow store::Cache clear()" = analyze "store::Cache" "clear" ∧
    parse "flow store::Cache clear" = analyze "store::Cache" "clear" ∧
    parse "store::Cache.clear" = analyze "store::Cache" "clear" := by
  have h := parse_forms (t := "store::Cache") (m := "clear")
    ⟨by decide +kernel, plain_of_all (by decide), plain_of_all (by decide)⟩
  have hmodel : ¬NamesModel "store::Cache".toList := by
    unfold NamesModel
    decide
  have hcache : ¬NamesCache "store::Cache".toList "clear".toList := by
    unfold NamesCache
    decide
  have htool : ¬NamesTool "store::Cache".toList := by
    rintro ⟨_ | ⟨c, name⟩, rest, hsame, hfold, -⟩
    · cases hfold
    · rw [← (List.cons.inj hsame).1] at hfold
      exact absurd (List.cons.inj hfold).1 (by decide)
  obtain ⟨hdotted, -, hcall, hwords, hbare⟩ := h
  exact ⟨hdotted, hcall.2 hmodel, hwords.2 ⟨hmodel, hcache⟩, hbare.2 htool⟩

/-- A type and a method worth a request can be taken for a command, and a
type for the tool: the same two words that are traced in dotted form clear
the cache or change the model, and a type named as the tool is cannot be
traced without it. -/
theorem traceable_taken_for_command :
    Source.isPlausible "Cache" "clear" = true ∧
    parse "flow Cache.clear" = analyze "Cache" "clear" ∧
    parse "flow Cache clear" = clearCache ∧
    Source.isPlausible "Model" "save" = true ∧
    parse "flow Model.save" = analyze "Model" "save" ∧
    parse "flow Model save" = changeModel "save" ∧
    Source.isPlausible "Flow" "run" = true ∧
    parse "flow Flow.run" = analyze "Flow" "run" ∧
    parse "Flow.run" ≠ analyze "Flow" "run" := by
  decide +kernel

end Request

end CallTrace
