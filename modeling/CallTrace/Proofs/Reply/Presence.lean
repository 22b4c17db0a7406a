/-
The foreword of a reply does not say that the method is missing.

Each phrase that says so has `no` or `not` in it with another word after
it, which is one of a few. The foreword has no such pair of words, whatever
the names in it are: no blank stands in a name, and a line feed at the end
of one is followed by a mark.
-/
import CallTrace.Proofs.Reply.Labels
import CallTrace.Proofs.Text.Lines
import CallTrace.Proofs.Text.Pattern
import CallTrace.Proofs.Text.Qualified
import CallTrace.Source.TypeName

namespace CallTrace.Reply

open Text Text.Pattern Written

-- ======================================================== the two words

/-- The last letter of `no` or of `not`. -/
def endsNo (c : Char) : Bool := fold c == 'o' || fold c == 't'

/-- The first letter of `found`, `exist`, `such` or `method`. -/
def startsNext (c : Char) : Bool :=
  ['f', 'e', 's', 'm'].contains (fold c)

/-- One of the next words, after blanks. -/
def nextFollows : List Char → Bool
  | [] => false
  | c :: rest => startsNext c || (isBlank c && nextFollows rest)

/-- Somewhere what may be `no` or `not` is followed by a blank and what may
be one of the next words. -/
def hasDenial : List Char → Bool
  | [] => false
  | c :: rest =>
    (endsNo c && rest.head?.any isBlank && nextFollows rest) || hasDenial rest

theorem hasDenial_of_suffix {xs ys : List Char} (h : xs <:+ ys)
    (hxs : hasDenial xs = true) : hasDenial ys = true := by
  obtain ⟨front, rfl⟩ := h
  induction front with
  | nil => exact hxs
  | cons c front ih => simp [hasDenial, ih]

/-- A stretch without blanks has no denial of its own where it goes on in no next
word. -/
theorem hasDenial_append {xs rest : List Char}
    (hxs : ∀ c ∈ xs, isBlank c = false)
    (hrest : (rest.head?.any isBlank && nextFollows rest) = false) :
    hasDenial (xs ++ rest) = hasDenial rest := by
  induction xs with
  | nil => rfl
  | cons c xs ih =>
    have hhere : ((xs ++ rest).head?.any isBlank &&
        nextFollows (xs ++ rest)) = false := by
      cases xs with
      | nil => exact hrest
      | cons d xs => simp [hxs d (by simp)]
    rw [List.cons_append, hasDenial, Bool.and_assoc, hhere, Bool.and_false,
      Bool.false_or, ih fun c hc => hxs c (.tail _ hc)]

-- =========================================================== the phrases

variable {a b : Pattern}

/-- Every match ends in the last letter of `no` or of `not`. -/
def EndsNo (a : Pattern) : Prop :=
  ∀ k, ∀ e ∈ a k, ∃ c, endsNo c = true ∧ c :: e.rest <:+ k.rest

/-- Every match starts as one of the next words. -/
def StartsNext (a : Pattern) : Prop :=
  ∀ k, ∀ e ∈ a k, k.rest.head?.any startsNext = true

/-- A text in which the pattern matches has a denial. -/
def Denies (a : Pattern) : Prop := ∀ k, ∀ e ∈ a k, hasDenial k.rest = true

/-- A word whose last letter is that of `no` or of `not` ends as one of
them does. -/
theorem endsNo_caseless {w : String}
    (h : w.toList.getLast?.any (['o', 't'].contains ·) = true) :
    EndsNo (caseless w) := by
  intro k e he
  obtain ⟨done, hk, hw⟩ := mem_caseless he
  cases done using List.reverseRecOn with
  | nil => simp [← hw] at h
  | append_singleton front c =>
    rw [← hw, List.map_append, List.map_singleton,
      List.getLast?_concat] at h
    refine ⟨c, by simpa [endsNo] using h, front, ?_⟩
    rw [hk, List.append_assoc, List.singleton_append]

/-- A word that starts as one of the next words does. -/
theorem startsNext_caseless {w : String}
    (h : w.toList.head?.any (['f', 'e', 's', 'm'].contains ·) = true) :
    StartsNext (caseless w) := by
  intro k e he
  obtain ⟨done, hk, hw⟩ := mem_caseless he
  cases done with
  | nil => simp [← hw] at h
  | cons c rest =>
    rw [← hw] at h
    rw [hk]
    exact h

theorem StartsNext.seq (h : StartsNext a) (b : Pattern) :
    StartsNext (Pattern.seq a b) := by
  intro k e he
  obtain ⟨m, hm, -⟩ := mem_seq.1 he
  exact h k m hm

/-- What may be left out before one of the next words starts as one of
them, if it does when it is there. -/
theorem StartsNext.optional (ha : StartsNext a) (hb : StartsNext b) :
    StartsNext (Pattern.seq (Pattern.optional a) b) := by
  intro k e he
  obtain ⟨m, hm, he⟩ := mem_seq.1 he
  obtain ⟨c, hc, hmatch⟩ := mem_any.1 hm
  rcases List.mem_cons.1 hc with rfl | hc
  · exact ha k m hmatch
  · rw [List.mem_singleton.1 hc] at hmatch
    rw [List.mem_singleton.1 hmatch] at he
    exact hb k e he

/-- Blanks do not hide one of the next words. -/
theorem nextFollows_append {blanks rest : List Char}
    (hblanks : ∀ c ∈ blanks, isBlank c = true)
    (hrest : rest.head?.any startsNext = true) :
    nextFollows (blanks ++ rest) = true := by
  induction blanks with
  | nil =>
    cases rest with
    | nil => cases hrest
    | cons c rest =>
      have hc : startsNext c = true := hrest
      simp [nextFollows, hc]
  | cons c blanks ih =>
    have hc := hblanks c (.head _)
    simp [nextFollows, hc, ih fun d hd => hblanks d (.tail _ hd)]

/-- The two words make a denial. -/
theorem EndsNo.denies (ha : EndsNo a) (hb : StartsNext b) :
    Denies (Pattern.seq a (Pattern.seq blanks1 b)) := by
  intro k e he
  obtain ⟨m, hm, he⟩ := mem_seq.1 he
  obtain ⟨n, hn, he⟩ := mem_seq.1 he
  obtain ⟨c, hc, hk⟩ := ha k m hm
  obtain ⟨d, done, hrest, hd, hdone⟩ := mem_run1 hn
  have hnext : nextFollows m.rest = true := by
    rw [hrest, ← List.cons_append]
    exact nextFollows_append (List.forall_mem_cons.2 ⟨hd, hdone⟩)
      (hb n e he)
  have hblank : m.rest.head?.any isBlank = true := by
    rw [hrest]
    exact hd
  refine hasDenial_of_suffix hk ?_
  simp [hasDenial, hc, hblank, hnext]

theorem denies_seq (ha : Advances a) (hb : Denies b) :
    Denies (Pattern.seq a b) := by
  intro k e he
  obtain ⟨m, hm, he⟩ := mem_seq.1 he
  exact hasDenial_of_suffix (ha k m hm) (hb m e he)

/-- Each of the phrases of absence holds one of the denials. -/
theorem denies_absencePhrases : ∀ a ∈ absencePhrases, Denies a := by
  have hnot : EndsNo (caseless "not") := endsNo_caseless (by decide)
  have hno : EndsNo (caseless "no") := endsNo_caseless (by decide)
  have hfound : StartsNext (caseless "found") :=
    startsNext_caseless (by decide)
  have hexist : StartsNext (caseless "exist") :=
    startsNext_caseless (by decide)
  have hsuch : StartsNext (caseless "such") :=
    startsNext_caseless (by decide)
  have hmethod : StartsNext (caseless "method") :=
    startsNext_caseless (by decide)
  intro a ha
  simp only [absencePhrases, List.mem_cons, List.not_mem_nil, or_false]
    at ha
  rcases ha with rfl | rfl | rfl | rfl | rfl
  · exact denies_seq advances_run1 <| denies_seq advances_run <|
      denies_seq (advances_caseless _) <| denies_seq advances_run1 <|
      hnot.denies (hfound.seq _)
  · exact denies_seq advances_boundary <| hnot.denies (hfound.seq _)
  · exact denies_seq advances_boundary <|
      denies_seq (advances_caseless _) <| denies_seq advances_run1 <|
      hnot.denies (hexist.seq _)
  · exact denies_seq advances_boundary <|
      hno.denies ((hsuch.seq _).optional (hmethod.seq _))
  · exact denies_seq (advances_caseless _) <| denies_seq advances_run1 <|
      denies_seq (advances_caseless _) <| denies_seq advances_run1 <|
      denies_seq (advances_caseless _) <| denies_seq advances_run <|
      denies_seq advances_run <| denies_seq advances_one.optional <|
      denies_seq advances_run <| denies_seq advances_run <|
      denies_seq advances_run <| denies_seq advances_run <|
      hnot.denies (hfound.seq _)

theorem hasDenial_of_tellsAbsence {cs : List Char}
    (h : tellsAbsence cs = true) : hasDenial cs = true := by
  obtain ⟨a, ha, hoccurs⟩ := List.any_eq_true.1 h
  obtain ⟨k, e, hk, he⟩ := exists_of_occursIn hoccurs
  exact hasDenial_of_suffix hk (denies_absencePhrases a ha k e he)

-- ========================================================== the foreword

/-- A name that is let through: characters of names and of what joins them,
and perhaps a line feed. -/
def IsNamed (cs : List Char) : Prop :=
  ∃ front, (cs = front ∨ cs = front ++ ['\n']) ∧
    ∀ c ∈ front, isIdentRest c = true ∨ c ∈ ['.', ':', '-', '>']

/-- Plausible names are made of names, their joints, and at most a line
feed at the end. -/
theorem isNamed_of_isPlausible {typeName method : String}
    (h : Source.isPlausible typeName method = true) :
    IsNamed typeName.toList ∧ IsNamed method.toList := by
  simp only [Source.isPlausible, Bool.and_eq_true] at h
  obtain ⟨⟨-, htype⟩, hmethod⟩ := h
  constructor
  · obtain ⟨front, hfront, hcs⟩ := exists_of_upToFinalBreak htype
    refine ⟨front, hcs, fun c hc => ?_⟩
    rcases mem_segments_go false [] front (.inr hc) with hjoint |
      ⟨piece, hpiece, hc⟩
    · exact .inr hjoint
    · exact .inl (isIdentRest_of_mem
        (List.all_eq_true.1 hfront piece hpiece) hc)
  · obtain ⟨front, hfront, hcs⟩ := exists_of_upToFinalBreak hmethod
    exact ⟨front, hcs, fun c hc => .inl (isIdentRest_of_mem hfront hc)⟩

namespace IsNamed

variable {cs : List Char} (h : IsNamed cs)

include h

/-- No name has a character that is neither of names nor a line feed. -/
theorem not_mem {c : Char} (hrest : isIdentRest c = false)
    (hmark : c ∉ ['.', ':', '-', '>', '\n']) : c ∉ cs := by
  obtain ⟨front, hcs, hfront⟩ := h
  have hmem : c ∉ front := by
    intro hc
    rcases hfront c hc with hc | hc
    · simp [hc] at hrest
    · exact hmark (by simp_all)
  rcases hcs with rfl | rfl
  · exact hmem
  · simp_all

/-- A name has no denial, and none reaches over it: what follows decides.
-/
theorem hasDenial_append {d : Char} (hblank : isBlank d = false)
    (hnext : startsNext d = false) (rest : List Char) :
    hasDenial (cs ++ d :: rest) = hasDenial (d :: rest) := by
  obtain ⟨front, hcs, hfront⟩ := h
  have hplain : ∀ c ∈ front, isBlank c = false := fun c hc =>
    isBlank_of_mem_path (hfront c hc)
  rcases hcs with rfl | rfl
  · exact Reply.hasDenial_append hplain (by simp [hblank])
  · have hline : nextFollows ('\n' :: d :: rest) = false := by
      have hfeed : startsNext '\n' = false := by decide
      simp [nextFollows, hfeed, hblank, hnext]
    have hfeed : endsNo '\n' = false := by decide
    rw [List.append_assoc, List.singleton_append,
      Reply.hasDenial_append hplain (by rw [hline, Bool.and_false]),
      hasDenial, hfeed, Bool.false_and, Bool.false_and, Bool.false_or]

end IsNamed

/-- The heading of a reply opens no block. -/
theorem opensBlock?_analysis (rest : List Char) :
    opensBlock? ("## Method Analysis: ".toList ++ rest) = none := by
  have htitle : ∀ p, p 'M' = false → ∀ cs,
      trimRightOf p ('M' :: cs) = 'M' :: trimRightOf p cs :=
    fun p hp cs => trimRightOf_cons hp
  have hheading : heading? ("## Method Analysis: ".toList ++ rest) =
      some (trimRight (trimRightOf (· == '#') (trimRight
        ('M' :: ("ethod Analysis: ".toList ++ rest))))) := rfl
  have hblock : ∀ cs, blockTitle? ('M' :: cs) = none := fun _ => rfl
  rw [opensBlock?, hheading, trimRight, trimRight,
    htitle isBlank (by decide), htitle _ (by decide),
    htitle isBlank (by decide), Option.bind_eq_bind, Option.bind_some,
    hblock]
  rfl

theorem caption_eq (typeName method : String) :
    caption typeName method = "## Method Analysis: ".toList ++
      (typeName.toList ++ '.' :: (method.toList ++ "()".toList)) := rfl

section

variable {typeName method : String}
  (h : Source.isPlausible typeName method = true)

include h

/-- The foreword of a written reply does not tell absence. -/
theorem tellsAbsence_foreword :
    tellsAbsence (joinWith ['\n'] (foreword typeName method)) = false := by
  obtain ⟨htype, hmethod⟩ := isNamed_of_isPlausible h
  have htext : joinWith ['\n'] (foreword typeName method) =
      "## Method Analysis: ".toList ++ (typeName.toList ++ '.' ::
        (method.toList ++ '(' :: ')' :: '\n' ::
          joinWith ['\n'] finding)) := by
    have hne : finding ≠ [] := List.cons_ne_nil _ _
    have hclose : "()".toList = ['(', ')'] := rfl
    rw [foreword, joinWith_cons hne, caption_eq, hclose]
    simp only [List.append_assoc, List.cons_append, List.nil_append]
  have hname : ∀ rest, hasDenial ("## Method Analysis: ".toList ++ rest) =
      hasDenial rest := fun _ => rfl
  have hdot : ∀ rest, hasDenial ('.' :: rest) = hasDenial rest :=
    fun _ => rfl
  have hend : hasDenial ('(' :: ')' :: '\n' :: joinWith ['\n'] finding) =
      false := by decide
  have hnone : hasDenial (joinWith ['\n'] (foreword typeName method)) =
      false := by
    rw [htext, hname, htype.hasDenial_append (by decide) (by decide), hdot,
      hmethod.hasDenial_append (by decide) (by decide), hend]
  by_contra habsent
  have hdenial := hasDenial_of_tellsAbsence (by simpa using habsent)
  rw [hnone] at hdenial
  cases hdenial

/-- No line of the caption opens a block: the first one has another title,
and the others, if there are any, have no number signs. -/
theorem opensBlock?_of_mem_caption :
    ∀ l ∈ splitOn '\n' (caption typeName method), opensBlock? l = none := by
  obtain ⟨htype, hmethod⟩ := isNamed_of_isPlausible h
  have hsign : '#' ∉ typeName.toList ++ '.' :: (method.toList ++
      "()".toList) := by
    have htypeSign := htype.not_mem (c := '#') (by decide) (by decide)
    have hmethodSign := hmethod.not_mem (c := '#') (by decide) (by decide)
    simp [htypeSign, hmethodSign]
  have hplain : ∀ l ∈ splitOn '\n' (typeName.toList ++ '.' ::
      (method.toList ++ "()".toList)), opensBlock? l = none := by
    intro l hl
    refine opensBlock?_eq_none ?_
    rw [isHeading, heading?_eq_none fun hmem =>
      hsign (mem_of_mem_splitOn hl hmem)]
    rfl
  have hfeed : '\n' ∉ "## Method Analysis: ".toList := by decide
  rw [caption_eq, splitOn_append_of_not_mem hfeed]
  cases hlines : splitOn '\n' (typeName.toList ++ '.' ::
      (method.toList ++ "()".toList)) with
  | nil => exact absurd hlines (splitOn_ne_nil _ _)
  | cons first rest =>
    rw [hlines] at hplain
    refine List.forall_mem_cons.2
      ⟨opensBlock?_analysis first, fun l hl => hplain l (.tail _ hl)⟩

end

end CallTrace.Reply
