/-
Type arguments, taken out in one pass.

Type arguments are taken out group by group, the innermost ones first, for
as long as there are groups. The same text is left when the text is read
once from left to right with a stack of the brackets that are open: a
closing bracket drops what stands behind the last open one, and a bracket
that is never closed stays with all that follows it.
-/
import CallTrace.Proofs.Text.Lines
import CallTrace.Source.Supertypes

namespace CallTrace.Source

variable {cs xs ys : List Char}

-- ===================================================== a stack of brackets

/-- A text that was read up to some place: what stands behind each bracket
that is open there, the innermost one first, and what stands in front of
all of them. Each stretch is reversed. -/
structure Nesting where
  inside : List (List Char) := []
  outside : List Char := []

namespace Nesting

/-- A character that is no bracket, or closes nothing. -/
def hold (s : Nesting) (c : Char) : Nesting :=
  match s.inside with
  | held :: more => ⟨(c :: held) :: more, s.outside⟩
  | [] => ⟨[], c :: s.outside⟩

def read (s : Nesting) (c : Char) : Nesting :=
  if c = '<' then ⟨[] :: s.inside, s.outside⟩
  else if c = '>' ∧ s.inside ≠ [] then ⟨s.inside.tail, s.outside⟩
  else s.hold c

/-- All that is left, reversed: brackets that are open stay. -/
def left (s : Nesting) : List Char :=
  s.inside.foldr (fun held front => held ++ '<' :: front) s.outside

theorem left_hold (s : Nesting) (c : Char) :
    (s.hold c).left = c :: s.left := by
  rw [hold]
  split <;> simp [left, *]

theorem read_plain {c : Char} (hopen : c ≠ '<') (hclose : c ≠ '>')
    (s : Nesting) : s.read c = s.hold c := by
  rw [read, if_neg hopen, if_neg fun h => hclose h.1]

/-- What is read behind an open bracket is dropped with it. -/
theorem read_close {held : List Char} (hopen : '<' ∉ held)
    (hclose : '>' ∉ held) (s : Nesting) :
    (held.foldl read ⟨[] :: s.inside, s.outside⟩).read '>' = s := by
  have hread : ∀ front, held.foldl read ⟨front :: s.inside, s.outside⟩ =
      ⟨(held.reverse ++ front) :: s.inside, s.outside⟩ := by
    induction held with
    | nil => exact fun _ => rfl
    | cons c held ih =>
      intro front
      simp only [List.mem_cons, not_or] at hopen hclose
      rw [List.foldl_cons, read_plain (Ne.symm hopen.1) (Ne.symm hclose.1),
        hold, ih hopen.2 hclose.2]
      simp
  rw [hread]
  rfl

end Nesting

-- ============================================================== one pass

theorem flush_hold (opening c : Char) (b : BracketScan) :
    (b.hold c).flush opening = c :: b.flush opening := by
  obtain ⟨kept, _ | held⟩ := b <;> rfl

/-- A character opens a group, or ends the one that is open, or is one more
of what is read. -/
theorem readAngle_cases (b : BracketScan) (c : Char) :
    (c = '<' ∧ readAngle b c = ⟨b.flush '<', some []⟩) ∨
      (∃ kept held, c = '>' ∧ b = ⟨kept, some held⟩ ∧
        readAngle b c = ⟨kept, none⟩) ∨
      (c ≠ '<' ∧ (c = '>' → b.inside = none) ∧ readAngle b c = b.hold c) := by
  obtain ⟨kept, inside⟩ := b
  by_cases hopen : c = '<'
  · exact .inl ⟨hopen, by rw [readAngle, if_pos (beq_iff_eq.2 hopen)]⟩
  · have hskip : readAngle ⟨kept, inside⟩ c =
        if c == '>' && inside.isSome then ⟨kept, none⟩
        else BracketScan.hold ⟨kept, inside⟩ c := by
      rw [readAngle, if_neg (by simpa using hopen)]
    rw [hskip]
    cases inside with
    | none => exact .inr (.inr ⟨hopen, fun _ => rfl, by simp⟩)
    | some held =>
      by_cases hclose : c = '>'
      · exact .inr (.inl ⟨kept, held, hclose, rfl, by simp [hclose]⟩)
      · exact .inr (.inr ⟨hopen, fun h => absurd h hclose, by simp [hclose]⟩)

/-- What is left of the text, read with a stack, comes to the same as the
text. -/
structure Alike (b : BracketScan) (s : Nesting) : Prop where
  unmarked : ∀ held ∈ b.inside, '<' ∉ held ∧ '>' ∉ held
  alike : (b.flush '<').reverse.foldl Nesting.read {} = s

/-- Both readers take one more character alike. -/
theorem Alike.read {b : BracketScan} {s : Nesting} (h : Alike b s)
    (c : Char) : Alike (readAngle b c) (s.read c) := by
  obtain ⟨hunmarked, rfl⟩ := h
  have hsame : ∀ {b' : BracketScan}, b'.flush '<' = c :: b.flush '<' →
      (b'.flush '<').reverse.foldl Nesting.read {} =
        ((b.flush '<').reverse.foldl Nesting.read {}).read c := by
    intro b' hflush
    rw [hflush, List.reverse_cons, List.foldl_append]
    rfl
  rcases readAngle_cases b c with ⟨rfl, hread⟩ | ⟨kept, held, rfl, rfl, hread⟩ |
    ⟨hopen, hclose, hread⟩
  · rw [hread]
    refine ⟨fun held hheld => ?_, hsame rfl⟩
    obtain rfl := Option.mem_some.1 hheld
    exact ⟨List.not_mem_nil, List.not_mem_nil⟩
  · -- The stack drops the group as well.
    obtain ⟨hheldOpen, hheldClose⟩ := hunmarked held rfl
    have hgroup : (BracketScan.flush '<' ⟨kept, some held⟩).reverse =
        kept.reverse ++ '<' :: held.reverse := by
      simp [BracketScan.flush]
    rw [hread, hgroup, List.foldl_append, List.foldl_cons]
    refine ⟨fun held h => absurd h (Option.not_mem_none held), Eq.symm ?_⟩
    exact Nesting.read_close (by simpa using hheldOpen)
      (by simpa using hheldClose) _
  · rw [hread]
    refine ⟨fun held' hheld => ?_, hsame (flush_hold '<' c b)⟩
    obtain ⟨kept, _ | held⟩ := b
    · cases hheld
    · obtain rfl := Option.mem_some.1 hheld
      obtain ⟨hheldOpen, hheldClose⟩ := hunmarked held rfl
      have hc : c ≠ '>' := fun h => absurd (hclose h) (Option.some_ne_none held)
      simp [Ne.symm hopen, Ne.symm hc, hheldOpen, hheldClose]

/-- Dropping the innermost groups leaves the nesting as it was. -/
theorem foldl_read_dropInnermost (cs : List Char) :
    (dropInnermost cs).foldl Nesting.read {} =
      cs.foldl Nesting.read {} := by
  have hrun : ∀ {b : BracketScan} {s : Nesting}, Alike b s →
      Alike (cs.foldl readAngle b) (cs.foldl Nesting.read s) := by
    induction cs with
    | nil => exact id
    | cons c cs ih => exact fun h => ih (h.read c)
  have hstart : Alike {} {} :=
    ⟨fun held h => absurd h (Option.not_mem_none held), rfl⟩
  exact (hrun hstart).alike

/-- Nothing has been dropped so far. -/
structure AllKept (done : List Char) (b : BracketScan) (s : Nesting) :
    Prop where
  flush : b.flush '<' = done
  left : s.left = done
  inside : b.inside = none → s.inside = []

/-- Either all is kept, or less is left than was read. -/
def KeptOrShorter (done : List Char) (b : BracketScan) (s : Nesting) : Prop :=
  AllKept done b s ∨ (b.flush '<').length < done.length

/-- One more character keeps this: it is kept, or closes a group that goes.
-/
theorem KeptOrShorter.read {done : List Char} {b : BracketScan} {s : Nesting}
    (h : KeptOrShorter done b s) (c : Char) :
    KeptOrShorter (c :: done) (readAngle b c) (s.read c) := by
  have hlength : (b.flush '<').length ≤ done.length := by
    rcases h with h | h
    · exact Nat.le_of_eq (congrArg List.length h.flush)
    · exact Nat.le_of_lt h
  have hshort : ∀ {b' : BracketScan}, b'.flush '<' = c :: b.flush '<' →
      (b.flush '<').length < done.length →
        (b'.flush '<').length < (c :: done).length := by
    intro b' hflush hless
    rw [hflush]
    exact Nat.succ_lt_succ hless
  rcases readAngle_cases b c with ⟨rfl, hread⟩ | ⟨kept, held, rfl, rfl, hread⟩ |
    ⟨hopen, hclose, hread⟩
  · rw [hread]
    refine h.imp (fun h => ?_) (hshort rfl)
    obtain ⟨rfl, hleft, -⟩ := h
    refine ⟨rfl, ?_, fun h => absurd h (Option.some_ne_none _)⟩
    rw [← hleft]
    rfl
  · rw [hread]
    refine .inr (Nat.lt_succ_of_le (Nat.le_trans ?_ hlength))
    simp only [BracketScan.flush, List.length_append, List.length_cons]
    omega
  · rw [hread]
    refine h.imp (fun h => ?_) (hshort (flush_hold '<' c b))
    obtain ⟨rfl, hleft, hinside⟩ := h
    have hhold : s.read c = s.hold c := by
      rw [Nesting.read, if_neg hopen, if_neg]
      exact fun h => h.2 (hinside (hclose h.1))
    refine ⟨flush_hold '<' c b, ?_, ?_⟩
    · rw [hhold, Nesting.left_hold, hleft]
    · obtain ⟨kept, _ | held⟩ := b
      · intro _
        rw [hhold, Nesting.hold, hinside rfl]
      · exact fun h => absurd h (Option.some_ne_none _)

/-- What is kept of a text is the text, or it is shorter. -/
theorem keptOrShorter_foldl (cs : List Char) :
    KeptOrShorter cs.reverse (cs.foldl readAngle {})
      (cs.foldl Nesting.read {}) := by
  have hrun : ∀ {done : List Char} {b : BracketScan} {s : Nesting},
      KeptOrShorter done b s → KeptOrShorter (cs.reverse ++ done)
        (cs.foldl readAngle b) (cs.foldl Nesting.read s) := by
    induction cs with
    | nil => exact id
    | cons c cs ih =>
      intro done b s h
      simpa using ih (h.read c)
  have hkept : KeptOrShorter [] {} {} := .inl ⟨rfl, rfl, fun _ => rfl⟩
  simpa using hrun hkept

theorem left_of_dropInnermost
    (h : ¬(dropInnermost cs).length < cs.length) :
    (cs.foldl Nesting.read {}).left.reverse = cs := by
  rcases keptOrShorter_foldl cs with hall | hshort
  · rw [hall.left, List.reverse_reverse]
  · rw [List.length_reverse] at hshort
    exact absurd (by rwa [dropInnermost, List.length_reverse]) h

/-- One pass with a stack leaves what dropping group by group leaves. -/
theorem stripGenerics_eq (cs : List Char) :
    stripGenerics cs = (cs.foldl Nesting.read {}).left.reverse := by
  fun_induction stripGenerics cs with
  | case1 cs next hless ih => rw [ih, foldl_read_dropInnermost]
  | case2 cs next hless => exact (left_of_dropInnermost hless).symm

-- ====================================================== balanced groups

/-- The number of groups that are open after a text if `depth` are open
before it. There is none if the text closes more than that. -/
def anglesAfter? : Nat → List Char → Option Nat
  | depth, [] => some depth
  | depth, '<' :: rest => anglesAfter? (depth + 1) rest
  | 0, '>' :: _ => none
  | depth + 1, '>' :: rest => anglesAfter? depth rest
  | depth, _ :: rest => anglesAfter? depth rest

/-- A text whose groups close nothing that was open before leaves the
brackets in front of it, and what stands there, as they are. -/
theorem foldl_read_of_anglesAfter? {depth after : Nat}
    (h : anglesAfter? depth cs = some after) {held : List (List Char)}
    (hdepth : held.length = depth + 1) (more : List (List Char))
    (outside : List Char) :
    ∃ held', held'.length = after + 1 ∧
      cs.foldl Nesting.read ⟨held ++ more, outside⟩ =
        ⟨held' ++ more, outside⟩ := by
  induction depth, cs using anglesAfter?.induct generalizing held with
  | case1 depth =>
    obtain rfl := Option.some.inj h
    exact ⟨held, hdepth, rfl⟩
  | case2 depth rest ih =>
    rw [anglesAfter?] at h
    have hpushed : ([] :: held).length = depth + 1 + 1 := by
      rw [List.length_cons, hdepth]
    exact ih h hpushed
  | case3 rest => cases h
  | case4 depth rest ih =>
    rw [anglesAfter?] at h
    obtain ⟨piece, held, rfl⟩ :=
      List.exists_cons_of_length_eq_add_one hdepth
    have hpopped : held.length = depth + 1 := by simpa using hdepth
    exact ih h hpopped
  | case5 depth c rest hopen hclose hclose' ih =>
    have hrest : anglesAfter? depth rest = some after := by
      rwa [anglesAfter?] at h <;> assumption
    obtain ⟨piece, held, rfl⟩ :=
      List.exists_cons_of_length_eq_add_one hdepth
    have hread : Nesting.read ⟨piece :: held ++ more, outside⟩ c =
        ⟨(c :: piece) :: held ++ more, outside⟩ := by
      refine Nesting.read_plain hopen (fun hc => ?_) _
      cases depth with
      | zero => exact hclose rfl hc
      | succ depth => exact hclose' depth rfl hc
    rw [List.foldl_cons, hread]
    exact ih hrest (by simpa using hdepth)

-- ============================================================== stripping

/-- What stands between groups, with the groups taken out, whatever it is
read behind. -/
def Strips (xs ys : List Char) : Prop :=
  ∀ outside, xs.foldl Nesting.read ⟨[], outside⟩ =
    ⟨[], ys.reverse ++ outside⟩

theorem Strips.append {xs' ys' : List Char} (h : Strips xs ys)
    (h' : Strips xs' ys') : Strips (xs ++ xs') (ys ++ ys') := by
  intro outside
  rw [List.foldl_append, h, h', List.reverse_append, List.append_assoc]

/-- A text without angle brackets is left as it is. -/
theorem strips_of_not_mem (h : '<' ∉ xs) : Strips xs xs := by
  induction xs with
  | nil => exact fun _ => rfl
  | cons c xs ih =>
    intro outside
    obtain ⟨hc, hxs⟩ := not_or.1 fun hmem => h (List.mem_cons.2 hmem)
    have hread : Nesting.read ⟨[], outside⟩ c = ⟨[], c :: outside⟩ := by
      rw [Nesting.read, if_neg (Ne.symm hc), if_neg fun h => h.2 rfl]
      rfl
    rw [List.foldl_cons, hread, ih hxs]
    simp

/-- A balanced group is stripped. -/
theorem strips_group {args : List Char} (h : anglesAfter? 0 args = some 0) :
    Strips ('<' :: (args ++ ['>'])) [] := by
  intro outside
  obtain ⟨held, hlength, hread⟩ :=
    foldl_read_of_anglesAfter? h List.length_singleton [] outside
  obtain ⟨piece, rfl⟩ := List.length_eq_one_iff.1 hlength
  have hopen : Nesting.read ⟨[], outside⟩ '<' = ⟨[[]], outside⟩ := rfl
  rw [List.foldl_cons, hopen, List.foldl_append]
  exact congrArg (·.read '>') hread

/-- Items are stripped one by one between separators that have no angle
bracket. -/
theorem Strips.joinWith {α : Type} {f g : α → List Char} {sep : List Char}
    (hsep : '<' ∉ sep) {items : List α}
    (h : ∀ item ∈ items, Strips (f item) (g item)) :
    Strips (Text.joinWith sep (items.map f))
      (Text.joinWith sep (items.map g)) := by
  induction items with
  | nil => exact fun _ => rfl
  | cons item items ih =>
    cases items with
    | nil => simpa [Text.joinWith] using h item (.head _)
    | cons next items =>
      have hcons : ∀ k : α → List Char,
          Text.joinWith sep ((item :: next :: items).map k) =
            k item ++ sep ++ Text.joinWith sep ((next :: items).map k) :=
        fun k => Text.joinWith_cons (by simp)
      rw [hcons, hcons]
      exact ((h item (.head _)).append (strips_of_not_mem hsep)).append
        (ih fun item hitem => h item (.tail _ hitem))

theorem Strips.stripGenerics (h : Strips xs ys) : stripGenerics xs = ys := by
  rw [stripGenerics_eq, h]
  simp [Nesting.left]

end CallTrace.Source
