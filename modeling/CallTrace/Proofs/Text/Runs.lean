/-
Words that stand alone in a text.

A text is cut into its runs of word characters. A word stands alone in it
where it is one of these runs, so what the runs of a text are says which
words a search can find there; and the runs of a text that is put together
from names and signs are the names.
-/
import CallTrace.Proofs.Text.Blank
import CallTrace.Proofs.Text.Lines
import CallTrace.Proofs.Text.Pattern

namespace CallTrace.Text

/-- The stretches of word characters between the others. Where two of the
others stand side by side, the stretch between them is empty. -/
def runs (cs : List Char) : List (List Char) := splitBy (!isWord ·) cs

variable {w xs ys sep : List Char} {c : Char}

theorem runs_append (h : isWord c = false) (xs ys : List Char) :
    runs (xs ++ c :: ys) = runs xs ++ runs ys :=
  splitBy_append (by simp [h]) xs ys

theorem not_mem_runs_append (h : isWord c = false) (hxs : w ∉ runs xs)
    (hys : w ∉ runs ys) : w ∉ runs (xs ++ c :: ys) := by
  rw [runs_append h, List.mem_append]
  exact not_or.2 ⟨hxs, hys⟩

theorem runs_cons_of_not (h : isWord c = false) (ys : List Char) :
    runs (c :: ys) = [] :: runs ys :=
  runs_append h [] ys

theorem runs_of_word (h : ∀ c ∈ w, isWord c = true) : runs w = [w] :=
  splitBy_of_not fun c hc => by simp [h c hc]

theorem runs_cons_of_word (h : isWord c = true) (ys : List Char) :
    runs (c :: ys) = (runs ys).modifyHead (c :: ·) := by
  have hword : ∀ d ∈ [c], (!isWord d) = false := by simp [h]
  exact splitBy_append_of_not hword ys

/-- A word that is followed by no word character is the first run. -/
theorem mem_runs_of_prefix (h : ∀ c ∈ w, isWord c = true)
    (hys : ys.head?.any isWord = false) : w ∈ runs (w ++ ys) := by
  cases ys with
  | nil => simp [runs_of_word h]
  | cons c ys => simp [runs_append hys, runs_of_word h]

/-- The runs of a text that is put together are those of its parts. -/
theorem mem_runs_joinWith {ls : List (List Char)}
    (hne : sep ≠ []) (hsep : ∀ c ∈ sep, isWord c = false)
    (h : w ∈ runs (joinWith sep ls)) : w = [] ∨ ∃ l ∈ ls, w ∈ runs l := by
  have hgap : ∀ {xs sep ys : List Char}, (∀ c ∈ sep, isWord c = false) →
      sep ≠ [] → w ∈ runs (xs ++ sep ++ ys) →
        w ∈ runs xs ∨ w = [] ∨ w ∈ runs ys := by
    intro xs sep ys hsep hne h
    induction sep generalizing xs with
    | nil => exact absurd rfl hne
    | cons c sep ih =>
      rw [List.append_assoc, List.cons_append, runs_append (hsep c (.head _)),
        List.mem_append] at h
      refine h.imp_right fun h => ?_
      cases sep with
      | nil => exact .inr h
      | cons d sep =>
        have hempty : w ∈ runs ([] ++ d :: sep ++ ys) := h
        have hrest := ih (fun c hc => hsep c (.tail _ hc))
          (List.cons_ne_nil _ _) hempty
        exact hrest.elim (fun hnil => .inl (List.mem_singleton.1 hnil)) id
  induction ls with
  | nil => exact .inl (List.mem_singleton.1 h)
  | cons l ls ih =>
    cases ls with
    | nil => exact .inr ⟨l, .head _, by simpa [joinWith] using h⟩
    | cons m ls =>
      rw [joinWith_cons (by simp)] at h
      rcases hgap hsep hne h with h | h | h
      · exact .inr ⟨l, .head _, h⟩
      · exact .inl h
      · refine (ih h).imp_right ?_
        rintro ⟨l, hl, hw⟩
        exact ⟨l, .tail _ hl, hw⟩

/-- A word with blanks around it does not occur where it is no run. -/
theorem cutAtText?_of_not_mem_runs
    (hw : ∀ c ∈ w, isWord c = true) {b b' : Char} (hb : isWord b = false)
    (hb' : isWord b' = false) (h : w ∉ runs xs) :
    cutAtText? (b :: (w ++ [b'])) xs = none := by
  refine cutAtText?_eq_none ?_
  rintro ⟨front, back, hxs⟩
  refine h ?_
  have hruns : runs xs = runs front ++ (w :: runs back) := by
    have hword : runs (w ++ b' :: back) = w :: runs back := by
      rw [runs_append hb', runs_of_word hw, List.singleton_append]
    rw [← hxs, ← hword, ← runs_append hb]
    simp
  simp [hruns]

-- ========================================================= searching

namespace Pattern

variable {a : Pattern} {before : Option Char} {rest : List Char}

/-- The pattern matches only where the word stands alone. -/
def FindsWord (w : List Char) (a : Pattern) : Prop :=
  ∀ k, ∀ e ∈ a k, k.before.any isWord = false ∧
    ∃ ys, k.rest = w ++ ys ∧ ys.head?.any isWord = false

/-- A word is not found in a text of which it is no run. The first run goes
on with what stands before the text. -/
theorem startsIn_of_runs (ha : FindsWord w a)
    (hw : ∀ c ∈ w, isWord c = true)
    (hruns : w ∉ (runs xs).tail ∧
      (before.any isWord = false → w ∉ runs xs))
    (hend : xs.getLast?.any isWord = false ∨
      rest.head?.any isWord = false) :
    startsIn a before xs rest = false := by
  induction xs generalizing before with
  | nil => rfl
  | cons c xs ih =>
    obtain ⟨htail, hall⟩ := hruns
    rw [startsIn, Bool.or_eq_false_iff, Bool.not_eq_false',
      List.isEmpty_iff, List.eq_nil_iff_forall_not_mem]
    constructor
    · intro e he
      obtain ⟨hbefore, ys, hys, hafter⟩ := ha _ e he
      refine hall hbefore ?_
      rw [← List.cons_append, List.append_eq_append_iff] at hys
      rcases hys with ⟨zs, hzs, hrest⟩ | ⟨zs, hzs, hys⟩
      · -- The word goes on to the end of the first text and no further.
        cases zs with
        | nil =>
          rw [List.append_nil] at hzs
          rw [← hzs, runs_of_word hw]
          exact .head _
        | cons z zs =>
          have hz : isWord z = true := hw z (by simp [hzs])
          have hlast := hw _ (hzs ▸ List.mem_append_left _
            (List.getLast_mem (List.cons_ne_nil c xs)))
          rw [List.getLast?_eq_some_getLast (List.cons_ne_nil c xs), hrest]
            at hend
          simp [hz, hlast] at hend
      · rw [hzs]
        refine mem_runs_of_prefix hw ?_
        cases zs with
        | nil => rfl
        | cons z zs => rwa [hys] at hafter
    · refine ih ?_ ?_
      · cases hc : isWord c with
        | true =>
          rw [runs_cons_of_word hc] at htail
          refine ⟨?_, fun h => absurd (h.symm.trans hc) Bool.false_ne_true⟩
          cases hxs : runs xs with
          | nil => exact List.not_mem_nil
          | cons r rs => rwa [hxs] at htail
        | false =>
          rw [runs_cons_of_not hc, List.tail_cons] at htail
          exact ⟨fun h => htail (List.mem_of_mem_tail h), fun _ => htail⟩
      · cases xs with
        | nil => exact .inl rfl
        | cons d xs => simpa using hend

/-- What finds a word alone finds it nowhere in a text without it. -/
theorem FindsWord.find?_eq_none (ha : FindsWord w a) (hne : w ≠ [])
    (hw : ∀ c ∈ w, isWord c = true) (h : w ∉ runs xs) :
    find? a xs = none := by
  have hstart : startsIn a none xs [] = false :=
    startsIn_of_runs ha hw
      ⟨fun hmem => h (List.mem_of_mem_tail hmem), fun _ => h⟩ (.inr rfl)
  have hnone : ∀ before, a ⟨before, []⟩ = [] := by
    refine fun before => List.eq_nil_iff_forall_not_mem.2 fun e he => ?_
    obtain ⟨-, ys, hys, -⟩ := ha _ e he
    exact hne (List.append_eq_nil_iff.1 hys.symm).1
  have hsearch := findAt?_append hstart
  rw [List.append_nil] at hsearch
  rw [find?, hsearch, findAt?, hnone]
  rfl

/-- After a boundary a word stands alone if what comes next keeps it from
going on. -/
theorem findsWord_seq {b : Pattern} (hne : w ≠ [])
    (hw : ∀ c ∈ w, isWord c = true)
    (hb : ∀ c rest, isWord c = true → ∀ e ∈ b ⟨some c, rest⟩,
      rest.head?.any isWord = false) :
    FindsWord w (all [boundary, literal w, b]) := by
  intro k e he
  obtain ⟨m, hm, he⟩ := mem_seq.1 he
  obtain ⟨n, hn, he⟩ := mem_seq.1 he
  obtain ⟨o, ho, -⟩ := mem_seq.1 he
  obtain ⟨c, more, rfl⟩ := List.exists_cons_of_ne_nil hne
  obtain rfl := mem_boundary hm
  obtain ⟨hrest, hbefore⟩ := mem_literal.1 hn
  rw [boundary_eq, hrest] at hm
  have hhead : (c :: more ++ n.rest).head?.any isWord = true :=
    hw c (.head _)
  rw [hhead] at hm
  refine ⟨?_, n.rest, hrest, ?_⟩
  · cases hk : m.before.any isWord with
    | false => rfl
    | true => simp [hk] at hm
  · obtain ⟨before, rest⟩ := n
    have hlast := List.getLast?_eq_some_getLast (List.cons_ne_nil c more)
    rw [hlast, Option.some_or] at hbefore
    obtain rfl : before = _ := hbefore
    exact hb _ rest (hw _ (List.getLast_mem _)) o ho

/-- Behind what is no word character a word is found where it stands. -/
theorem seq_boundary_literal {b : Pattern} (hne : w ≠ [])
    (hw : ∀ c ∈ w, isWord c = true) (hbefore : before.any isWord = false) :
    all [boundary, literal w, b] ⟨before, w ++ rest⟩ =
      all [b] ⟨w.getLast?, rest⟩ := by
  obtain ⟨c, more, rfl⟩ := List.exists_cons_of_ne_nil hne
  have hfront : boundary ⟨before, c :: more ++ rest⟩ =
      [⟨before, c :: more ++ rest⟩] := by
    rw [boundary_eq, hbefore, List.cons_append, List.head?_cons,
      Option.any_some, hw c (.head _)]
    rfl
  rw [all, seq_of_eq hfront, all, seq_of_eq (literal_append ..),
    List.getLast?_eq_some_getLast (List.cons_ne_nil c more)]
  rfl

theorem findsWord_boundary (hne : w ≠ []) (hw : ∀ c ∈ w, isWord c = true) :
    FindsWord w (all [boundary, literal w, boundary]) := by
  refine findsWord_seq hne hw fun c rest hc e he => ?_
  rw [boundary_of_isWord hc] at he
  split at he
  · cases he
  · exact Bool.eq_false_iff.2 ‹_›

theorem findsWord_blanks1 (hne : w ≠ []) (hw : ∀ c ∈ w, isWord c = true) :
    FindsWord w (all [boundary, literal w, blanks1]) := by
  refine findsWord_seq hne hw fun c rest hc e he => ?_
  obtain ⟨b, more, rfl, hb, -⟩ := mem_run1 he
  refine Bool.eq_false_iff.2 fun hword => ?_
  exact absurd (isBlank_of_isWord hword) (by simp [hb])

end Pattern

end CallTrace.Text
