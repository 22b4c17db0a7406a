/-
What a match covers.

A pattern lists the ends of its matches, so what a match is comes down to
membership in that list. Each combinator has one lemma that says which ends
it lists, in terms of the characters between the place where the match
starts and its end.
-/
import CallTrace.Text.Pattern

namespace CallTrace.Text.Pattern

variable {a b : Pattern} {k e : Cursor} {p : Char → Bool}

theorem mem_seq : e ∈ seq a b k ↔ ∃ m ∈ a k, e ∈ b m :=
  List.mem_flatMap

/-- Where the first pattern matches in one way, the second one goes on. -/
theorem seq_of_eq {m : Cursor} (h : a k = [m]) : seq a b k = b m := by
  rw [seq, h, List.flatMap_singleton]

theorem mem_any {choices : List Pattern} :
    e ∈ any choices k ↔ ∃ a ∈ choices, e ∈ a k :=
  List.mem_flatMap

/-- One character of a kind is taken off. -/
theorem mem_one (h : e ∈ one p k) :
    ∃ c, p c = true ∧ k.rest = c :: e.rest := by
  unfold one at h
  split at h
  · rename_i c rest hrest
    split at h
    · rename_i hc
      obtain rfl := List.mem_singleton.1 h
      exact ⟨c, hc, hrest⟩
    · cases h
  · cases h

/-- What a text matches is that text, read in some way. -/
theorem mem_literalBy {f : Char → Char} {w : List Char}
    (h : e ∈ literalBy (fun w c => w == f c) w k) :
    ∃ done, k.rest = done ++ e.rest ∧ done.map f = w := by
  induction w generalizing k with
  | nil =>
    obtain rfl := List.mem_singleton.1 h
    exact ⟨[], rfl, rfl⟩
  | cons w ws ih =>
    unfold literalBy at h
    split at h
    · rename_i c rest hrest
      split at h
      · rename_i hsame
        obtain ⟨done, hdone, hws⟩ := ih h
        refine ⟨c :: done, ?_, ?_⟩
        · rw [hrest, List.cons_append, ← hdone]
        · rw [List.map_cons, hws, beq_iff_eq.1 hsame]
      · cases h
    · cases h

theorem mem_caseless {w : String} (h : e ∈ caseless w k) :
    ∃ done, k.rest = done ++ e.rest ∧ done.map fold = w.toList :=
  mem_literalBy h

theorem getLast?_cons_or (c : Char) (cs : List Char) (o : Option Char) :
    (c :: cs).getLast?.or o = cs.getLast?.or (some c) := by
  cases cs <;> simp [List.getLast?_cons]

/-- A text matches in one way at most, and then the match ends behind it. -/
theorem mem_literal {w : List Char} : e ∈ literal w k ↔
    k.rest = w ++ e.rest ∧ e.before = w.getLast?.or k.before := by
  induction w generalizing k with
  | nil =>
    have hend : literal [] k = [k] := rfl
    rw [hend, List.mem_singleton]
    constructor
    · rintro rfl
      exact ⟨rfl, rfl⟩
    · rintro ⟨hrest, hbefore⟩
      obtain ⟨before, rest⟩ := e
      obtain ⟨before', rest'⟩ := k
      simp_all
  | cons d w ih =>
    obtain ⟨before, rest⟩ := k
    rw [getLast?_cons_or]
    cases rest with
    | nil => simp [literal, literalBy]
    | cons c rest =>
      have hstep : literal (d :: w) ⟨before, c :: rest⟩ =
          if d == c then literal w ⟨some c, rest⟩ else [] := rfl
      by_cases hc : d = c
      · subst hc
        rw [hstep, if_pos (beq_self_eq_true d), ih]
        simp
      · rw [hstep, if_neg (by simpa using hc)]
        simp [Ne.symm hc]

/-- A word at the place is taken off, and its last character comes before
what is left. -/
theorem literal_append (w : List Char) (before : Option Char)
    (rest : List Char) : literal w ⟨before, w ++ rest⟩ =
      [⟨w.getLast?.or before, rest⟩] := by
  induction w generalizing before with
  | nil => rfl
  | cons d w ih =>
    have hstep : literal (d :: w) ⟨before, d :: (w ++ rest)⟩ =
        if d == d then literal w ⟨some d, w ++ rest⟩ else [] := rfl
    rw [List.cons_append, hstep, if_pos (beq_self_eq_true d), ih,
      getLast?_cons_or]

/-- A space is all the blanks there are where none follows. -/
theorem blanks1_space {before : Option Char} {rest : List Char}
    (h : ∀ c ∈ rest.head?, isBlank c = false) :
    blanks1 ⟨before, ' ' :: rest⟩ = [⟨some ' ', rest⟩] := by
  have hone : one isBlank ⟨before, ' ' :: rest⟩ = [⟨some ' ', rest⟩] := rfl
  rw [blanks1, run1, seq_of_eq hone, run_of_head h]

/-- A run takes off characters of the kind only. -/
theorem mem_run (h : e ∈ run p k) :
    ∃ done, k.rest = done ++ e.rest ∧ ∀ c ∈ done, p c = true := by
  have hgo : ∀ cs before ends, e ∈ run.go p ends before cs →
      e ∈ ends ∨ ∃ done, cs = done ++ e.rest ∧ ∀ c ∈ done, p c = true := by
    intro cs
    induction cs with
    | nil =>
      intro before ends h
      rcases List.mem_cons.1 h with rfl | h
      · exact .inr ⟨[], rfl, by simp⟩
      · exact .inl h
    | cons c rest ih =>
      intro before ends h
      have hhere : e = ⟨before, c :: rest⟩ → ∃ done,
          c :: rest = done ++ e.rest ∧ ∀ c ∈ done, p c = true := by
        rintro rfl
        exact ⟨[], rfl, by simp⟩
      rw [run.go] at h
      split at h
      · rename_i hc
        rcases ih _ _ h with h | ⟨done, hdone, hall⟩
        · exact (List.mem_cons.1 h).symm.imp_right hhere
        · exact .inr ⟨c :: done, by rw [hdone, List.cons_append],
            List.forall_mem_cons.2 ⟨hc, hall⟩⟩
      · exact (List.mem_cons.1 h).symm.imp_right hhere
  exact (hgo _ _ _ h).resolve_left List.not_mem_nil

theorem mem_run1 (h : e ∈ run1 p k) :
    ∃ c done, k.rest = c :: (done ++ e.rest) ∧ p c = true ∧
      ∀ c ∈ done, p c = true := by
  obtain ⟨m, hm, he⟩ := mem_seq.1 h
  obtain ⟨c, hc, hk⟩ := mem_one hm
  obtain ⟨done, hdone, hall⟩ := mem_run he
  exact ⟨c, done, by rw [hk, hdone], hc, hall⟩

theorem mem_boundary (h : e ∈ boundary k) : e = k := by
  unfold boundary at h
  split at h
  · exact List.mem_singleton.1 h
  · cases h

-- ===================================================== going forward

/-- What is left after a match is the end of what was there before. -/
def Advances (a : Pattern) : Prop := ∀ k, ∀ e ∈ a k, e.rest <:+ k.rest

theorem advances_empty : Advances empty := by
  intro k e h
  obtain rfl := List.mem_singleton.1 h
  exact List.suffix_rfl

theorem advances_boundary : Advances boundary := by
  intro k e h
  obtain rfl := mem_boundary h
  exact List.suffix_rfl

theorem advances_one : Advances (one p) := by
  intro k e h
  obtain ⟨c, -, hk⟩ := mem_one h
  exact ⟨[c], hk.symm⟩

theorem advances_run : Advances (run p) := by
  intro k e h
  obtain ⟨done, hk, -⟩ := mem_run h
  exact ⟨done, hk.symm⟩

theorem advances_caseless (w : String) : Advances (caseless w) := by
  intro k e h
  obtain ⟨done, hk, -⟩ := mem_caseless h
  exact ⟨done, hk.symm⟩

theorem advances_literal (w : List Char) : Advances (literal w) := by
  intro k e h
  exact ⟨w, (mem_literal.1 h).1.symm⟩

theorem Advances.seq (ha : Advances a) (hb : Advances b) :
    Advances (seq a b) := by
  intro k e h
  obtain ⟨m, hm, he⟩ := mem_seq.1 h
  exact (hb m e he).trans (ha k m hm)

theorem advances_run1 : Advances (run1 p) := advances_one.seq advances_run

theorem advances_any {choices : List Pattern}
    (h : ∀ a ∈ choices, Advances a) : Advances (any choices) := by
  intro k e he
  obtain ⟨a, ha, he⟩ := mem_any.1 he
  exact h a ha k e he

theorem Advances.optional (ha : Advances a) : Advances (optional a) := by
  refine advances_any fun b hb => ?_
  rcases List.mem_cons.1 hb with rfl | hb
  · exact ha
  · rw [List.mem_singleton.1 hb]
    exact advances_empty

theorem Advances.after? (ha : Advances a) {cs rest : List Char}
    (h : after? a cs = some rest) : rest <:+ cs := by
  obtain ⟨e, hhead, rfl⟩ := Option.map_eq_some_iff.1 h
  exact ha ⟨none, cs⟩ e (List.mem_of_mem_head? hhead)

-- ========================================================== searching

/-- A pattern that occurs in a text matches at some place of it. -/
theorem exists_of_occursIn {cs : List Char} (h : occursIn a cs = true) :
    ∃ k e, k.rest <:+ cs ∧ e ∈ a k := by
  have hfind : ∀ (cs : List Char) (before : Option Char),
      (findAt? a before cs).isSome = true →
        ∃ k e, k.rest <:+ cs ∧ e ∈ a k := by
    intro cs
    induction cs with
    | nil =>
      intro before h
      rw [findAt?] at h
      cases hends : a ⟨before, []⟩ with
      | nil => simp [hends] at h
      | cons e _ =>
        exact ⟨⟨before, []⟩, e, List.suffix_rfl, hends ▸ .head _⟩
    | cons c rest ih =>
      intro before h
      rw [findAt?] at h
      split at h
      · rename_i e _ hends
        exact ⟨⟨before, c :: rest⟩, e, List.suffix_rfl, hends ▸ .head _⟩
      · obtain ⟨k, e, hk, he⟩ := ih _ h
        exact ⟨k, e, hk.trans (List.suffix_cons c rest), he⟩
  exact hfind cs none h

-- ============================================== places of a first part

/-- Somewhere in the first text a match begins when the second one
follows. -/
def startsIn (a : Pattern) (before : Option Char) :
    List Char → List Char → Bool
  | [], _ => false
  | c :: xs, rest =>
    !(a ⟨before, c :: (xs ++ rest)⟩).isEmpty || startsIn a (some c) xs rest

variable {before : Option Char} {xs rest : List Char}

theorem findAt?_of_match {more : List Cursor}
    (h : a ⟨before, xs⟩ = e :: more) :
    findAt? a before xs = some (⟨before, xs⟩, e) := by
  cases xs <;> simp [findAt?, h]

/-- A search passes over what no match begins in. -/
theorem findAt?_append (h : startsIn a before xs rest = false) :
    findAt? a before (xs ++ rest) =
      findAt? a (xs.getLast?.or before) rest := by
  induction xs generalizing before with
  | nil => rfl
  | cons c xs ih =>
    rw [startsIn, Bool.or_eq_false_iff, Bool.not_eq_false',
      List.isEmpty_iff] at h
    rw [List.cons_append, findAt?, h.1, ih h.2, getLast?_cons_or]

/-- A choice starts nowhere if none of its members does. -/
theorem startsIn_any {choices : List Pattern}
    (h : ∀ a ∈ choices, startsIn a before xs rest = false) :
    startsIn (any choices) before xs rest = false := by
  induction xs generalizing before with
  | nil => rfl
  | cons c xs ih =>
    have hstep : ∀ a ∈ choices, a ⟨before, c :: (xs ++ rest)⟩ = [] ∧
        startsIn a (some c) xs rest = false := by
      intro a ha
      have hfalse := h a ha
      rwa [startsIn, Bool.or_eq_false_iff, Bool.not_eq_false',
        List.isEmpty_iff] at hfalse
    rw [startsIn, ih fun a ha => (hstep a ha).2, Bool.or_false,
      Bool.not_eq_false', List.isEmpty_iff]
    exact List.flatMap_eq_nil_iff.2 fun a ha => (hstep a ha).1

end CallTrace.Text.Pattern
