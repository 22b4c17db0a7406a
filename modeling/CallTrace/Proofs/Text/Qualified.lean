/-
Names and the names they are made of.
-/
import CallTrace.Proofs.Text.Blank
import CallTrace.Text.Qualified
import Mathlib.Data.List.Chain

namespace CallTrace.Text

variable {c : Char} {cs : List Char}

-- ======================================================== identifiers

/-- Every character of a name is one that a name may have. -/
theorem isIdentRest_of_mem (h : isIdent cs = true) (hc : c ∈ cs) :
    isIdentRest c = true := by
  cases cs with
  | nil => cases hc
  | cons d rest =>
    rw [isIdent, Bool.and_eq_true, List.all_eq_true] at h
    rcases List.mem_cons.1 hc with rfl | hc
    · exact isIdentRest_of_isIdentStart h.1
    · exact h.2 c hc

theorem isIdent_ne_nil (h : isIdent cs = true) : cs ≠ [] := by
  rintro rfl
  cases h

theorem upToFinalBreak_of {p : List Char → Bool} (h : p cs = true) :
    upToFinalBreak p cs = true := by
  rw [upToFinalBreak, h, Bool.true_or]

/-- What is let through with a line feed at its end is that, or has one
more character. -/
theorem exists_of_upToFinalBreak {p : List Char → Bool}
    (h : upToFinalBreak p cs = true) :
    ∃ front, p front = true ∧ (cs = front ∨ cs = front ++ ['\n']) := by
  rw [upToFinalBreak, Bool.or_eq_true, Bool.and_eq_true, beq_iff_eq] at h
  rcases h with h | ⟨hlast, h⟩
  · exact ⟨cs, h, .inl rfl⟩
  · obtain ⟨front, rfl⟩ := List.getLast?_eq_some_iff.1 hlast
    exact ⟨front, by simpa using h, .inr rfl⟩

-- =========================================================== segments

/-- There are no blanks in a path. -/
theorem isBlank_of_mem_path (h : isIdentRest c = true ∨
    c ∈ ['.', ':', '-', '>']) : isBlank c = false := by
  rcases h with h | h
  · exact isBlank_of_isIdentRest h
  · have hmarks : ∀ d ∈ ['.', ':', '-', '>'], isBlank d = false :=
      forall_mem_of_all (by decide)
    exact hmarks c h

/-- The characters of the separators. -/
def joints (arrows : Bool) : List Char :=
  if arrows then ['.', ':', '-', '>'] else ['.', ':']

/-- A separator. -/
inductive IsMark (arrows : Bool) : List Char → Prop where
  | dot : IsMark arrows ['.']
  | colons : IsMark arrows [':', ':']
  | arrow (h : arrows = true) : IsMark arrows ['-', '>']

theorem IsMark.mem_joints {arrows : Bool} {mark : List Char}
    (h : IsMark arrows mark) (hc : c ∈ mark) : c ∈ joints arrows := by
  cases h with
  | dot | colons => cases arrows <;> simp_all [joints]
  | arrow h =>
    subst h
    exact List.mem_append_right ['.', ':'] hc

/-- The two are not both colons. -/
def NotColons (c d : Char) : Prop := c = ':' → d ≠ ':'

/-- A name is cut at a separator, where a new piece begins, and any other
character is kept in the piece under way. -/
theorem segments_go_induct (arrows : Bool)
    {motive : List Char → List Char → Prop}
    (done : ∀ seg, segmentsBy.go arrows seg [] = [seg.reverse] →
      motive seg [])
    (cut : ∀ seg mark rest, IsMark arrows mark →
      segmentsBy.go arrows seg (mark ++ rest) =
        seg.reverse :: segmentsBy.go arrows [] rest →
      motive [] rest → motive seg (mark ++ rest))
    (keep : ∀ seg d rest, d ≠ '.' → (∀ e ∈ rest.head?, NotColons d e) →
      segmentsBy.go arrows seg (d :: rest) =
        segmentsBy.go arrows (d :: seg) rest →
      motive (d :: seg) rest → motive seg (d :: rest))
    (seg cs : List Char) : motive seg cs := by
  induction seg, cs using segmentsBy.go.induct arrows with
  | case1 seg => exact done seg (by rw [segmentsBy.go])
  | case2 seg rest ih =>
    exact cut seg ['.'] rest .dot (by simp [segmentsBy.go]) ih
  | case3 seg rest ih =>
    exact cut seg [':', ':'] rest .colons (by simp [segmentsBy.go]) ih
  | case4 seg rest harrows ih =>
    exact cut seg ['-', '>'] rest (.arrow harrows)
      (by simp [segmentsBy.go, harrows]) ih
  | case5 seg rest harrows ih =>
    -- Both characters of the arrow are kept, one after the other.
    have hgo : segmentsBy.go arrows ('-' :: seg) ('>' :: rest) =
        segmentsBy.go arrows ('>' :: '-' :: seg) rest := by
      rw [segmentsBy.go] <;> simp
    have hcolons {d : Char} (hd : d ≠ ':') (rest : List Char) :
        ∀ e ∈ rest.head?, NotColons d e := fun _ _ h => absurd h hd
    refine keep seg '-' ('>' :: rest) (by decide) (hcolons (by decide) _)
      ?_ (keep ('-' :: seg) '>' rest (by decide) (hcolons (by decide) _)
        hgo ih)
    rw [segmentsBy.go, if_neg harrows, hgo]
  | case6 seg d rest hdot hcolon hdash ih =>
    refine keep seg d rest hdot ?_ ?_ ih
    · rintro e he hd rfl
      obtain ⟨rest, rfl⟩ := List.head?_eq_some_iff.1 he
      exact hcolon rest hd rfl
    · rw [segmentsBy.go] <;> assumption

/-- What is not in a piece is part of a separator. -/
theorem mem_joints_or_piece (arrows : Bool) (seg cs : List Char)
    (hc : c ∈ seg ∨ c ∈ cs) :
    c ∈ joints arrows ∨
      ∃ piece ∈ segmentsBy.go arrows seg cs, c ∈ piece := by
  induction seg, cs using segments_go_induct arrows with
  | done seg hgo => simp_all
  | cut seg mark rest hmark hgo ih =>
    rw [hgo, List.exists_mem_cons_iff, List.mem_reverse]
    rcases hc with hc | hc
    · exact .inr (.inl hc)
    · rcases List.mem_append.1 hc with hc | hc
      · exact .inl (hmark.mem_joints hc)
      · exact (ih (.inr hc)).imp_right .inr
  | keep seg d rest _ _ hgo ih =>
    rw [hgo]
    refine ih ?_
    simp only [List.mem_cons] at hc ⊢
    tauto

/-- No dot is left in a piece, and nothing that was not in the name. -/
theorem mem_of_mem_segments_go {arrows : Bool} {seg cs piece : List Char}
    (h : piece ∈ segmentsBy.go arrows seg cs) (hc : c ∈ piece) :
    c ∈ seg ∨ (c ∈ cs ∧ c ≠ '.') := by
  induction seg, cs using segments_go_induct arrows with
  | done seg hgo =>
    rw [hgo, List.mem_singleton] at h
    exact .inl (List.mem_reverse.1 (h ▸ hc))
  | cut seg mark rest hmark hgo ih =>
    rw [hgo, List.mem_cons] at h
    rcases h with rfl | h
    · exact .inl (List.mem_reverse.1 hc)
    · have hrest := (ih h).resolve_left List.not_mem_nil
      exact .inr ⟨List.mem_append_right mark hrest.1, hrest.2⟩
  | keep seg d rest hdot _ hgo ih =>
    rw [hgo] at h
    rcases ih h with hmem | ⟨hmem, hne⟩
    · rcases List.mem_cons.1 hmem with rfl | hmem
      · exact .inr ⟨List.mem_cons_self, hdot⟩
      · exact .inl hmem
    · exact .inr ⟨List.mem_cons_of_mem d hmem, hne⟩

/-- The last piece of a name is made of the name's characters. -/
theorem mem_of_mem_lastOf_segments (h : c ∈ lastOf (segments cs)) :
    c ∈ cs ∧ c ≠ '.' := by
  rw [lastOf] at h
  cases hlast : (segments cs).getLast? with
  | none =>
    rw [hlast] at h
    cases h
  | some piece =>
    rw [hlast] at h
    have hmem := mem_of_mem_segments_go (List.mem_of_getLast? hlast) h
    exact hmem.resolve_left List.not_mem_nil

theorem mem_segments_go (arrows : Bool) (seg cs : List Char)
    (hc : c ∈ seg ∨ c ∈ cs) :
    c ∈ ['.', ':', '-', '>'] ∨
      ∃ piece ∈ segmentsBy.go arrows seg cs, c ∈ piece := by
  refine (mem_joints_or_piece arrows seg cs hc).imp_left fun h => ?_
  cases arrows with
  | true => exact h
  | false => exact List.mem_append_left ['-', '>'] h

/-- The first piece is what the text begins with. -/
theorem head_segments_go (arrows : Bool) (seg cs : List Char) :
    ∃ front rest, segmentsBy.go arrows seg cs =
      (seg.reverse ++ front) :: rest ∧ front <+: cs := by
  induction seg, cs using segments_go_induct arrows with
  | done seg hgo => exact ⟨[], [], by simp [hgo], List.nil_prefix⟩
  | cut seg mark rest _ hgo =>
    exact ⟨[], segmentsBy.go arrows [] rest, by simp [hgo], List.nil_prefix⟩
  | keep seg d rest _ _ hgo ih =>
    obtain ⟨front, more, hrest, hfront⟩ := ih
    exact ⟨d :: front, more, by simp [hgo, hrest], by simpa using hfront⟩

/-- A name is followed by the rest of its path. -/
theorem segments_go_append {arrows : Bool} {xs : List Char}
    (h : ∀ c ∈ xs, isIdentRest c = true) (seg rest : List Char) :
    segmentsBy.go arrows seg (xs ++ rest) =
      segmentsBy.go arrows (xs.reverse ++ seg) rest := by
  induction xs generalizing seg with
  | nil => rfl
  | cons c xs ih =>
    have hne : ∀ d, isIdentRest d = false → c ≠ d := by
      rintro d hd rfl
      exact absurd (h c (.head _)) (by simp [hd])
    rw [List.cons_append, segmentsBy.go, ih fun c hc => h c (.tail _ hc)]
    · simp
    · exact hne '.' (by decide)
    · exact fun _ hc => absurd hc (hne ':' (by decide))
    · exact fun _ hc => absurd hc (hne '-' (by decide))

/-- An identifier is one piece. -/
theorem segments_go_of_isIdent (arrows : Bool) (h : isIdent cs = true) :
    segmentsBy.go arrows [] cs = [cs] := by
  have hgo : segmentsBy.go arrows [] (cs ++ []) =
      segmentsBy.go arrows (cs.reverse ++ []) [] :=
    segments_go_append (fun _ hc => isIdentRest_of_mem h hc) [] []
  simpa [segmentsBy.go] using hgo

-- ============================================================= pieces

/-- There is no separator in the text. -/
def IsPiece (cs : List Char) : Prop := '.' ∉ cs ∧ cs.IsChain NotColons

theorem isPiece_nil : IsPiece [] := ⟨List.not_mem_nil, .nil⟩

theorem isPiece_cons : IsPiece (c :: cs) ↔
    c ≠ '.' ∧ (∀ d ∈ cs.head?, NotColons c d) ∧ IsPiece cs := by
  rw [IsPiece, IsPiece, List.mem_cons, List.isChain_cons]
  grind

theorem isPiece_reverse : IsPiece cs.reverse ↔ IsPiece cs := by
  have hswap : (fun c d => NotColons d c) = NotColons := by
    funext c d
    exact propext ⟨fun h hc hd => h hd hc, fun h hd hc => h hc hd⟩
  rw [IsPiece, IsPiece, List.mem_reverse, List.isChain_reverse, hswap]

theorem IsMark.not_isPiece {mark : List Char} (h : IsMark false mark)
    (rest : List Char) : ¬IsPiece (mark ++ rest) := by
  intro hpiece
  cases h with
  | dot => exact absurd rfl (isPiece_cons.1 hpiece).1
  | colons => exact absurd rfl ((isPiece_cons.1 hpiece).2.1 ':' rfl rfl)
  | arrow h => exact Bool.noConfusion h

/-- What is not cut is one piece. -/
theorem segments_go_of_isPiece (seg : List Char) (h : IsPiece cs) :
    segmentsBy.go false seg cs = [seg.reverse ++ cs] := by
  induction seg, cs using segments_go_induct false with
  | done seg hgo => rw [hgo, List.append_nil]
  | cut seg mark rest hmark => exact absurd h (hmark.not_isPiece rest)
  | keep seg d rest _ _ hgo ih =>
    rw [hgo, ih (isPiece_cons.1 h).2.2]
    simp

theorem segments_of_isPiece (h : IsPiece cs) : segments cs = [cs] :=
  segments_go_of_isPiece [] h

/-- What is cut has no separator left in it, if there is none in the piece
under way and none begins with its last character. -/
theorem isPiece_of_mem_segments_go {seg piece : List Char}
    (hseg : IsPiece seg)
    (hjoin : ∀ c ∈ seg.head?, ∀ d ∈ cs.head?, NotColons c d)
    (h : piece ∈ segmentsBy.go false seg cs) : IsPiece piece := by
  induction seg, cs using segments_go_induct false with
  | done seg hgo =>
    rw [hgo, List.mem_singleton] at h
    exact h ▸ isPiece_reverse.2 hseg
  | cut seg mark rest _ hgo ih =>
    rw [hgo, List.mem_cons] at h
    rcases h with rfl | h
    · exact isPiece_reverse.2 hseg
    · exact ih isPiece_nil (fun c hc => by cases hc) h
  | keep seg d rest hdot hcolons hgo ih =>
    rw [hgo] at h
    refine ih (isPiece_cons.2 ⟨hdot, fun e he hd heq => ?_, hseg⟩) ?_ h
    · exact hjoin e he d rfl heq hd
    · rintro e ⟨⟩ f hf
      exact hcolons f hf

/-- The last piece of a name is a piece. -/
theorem isPiece_lastOf_segments (cs : List Char) :
    IsPiece (lastOf (segments cs)) := by
  rw [lastOf]
  rcases hlast : (segments cs).getLast? with _ | piece
  · exact isPiece_nil
  · exact isPiece_of_mem_segments_go isPiece_nil (fun c hc => by cases hc)
      (List.mem_of_getLast? hlast)

/-- A piece is its own last piece. -/
theorem lastOf_segments_of_isPiece (h : IsPiece cs) :
    lastOf (segments cs) = cs := by
  rw [segments_of_isPiece h]
  rfl

end CallTrace.Text
