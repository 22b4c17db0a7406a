/-
Which characters are left when type arguments are taken out.

Two places of a text are the ends of a group if a bracket opens at the
first and one closes at the second, and what stands between them is
balanced. What is left is just what stands in no group, in its order. The
proof takes the text from its end: a closing bracket that closes something
ends a group, and no other group reaches into that one from in front of it,
so only what stands in front of it matters; any other character ends no
group and stays.

Groups are dropped in passes, the innermost ones in each. Every pass but
the last makes the text shorter, so there are no more passes than
characters.
-/
import CallTrace.Proofs.Source.Generics
import Mathlib.Logic.Function.Iterate

namespace CallTrace.Source

variable {cs xs ys front body : List Char} {c : Char} {i j k : Nat}

-- ============================================================== passes

/-- A pass that drops nothing leaves the text as it is. -/
theorem dropInnermost_eq_or_shorter (cs : List Char) :
    dropInnermost cs = cs ∨ (dropInnermost cs).length < cs.length := by
  rcases keptOrShorter_foldl cs with hkept | hshort
  · left
    rw [dropInnermost, hkept.flush, List.reverse_reverse]
  · right
    rwa [dropInnermost, List.length_reverse,
      ← @List.length_reverse _ cs]

/-- Passes are made until one drops nothing, and every pass before that
makes the text shorter. -/
theorem exists_passes (cs : List Char) :
    ∃ n ≤ cs.length, stripGenerics cs = dropInnermost^[n] cs ∧
      dropInnermost (stripGenerics cs) = stripGenerics cs ∧
      ∀ m < n, (dropInnermost^[m + 1] cs).length <
        (dropInnermost^[m] cs).length := by
  fun_induction stripGenerics cs with
  | case1 cs next hless ih =>
    obtain ⟨n, hn, hstrip, hfixed, hshrink⟩ := ih
    refine ⟨n + 1, by omega, hstrip, hfixed, fun m hm => ?_⟩
    cases m with
    | zero => exact hless
    | succ m => exact hshrink m (by omega)
  | case2 cs next hless =>
    exact ⟨0, Nat.zero_le _, rfl,
      (dropInnermost_eq_or_shorter cs).resolve_right hless,
      fun m hm => absurd hm (Nat.not_lt_zero m)⟩

-- ============================================================ balance

theorem anglesAfter?_plain (hopen : c ≠ '<') (hclose : c ≠ '>')
    (depth : Nat) (rest : List Char) :
    anglesAfter? depth (c :: rest) = anglesAfter? depth rest := by
  cases depth <;> simp [anglesAfter?, hclose]

/-- The depth after two texts is that after the second, from the depth
after the first. -/
theorem anglesAfter?_append (depth : Nat) (xs ys : List Char) :
    anglesAfter? depth (xs ++ ys) =
      (anglesAfter? depth xs).bind (anglesAfter? · ys) := by
  induction depth, xs using anglesAfter?.induct with
  | case1 depth => rfl
  | case2 depth rest ih => exact ih
  | case3 rest => rfl
  | case4 depth rest ih => exact ih
  | case5 depth c rest hopen hclose hclose' ih =>
    have hc : c ≠ '>' := by
      cases depth with
      | zero => exact hclose rfl
      | succ depth => exact hclose' depth rfl
    rw [List.cons_append, anglesAfter?_plain hopen hc,
      anglesAfter?_plain hopen hc, ih]

/-- What is open before and not closed stays open. -/
theorem anglesAfter?_add {depth after : Nat} (more : Nat)
    (h : anglesAfter? depth xs = some after) :
    anglesAfter? (depth + more) xs = some (after + more) := by
  induction depth, xs using anglesAfter?.induct with
  | case1 depth => rw [← Option.some.inj h, anglesAfter?]
  | case2 depth rest ih =>
    rw [anglesAfter?, Nat.add_right_comm]
    exact ih h
  | case3 rest => cases h
  | case4 depth rest ih =>
    show anglesAfter? (depth + 1 + more) ('>' :: rest) = some (after + more)
    rw [Nat.add_right_comm, anglesAfter?]
    exact ih h
  | case5 depth c rest hopen hclose hclose' ih =>
    have hc : c ≠ '>' := by
      cases depth with
      | zero => exact hclose rfl
      | succ depth => exact hclose' depth rfl
    rw [anglesAfter?_plain hopen hc] at h ⊢
    exact ih h

/-- An open bracket that stands before the start of a balanced text is not
closed in it. -/
theorem not_balanced_of_prefix (hbody : anglesAfter? 0 body = some 0)
    (hys : ys <+: body) : anglesAfter? 0 (xs ++ '<' :: ys) ≠ some 0 := by
  obtain ⟨rest, rfl⟩ := hys
  rw [anglesAfter?_append, Option.bind_eq_some_iff] at hbody
  obtain ⟨depth, hdepth, -⟩ := hbody
  intro h
  rw [anglesAfter?_append, Option.bind_eq_some_iff] at h
  obtain ⟨before, -, h⟩ := h
  have hopen := anglesAfter?_add (before + 1) hdepth
  rw [Nat.zero_add] at hopen
  rw [anglesAfter?, hopen] at h
  exact absurd h (by simp)

-- ============================================================= groups

/-- A bracket opens at the first place and one closes at the second, and
what stands between them is balanced. -/
def IsGroup (cs : List Char) (i j : Nat) : Prop :=
  i < j ∧ cs[i]? = some '<' ∧ cs[j]? = some '>' ∧
    anglesAfter? 0 ((cs.take j).drop (i + 1)) = some 0

instance (cs : List Char) (i j : Nat) : Decidable (IsGroup cs i j) :=
  inferInstanceAs (Decidable (_ ∧ _ ∧ _ ∧ _))

/-- The place lies in a group, its ends included. -/
def InGroup (cs : List Char) (k : Nat) : Prop :=
  ∃ i ≤ k, ∃ j < cs.length, k ≤ j ∧ IsGroup cs i j

instance (cs : List Char) (k : Nat) : Decidable (InGroup cs k) :=
  inferInstanceAs (Decidable (∃ i ≤ k, ∃ j < cs.length, _))

/-- The characters that stand in no group, in their order. -/
def outsideGroups (cs : List Char) : List Char :=
  (cs.zipIdx.filter fun p => ¬InGroup cs p.2).map (·.1)

theorem isGroup_append (hj : j < xs.length) :
    IsGroup (xs ++ ys) i j ↔ IsGroup xs i j := by
  have htake : (xs ++ ys).take j = xs.take j :=
    List.take_append_of_le_length (Nat.le_of_lt hj)
  rw [IsGroup, IsGroup, htake, List.getElem?_append_left hj]
  refine and_congr_right fun hi => ?_
  rw [List.getElem?_append_left (Nat.lt_trans hi hj)]

/-- A group that ends behind the text in front does not reach into it,
where that text is followed by another group. -/
theorem IsGroup.lt_of_lt (hbody : anglesAfter? 0 body = some 0)
    (h : IsGroup (front ++ '<' :: (body ++ ['>'])) i j)
    (hi : i < front.length) : j < front.length := by
  obtain ⟨hij, -, hclose, hbalanced⟩ := h
  by_contra hj
  obtain ⟨m, rfl⟩ := Nat.exists_eq_add_of_le (Nat.not_lt.1 hj)
  rw [List.getElem?_append_right (by omega),
    Nat.add_sub_cancel_left] at hclose
  obtain ⟨n, rfl⟩ : ∃ n, m = n + 1 := by
    cases m with
    | zero => simp at hclose
    | succ n => exact ⟨n, rfl⟩
  -- The opening bracket of the other group is not closed in front of `j`.
  have hopened : anglesAfter? 0
      (front.drop (i + 1) ++ '<' :: body.take n) ≠ some 0 :=
    not_balanced_of_prefix hbody (List.take_prefix n body)
  refine hopened ?_
  have hn : n ≤ body.length := by
    have hlt := (List.getElem?_eq_some_iff.1 hclose).1
    simp at hlt
    omega
  rw [← hbalanced]
  congr 1
  rw [List.take_length_add_append, List.drop_append_of_le_length (by omega),
    List.take_succ_cons, List.take_append_of_le_length hn]

/-- A place in the first of two texts is in a group there, or in one that
ends in the second. -/
theorem inGroup_append_iff (hk : k < xs.length) :
    InGroup (xs ++ ys) k ↔ InGroup xs k ∨
      ∃ i ≤ k, ∃ j < (xs ++ ys).length, xs.length ≤ j ∧
        IsGroup (xs ++ ys) i j := by
  constructor
  · rintro ⟨i, hi, j, hj, hkj, h⟩
    rcases Nat.lt_or_ge j xs.length with hin | hout
    · exact .inl ⟨i, hi, j, hin, hkj, (isGroup_append hin).1 h⟩
    · exact .inr ⟨i, hi, j, hj, hout, h⟩
  · rintro (⟨i, hi, j, hj, hkj, h⟩ | ⟨i, hi, j, hj, hout, h⟩)
    · exact ⟨i, hi, j, by simp; omega, hkj, (isGroup_append hj).2 h⟩
    · exact ⟨i, hi, j, hj, by omega, h⟩

/-- Where no group reaches from a text into what follows it, and that lies
in groups or is left whole. -/
theorem outsideGroups_append
    (hapart : ∀ i < xs.length, ∀ j ≥ xs.length, ¬IsGroup (xs ++ ys) i j) :
    outsideGroups (xs ++ ys) = outsideGroups xs ++
      ((ys.zipIdx xs.length).filter fun p => ¬InGroup (xs ++ ys) p.2).map
        (·.1) := by
  rw [outsideGroups, List.zipIdx_append, List.filter_append, List.map_append,
    Nat.zero_add]
  congr 2
  refine List.filter_congr fun p hp => ?_
  have hk : p.2 < xs.length := by
    have hlt := (List.mem_zipIdx hp).2.1
    omega
  rw [decide_eq_decide, inGroup_append_iff hk]
  have hnone : ¬∃ i ≤ p.2, ∃ j < (xs ++ ys).length, xs.length ≤ j ∧
      IsGroup (xs ++ ys) i j := by
    rintro ⟨i, hi, j, -, hout, h⟩
    exact hapart i (by omega) j hout h
  rw [or_iff_left hnone]

/-- A character at which no group ends is left. -/
theorem outsideGroups_concat
    (hend : ∀ i, ¬IsGroup (cs ++ [c]) i cs.length) :
    outsideGroups (cs ++ [c]) = outsideGroups cs ++ [c] := by
  have hplace : ∀ i j, IsGroup (cs ++ [c]) i j → j < cs.length := by
    intro i j h
    have hj := (List.getElem?_eq_some_iff.1 h.2.2.1).1
    rw [List.length_append, List.length_singleton] at hj
    have hne : j ≠ cs.length := fun he => hend i (he ▸ h)
    omega
  have hlast : ¬InGroup (cs ++ [c]) cs.length := by
    rintro ⟨i, -, j, -, hj, h⟩
    exact absurd (hplace i j h) (Nat.not_lt.2 hj)
  rw [outsideGroups_append fun i _ j hj h =>
    absurd (hplace i j h) (Nat.not_lt.2 hj)]
  simp [hlast]

/-- A group is left out. -/
theorem outsideGroups_group (hbody : anglesAfter? 0 body = some 0) :
    outsideGroups (front ++ '<' :: (body ++ ['>'])) =
      outsideGroups front := by
  rw [outsideGroups_append fun i hi j hj h =>
    absurd (h.lt_of_lt hbody hi) (Nat.not_lt.2 hj)]
  have hgroup : IsGroup (front ++ '<' :: (body ++ ['>'])) front.length
      (front.length + (body.length + 1)) := by
    refine ⟨by omega, by simp, by simp, ?_⟩
    rw [List.take_length_add_append, List.drop_length_add_append]
    simpa using hbody
  have hnone : (('<' :: (body ++ ['>'])).zipIdx front.length).filter
      (fun p => ¬InGroup (front ++ '<' :: (body ++ ['>'])) p.2) = [] := by
    refine List.filter_eq_nil_iff.2 fun p hp => ?_
    have hp := List.mem_zipIdx hp
    rw [decide_eq_true_eq, not_not]
    simp only [List.length_cons, List.length_append] at hp
    exact ⟨front.length, hp.1, front.length + (body.length + 1), by simp,
      by simp at hp; omega, hgroup⟩
  rw [hnone, List.map_nil, List.append_nil]

-- ======================================================== one reading

namespace Nesting

/-- A bracket opens, or closes the last one that is open, or a character is
kept. -/
theorem read_cases (s : Nesting) (c : Char) :
    (c = '<' ∧ s.read c = ⟨[] :: s.inside, s.outside⟩) ∨
      (∃ held more, c = '>' ∧ s.inside = held :: more ∧
        s.read c = ⟨more, s.outside⟩) ∨
      (c ≠ '<' ∧ (c = '>' → s.inside = []) ∧ s.read c = s.hold c) := by
  obtain ⟨inside, outside⟩ := s
  by_cases hopen : c = '<'
  · exact .inl ⟨hopen, by rw [read, if_pos hopen]⟩
  · rw [read, if_neg hopen]
    by_cases hclose : c = '>' ∧ inside ≠ []
    · obtain ⟨held, more, rfl⟩ := List.exists_cons_of_ne_nil hclose.2
      exact .inr (.inl ⟨held, more, hclose.1, rfl, if_pos hclose⟩)
    · refine .inr (.inr ⟨hopen, fun hc => ?_, if_neg hclose⟩)
      exact not_not.1 fun hne => hclose ⟨hc, hne⟩

end Nesting

/-- A bracket that is open at the end of a text stands in front of a
balanced rest, and what was read in front of it is as it was there. -/
theorem exists_of_inside {held : List Char} {more : List (List Char)}
    {outside : List Char}
    (h : cs.foldl Nesting.read {} = ⟨held :: more, outside⟩) :
    ∃ front body, cs = front ++ '<' :: body ∧
      anglesAfter? 0 body = some 0 ∧
      front.foldl Nesting.read {} = ⟨more, outside⟩ := by
  induction hn : cs.length using Nat.strongRecOn
    generalizing cs held more outside with
  | ind n ih =>
    rcases List.eq_nil_or_concat cs with rfl | ⟨init, c, rfl⟩
    · cases h
    rw [List.concat_eq_append] at h hn ⊢
    rw [List.length_append, List.length_singleton] at hn
    rw [List.foldl_append] at h
    replace h : (init.foldl Nesting.read {}).read c =
      ⟨held :: more, outside⟩ := h
    rcases hs : init.foldl Nesting.read {} with ⟨inside, outside'⟩
    rw [hs] at h
    rcases Nesting.read_cases ⟨inside, outside'⟩ c with
      ⟨rfl, hread⟩ | ⟨held', more', rfl, hinside, hread⟩ |
      ⟨hopen, hclose, hread⟩ <;> rw [hread] at h
    · obtain ⟨⟨⟩, ⟨⟩⟩ := h
      exact ⟨init, [], rfl, rfl, hs⟩
    · -- The bracket that is closed here stands behind the one that is open.
      obtain rfl : inside = held' :: more' := hinside
      obtain ⟨⟨⟩, ⟨⟩⟩ := h
      obtain ⟨front', body', rfl, hbody', hfront'⟩ :=
        ih init.length (by omega) hs rfl
      obtain ⟨front, body, rfl, hbody, hfront⟩ :=
        ih front'.length (by simp at hn; omega) hfront' rfl
      refine ⟨front, body ++ '<' :: (body' ++ ['>']), by simp, ?_, hfront⟩
      have hclosed : anglesAfter? 1 (body' ++ ['>']) = some 0 := by
        rw [anglesAfter?_append, anglesAfter?_add 1 hbody']
        rfl
      rw [anglesAfter?_append, hbody]
      exact hclosed
    · cases inside with
      | nil => cases h
      | cons held' more' =>
        obtain ⟨⟨⟩, ⟨⟩⟩ := h
        obtain ⟨front, body, rfl, hbody, hfront⟩ :=
          ih init.length (by omega) hs rfl
        have hc : c ≠ '>' := fun hc => absurd (hclose hc) (by simp)
        refine ⟨front, body ++ [c], by simp, ?_, hfront⟩
        rw [anglesAfter?_append, hbody]
        exact anglesAfter?_plain hopen hc 0 []

/-- No group ends where nothing is closed. -/
theorem not_isGroup_of_inside
    (h : c = '>' → (cs.foldl Nesting.read {}).inside = []) (i : Nat) :
    ¬IsGroup (cs ++ [c]) i cs.length := by
  rintro ⟨hi, hopen, hclose, hbalanced⟩
  have hc : c = '>' := by simpa using hclose
  rw [List.getElem?_append_left hi] at hopen
  obtain ⟨hi, hopen⟩ := List.getElem?_eq_some_iff.1 hopen
  rw [List.take_left] at hbalanced
  rcases hfront : (cs.take i).foldl Nesting.read {} with ⟨more, outside⟩
  have hone : ([[]] : List (List Char)).length = 0 + 1 := rfl
  obtain ⟨held, hlength, hread⟩ :=
    foldl_read_of_anglesAfter? hbalanced hone more outside
  have hcs : cs.foldl Nesting.read {} = ⟨held ++ more, outside⟩ := by
    conv_lhs => rw [← List.take_append_drop i cs, List.foldl_append, hfront,
      List.drop_eq_getElem_cons hi, hopen]
    exact hread
  have hempty := h hc
  rw [hcs, List.append_eq_nil_iff] at hempty
  rw [hempty.1] at hlength
  exact absurd hlength (by simp)

/-- What one reading leaves is what stands in no group. -/
theorem left_eq_outsideGroups (cs : List Char) :
    (cs.foldl Nesting.read {}).left.reverse = outsideGroups cs := by
  induction hn : cs.length using Nat.strongRecOn
    generalizing cs with
  | ind n ih =>
    rcases List.eq_nil_or_concat cs with rfl | ⟨init, c, rfl⟩
    · rfl
    rw [List.concat_eq_append, List.length_append,
      List.length_singleton] at hn
    rw [List.concat_eq_append, List.foldl_append]
    show ((init.foldl Nesting.read {}).read c).left.reverse = _
    have hkept : ∀ {s : Nesting},
        s.left = c :: (init.foldl Nesting.read {}).left →
        (c = '>' → (init.foldl Nesting.read {}).inside = []) →
        s.left.reverse = outsideGroups (init ++ [c]) := by
      intro s hleft hclose
      rw [hleft, List.reverse_cons, ih init.length (by omega) init rfl,
        outsideGroups_concat (not_isGroup_of_inside hclose)]
    rcases Nesting.read_cases (init.foldl Nesting.read {}) c with
      ⟨rfl, hread⟩ | ⟨held, more, rfl, hinside, hread⟩ |
      ⟨hopen, hclose, hread⟩ <;> rw [hread]
    · exact hkept rfl fun hc => absurd hc (by decide)
    · -- The group that ends here goes, and all that stands in it.
      have hs : init.foldl Nesting.read {} =
          ⟨held :: more, (init.foldl Nesting.read {}).outside⟩ := by
        rw [← hinside]
      obtain ⟨front, body, rfl, hbody, hfront⟩ := exists_of_inside hs
      rw [← hfront, ih front.length (by simp at hn; omega) front rfl,
        List.append_assoc, List.cons_append, outsideGroups_group hbody]
    · exact hkept (Nesting.left_hold _ c) hclose

-- ====================================================== what is left

namespace Nesting

/-- No bracket opens in front of all that are open, and none closes behind
one of them. -/
structure Unmatched (s : Nesting) : Prop where
  outside : '<' ∉ s.outside
  inside : ∀ held ∈ s.inside, '>' ∉ held

/-- One more character keeps the nesting unmatched. -/
theorem Unmatched.read {s : Nesting} (h : s.Unmatched) (c : Char) :
    (s.read c).Unmatched := by
  rcases s.read_cases c with ⟨rfl, hread⟩ | ⟨held, more, rfl, hinside, hread⟩ |
    ⟨hopen, hclose, hread⟩ <;> rw [hread]
  · exact ⟨h.outside,
      List.forall_mem_cons.2 ⟨List.not_mem_nil, h.inside⟩⟩
  · exact ⟨h.outside, fun piece hpiece =>
      h.inside piece (hinside ▸ List.mem_cons_of_mem held hpiece)⟩
  · obtain ⟨_ | ⟨held, more⟩, outside⟩ := s
    · refine ⟨fun hmem => ?_, fun _ hpiece => absurd hpiece List.not_mem_nil⟩
      exact (List.mem_cons.1 hmem).elim (fun hc => hopen hc.symm) h.outside
    · have hc : c ≠ '>' := fun hc => absurd (hclose hc) (by simp)
      obtain ⟨hheld, hmore⟩ := List.forall_mem_cons.1 h.inside
      refine ⟨h.outside, List.forall_mem_cons.2 ⟨fun hmem => ?_, hmore⟩⟩
      exact (List.mem_cons.1 hmem).elim (fun he => hc he.symm) hheld

/-- Read backwards, no closing bracket is left in front of an opening
one. -/
theorem Unmatched.not_sublist {s : Nesting} (h : s.Unmatched) :
    ¬['>', '<'].Sublist s.left := by
  obtain ⟨inside, outside⟩ := s
  induction inside with
  | nil => exact fun hsub => h.outside (hsub.subset (by simp))
  | cons held more ih =>
    obtain ⟨hheld, hmore⟩ := List.forall_mem_cons.1 h.inside
    intro hsub
    have hleft : left ⟨held :: more, outside⟩ =
        held ++ '<' :: left ⟨more, outside⟩ := rfl
    rw [hleft, List.cons_sublist_iff] at hsub
    obtain ⟨front, back, hsplit, hfront, hback⟩ := hsub
    -- The closing bracket stands in the rest, so the opening one does too.
    refine ih ⟨h.outside, hmore⟩ ?_
    rcases List.append_eq_append_iff.1 hsplit with
      ⟨middle, rfl, hmiddle⟩ | ⟨middle, rfl, -⟩
    · cases middle with
      | nil => exact absurd (by simpa using hfront) hheld
      | cons d middle =>
        obtain ⟨rfl, hrest⟩ := List.cons.inj hmiddle
        rw [hrest]
        have hfront : '>' ∈ middle := by
          simpa [hheld] using hfront
        exact (List.singleton_sublist.2 hfront).append hback
    · exact absurd (List.mem_append_left middle hfront) hheld

end Nesting

/-- No opening bracket that is left is followed by a closing one. -/
theorem not_sublist_stripGenerics (cs : List Char) :
    ¬['<', '>'].Sublist (stripGenerics cs) := by
  have hrun : ∀ {s : Nesting}, s.Unmatched →
      (cs.foldl Nesting.read s).Unmatched := by
    induction cs with
    | nil => exact id
    | cons c cs ih => exact fun h => ih (h.read c)
  have hstart : Nesting.Unmatched {} :=
    ⟨List.not_mem_nil, fun _ h => absurd h List.not_mem_nil⟩
  rw [stripGenerics_eq, List.sublist_reverse_iff]
  exact (hrun hstart).not_sublist

/-- The characters outside of all brackets, if `depth` brackets are open
before the text. -/
def outermost : Nat → List Char → List Char
  | _, [] => []
  | depth, c :: rest =>
    if c = '<' then outermost (depth + 1) rest
    else if c = '>' then outermost (depth - 1) rest
    else if depth = 0 then c :: outermost depth rest
    else outermost depth rest

/-- What is outside of all groups is no angle bracket. -/
theorem mem_outermost {depth : Nat} (h : c ∈ outermost depth cs) :
    c ≠ '<' ∧ c ≠ '>' := by
  fun_induction outermost depth cs with
  | case1 => cases h
  | case2 depth rest ih | case3 depth rest _ ih => exact ih h
  | case4 d rest hopen hclose ih =>
    rcases List.mem_cons.1 h with rfl | h
    · exact ⟨hopen, hclose⟩
    · exact ih h
  | case5 depth d rest _ _ _ ih => exact ih h

/-- Reading a text that closes no more than is open keeps, of what stands
outside of all brackets, everything. -/
theorem foldl_read_outermost {s : Nesting} {after : Nat}
    (h : anglesAfter? s.inside.length cs = some after) :
    (cs.foldl Nesting.read s).inside.length = after ∧
      (cs.foldl Nesting.read s).outside =
        (outermost s.inside.length cs).reverse ++ s.outside := by
  induction cs generalizing s with
  | nil => exact ⟨Option.some.inj h, rfl⟩
  | cons c rest ih =>
    rw [List.foldl_cons]
    rcases s.read_cases c with ⟨rfl, hread⟩ |
      ⟨held, more, rfl, hinside, hread⟩ | ⟨hopen, hclose, hread⟩ <;>
      rw [hread]
    · rw [anglesAfter?] at h
      rw [outermost, if_pos rfl]
      exact ih h
    · rw [hinside, List.length_cons, anglesAfter?] at h
      rw [hinside, outermost, if_neg (by decide), if_pos rfl]
      exact ih h
    · obtain ⟨_ | ⟨held, more⟩, outside⟩ := s
      · have hc : c ≠ '>' := by
          rintro rfl
          cases h
        rw [anglesAfter?_plain hopen hc] at h
        obtain ⟨hlength, houtside⟩ := ih (s := ⟨[], c :: outside⟩) h
        refine ⟨hlength, houtside.trans ?_⟩
        simp [outermost, hopen, hc]
      · have hc : c ≠ '>' := fun hc => absurd (hclose hc) (by simp)
        rw [anglesAfter?_plain hopen hc] at h
        rw [outermost, if_neg hopen, if_neg hc, if_neg (by simp)]
        exact ih (s := ⟨(c :: held) :: more, outside⟩) h

theorem stripGenerics_of_balanced (h : anglesAfter? 0 cs = some 0) :
    stripGenerics cs = outermost 0 cs := by
  obtain ⟨hlength, houtside⟩ := foldl_read_outermost (s := {}) h
  rw [stripGenerics_eq, Nesting.left, List.length_eq_zero_iff.1 hlength,
    List.foldr_nil, houtside]
  simp

-- ============================================================== summary

/-- Dropping innermost groups comes to an end, after no more passes than
there are characters, and leaves just the characters that stand in no
group, in their order. No opening bracket among them is followed by a
closing one. Of a balanced text no bracket is left, and what is left is
what stands outside of all brackets. -/
theorem stripGenerics_outside_groups (cs : List Char) :
    (∃ n ≤ cs.length, stripGenerics cs = dropInnermost^[n] cs ∧
      dropInnermost (stripGenerics cs) = stripGenerics cs ∧
      ∀ m < n, (dropInnermost^[m + 1] cs).length <
        (dropInnermost^[m] cs).length) ∧
    stripGenerics cs = outsideGroups cs ∧
    ¬['<', '>'].Sublist (stripGenerics cs) ∧
    (anglesAfter? 0 cs = some 0 →
      '<' ∉ stripGenerics cs ∧ '>' ∉ stripGenerics cs ∧
      stripGenerics cs = outermost 0 cs) := by
  refine ⟨exists_passes cs, ?_, not_sublist_stripGenerics cs,
    fun hbalanced => ?_⟩
  · rw [stripGenerics_eq, left_eq_outsideGroups]
  · rw [stripGenerics_of_balanced hbalanced]
    exact ⟨fun h => (mem_outermost h).1 rfl, fun h => (mem_outermost h).2 rfl,
      rfl⟩

/-- Arguments within arguments are taken out with them. -/
theorem stripGenerics_outside_groups_nested :
    anglesAfter? 0 "Map<K, List<V>> m".toList = some 0 ∧
    stripGenerics "Map<K, List<V>> m".toList = "Map m".toList := by
  have hbalanced : anglesAfter? 0 "Map<K, List<V>> m".toList = some 0 := by
    decide
  obtain ⟨-, -, -, hleft⟩ :=
    stripGenerics_outside_groups "Map<K, List<V>> m".toList
  obtain ⟨-, -, heq⟩ := hleft hbalanced
  exact ⟨hbalanced, heq.trans (by decide)⟩

end CallTrace.Source
