/-
Which names a declaration gives as supertypes.

The names in the header of a declaration are identifiers, and of these the
type itself and the roots of every type are left out, and each name after
its first place. Where no declaration of the type is found, nothing of
this holds: the name of another type's base stands in as it is written.
-/
import CallTrace.Proofs.Distinct
import CallTrace.Proofs.Text.Pattern
import CallTrace.Proofs.Text.Qualified
import CallTrace.Source.Supertypes

namespace CallTrace.Source

open Text Text.Pattern

variable {cs : List Char}

-- ========================================================= single names

/-- A text without parentheses has no groups to drop. -/
theorem dropGroups_of_not_mem (h : '(' ∉ cs) : dropGroups cs = cs := by
  have hread : ∀ kept, cs.foldl readParen ⟨kept, none⟩ =
      ⟨cs.reverse ++ kept, none⟩ := by
    induction cs with
    | nil => exact fun _ => rfl
    | cons c cs ih =>
      intro kept
      obtain ⟨hc, hcs⟩ := not_or.1 fun hc => h (List.mem_cons.2 hc)
      have hstep : readParen ⟨kept, none⟩ c = ⟨c :: kept, none⟩ := by
        simp [readParen, Ne.symm hc, BracketScan.flush, BracketScan.hold]
      rw [List.foldl_cons, hstep, ih hcs]
      simp
  rw [dropGroups, hread]
  simp [BracketScan.flush]

/-- Without a blank there is no access word in front. -/
theorem dropAccess_of_solid (h : ∀ c ∈ cs, isBlank c = false) :
    dropAccess cs = cs := by
  have hnone : all [oneOf accessWords, blanks1] ⟨none, cs⟩ = [] := by
    refine List.eq_nil_iff_forall_not_mem.2 fun e he => ?_
    obtain ⟨m, hm, he⟩ := mem_seq.1 he
    obtain ⟨n, hn, -⟩ := mem_seq.1 he
    obtain ⟨b, more, hrest, hb, -⟩ := mem_run1 hn
    have hadvances : Advances (oneOf accessWords) :=
      advances_any fun a ha => by
        obtain ⟨w, -, rfl⟩ := List.mem_map.1 ha
        exact advances_literal w.toList
    have hmem : b ∈ cs := (hadvances _ m hm).subset (by simp [hrest])
    exact absurd (h b hmem) (by simp [hb])
  rw [dropAccess, after?, hnone]
  rfl

/-- A name without blanks and arguments stands for its last part. -/
theorem simpleName_of_solid (hgroup : '(' ∉ cs)
    (h : ∀ c ∈ cs, isBlank c = false) :
    simpleName cs = lastOf (segments cs) := by
  have htrim : ∀ {ds : List Char}, (∀ c ∈ ds, isBlank c = false) →
      trim ds = ds := fun hds =>
    trimOf_eq_self_iff.2 ⟨fun c hc => hds c (List.mem_of_mem_head? hc),
      fun c hc => hds c (List.mem_of_getLast? hc)⟩
  rw [simpleName, dropGroups_of_not_mem hgroup, htrim h,
    dropAccess_of_solid h]
  exact htrim fun c hc => h c (mem_of_mem_lastOf_segments hc).1

theorem isBlank_of_isDotted {c : Char} (h : isDotted c = true) :
    isBlank c = false := by
  rw [isDotted, Bool.or_eq_true, beq_iff_eq] at h
  rcases h with h | rfl
  · exact isBlank_of_isWord h
  · decide

theorem simpleName_of_dotted (h : ∀ c ∈ cs, isDotted c = true) :
    simpleName cs = lastOf (segments cs) :=
  simpleName_of_solid (fun hmem => absurd (h _ hmem) (by decide))
    fun c hc => isBlank_of_isDotted (h c hc)

-- ================================================ names of a declaration

theorem isIdent_of_mem_splitNames {name : List Char}
    (h : name ∈ splitNames cs) : isIdent name = true :=
  (List.mem_filter.1 h).2

/-- Whatever is read from a header is a name. -/
theorem isIdent_of_mem_namesOfHeader {name header : List Char}
    (h : name ∈ namesOfHeader header) : isIdent name = true := by
  unfold namesOfHeader at h
  split at h
  · unfold namesOfGroup at h
    grind [isIdent_of_mem_splitNames]
  · unfold namesOfClauses at h
    simp only [List.mem_append] at h
    have hclause : ∀ {clause : Option (List Char)},
        name ∈ (clause.map splitNames).getD [] → isIdent name = true := by
      rintro (_ | text) hname
      · cases hname
      · exact isIdent_of_mem_splitNames hname
    rcases h with (h | h) | h
    · exact hclause h
    · exact hclause h
    · grind [isIdent_of_mem_splitNames]

/-- The names that are told of a type: neither the type itself nor a root
of every type, each at its first place. -/
def namesTold (typeName : String) (names : List (List Char)) : List String :=
  ((names.map String.ofList).filter fun name =>
    !(name == typeName || ignoredRoots.contains name)).eraseDups

/-- The supertypes of a type that is declared are told by the header of the
declaration. -/
theorem supertypes_of_declared {content typeName : String} {k e : Cursor}
    (h : find? (declaration typeName.toList) content.toList = some (k, e)) :
    supertypes content typeName = namesTold typeName
      (namesOfHeader (trim (stripGenerics (headerOf e.rest)))) := by
  have hfold := foldl_collect
    (fun name => name == typeName || ignoredRoots.contains name)
    ((namesOfHeader (trim (stripGenerics (headerOf e.rest)))).map
      String.ofList) []
  simp only [List.foldl_map, List.contains_nil, Bool.or_false,
    List.nil_append] at hfold
  rw [supertypes, h]
  exact hfold

-- ============================================================ usable names

/-- A name that leads on from a type: an identifier other than the type
and the roots of every type. -/
structure Usable (typeName name : String) : Prop where
  ident : isIdent name.toList = true
  other : name ≠ typeName
  telling : name ∉ ignoredRoots

/-- A name that is told is usable, if nothing but names is read. -/
theorem usable_of_mem_namesTold {typeName name : String}
    {names : List (List Char)} (hident : ∀ cs ∈ names, isIdent cs = true)
    (h : name ∈ namesTold typeName names) : Usable typeName name := by
  rw [namesTold, List.mem_eraseDups, List.mem_filter] at h
  obtain ⟨hname, hkept⟩ := h
  obtain ⟨cs, hcs, rfl⟩ := List.mem_map.1 hname
  simp only [Bool.not_eq_true', Bool.or_eq_false_iff, beq_eq_false_iff_ne,
    List.contains_eq_mem, decide_eq_false_iff_not] at hkept
  exact ⟨by simpa using hident cs hcs, hkept.1, hkept.2⟩

/-- The name that stands in is a stretch of word characters. -/
theorem isWord_of_mem_stand_in {text : List Char} {c : Char}
    (h : c ∈ simpleName (text.takeWhile isDotted)) : isWord c = true := by
  have hdotted : ∀ d ∈ text.takeWhile isDotted, isDotted d = true :=
    fun d hd => List.all_eq_true.1 List.all_takeWhile d hd
  rw [simpleName_of_dotted hdotted] at h
  obtain ⟨hmem, hdot⟩ := mem_of_mem_lastOf_segments h
  have hc := hdotted c hmem
  rw [isDotted, Bool.or_eq_true, beq_iff_eq] at hc
  exact hc.resolve_right hdot

/-- No name is given twice, and where the type is declared each of them is
usable. Where it is not, there is one name at most, and all that is known
of it is that it has no other characters than those of words. -/
theorem supertypes_usable (content typeName : String) :
    (supertypes content typeName).Nodup ∧
      (occursIn (declaration typeName.toList) content.toList = true →
        ∀ name ∈ supertypes content typeName, Usable typeName name) ∧
      (occursIn (declaration typeName.toList) content.toList = false →
        (supertypes content typeName).length ≤ 1 ∧
          ∀ name ∈ supertypes content typeName, ∀ c ∈ name.toList,
            isWord c = true) := by
  cases hfind : find? (declaration typeName.toList) content.toList with
  | some found =>
    obtain ⟨k, e⟩ := found
    rw [supertypes_of_declared hfind, occursIn, hfind]
    refine ⟨nodup_eraseDups _, fun _ name hname => ?_,
      fun h => absurd h (by simp)⟩
    exact usable_of_mem_namesTold
      (fun _ h => isIdent_of_mem_namesOfHeader h) hname
  | none =>
    rw [supertypes, occursIn, hfind]
    dsimp only
    cases find? firstExtension content.toList with
    | none =>
      exact ⟨List.nodup_nil, fun h => absurd h (by simp),
        fun _ => ⟨Nat.zero_le 1, by simp⟩⟩
    | some found =>
      obtain ⟨k, e⟩ := found
      refine ⟨List.pairwise_singleton _ _, fun h => absurd h (by simp),
        fun _ => ⟨le_refl 1, ?_⟩⟩
      intro name hname c hc
      obtain rfl := List.mem_singleton.1 hname
      rw [String.toList_ofList] at hc
      exact isWord_of_mem_stand_in hc

theorem supertypes_usable_extended :
    occursIn (declaration "Cart".toList)
        "class Cart extends Basket {}".toList = true ∧
      ∀ name ∈ supertypes "class Cart extends Basket {}" "Cart",
        Usable "Cart" name := by
  have hdeclared : occursIn (declaration "Cart".toList)
      "class Cart extends Basket {}".toList = true := by decide +kernel
  exact ⟨hdeclared, (supertypes_usable _ _).2.1 hdeclared⟩

/-- What stands in is not looked at: a root of every type, the name asked
for, and no name at all are given. -/
theorem stand_in_not_usable :
    supertypes "class X extends Object {}" "Y" = ["Object"] ∧
      supertypes "class X extends Y {}" "Y" = ["Y"] ∧
      supertypes "class X extends a. {}" "Y" = [""] ∧
      ¬Usable "Y" "Object" ∧ ¬Usable "Y" "Y" ∧ ¬Usable "Y" "" := by
  refine ⟨?_, ?_, ?_, fun h => h.telling (by decide), fun h => h.other rfl,
    fun h => absurd h.ident (by decide)⟩
  all_goals decide +kernel

end CallTrace.Source
