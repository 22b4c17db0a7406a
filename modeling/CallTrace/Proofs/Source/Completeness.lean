/-
When the search finds a declaration that is there.

The search goes up in depth, and never enters a type twice. How far it may
still go counts along the way it has come, so a type that it first meets
where nothing is left is entered for its own sake only: its supertypes are
not searched, and since it is known from then on, they are not searched
from a shorter way either. A declaration above such a type may be missed.

This is the only way to miss one. A search without a find has looked at
every supertype of every type that it entered with something left: each of
these names has no source, or names a type that was entered. So along a way
up whose types are told apart by their names, and of which none between
the ends is entered with nothing left, the search enters one type after
the other, and with the last one a type that declares the method.
-/
import CallTrace.Proofs.Source.Resolve
import Mathlib.Data.List.Chain

namespace CallTrace.Source

variable {ω : Type} {lookup : Lookup ω} {method : String}

-- ====================================================== what is entered

namespace Walk

/-- A search of the types of these names comes to the type `g`, and enters
it with the walk `w'` in the state `s'`. -/
inductive Comes (lookup : Lookup ω)
    (descend : SourceFile → Walk → Action ω (Option SourceFile × Walk)) :
    List String → Walk → ω → SourceFile → Walk → ω → Prop
  | known {name names w s g w' s'} (hseen : w.seen.contains name = true)
      (hrest : Comes lookup descend names w s g w' s') :
      Comes lookup descend (name :: names) w s g w' s'
  | missing {name names w s s₁ g w' s'} (hseen : w.seen.contains name = false)
      (hl : lookup name s = (.ok none, s₁))
      (hrest : Comes lookup descend names (w.giveUp name) s₁ g w' s') :
      Comes lookup descend (name :: names) w s g w' s'
  | met {name names w s s₁ parent g w' s'}
      (hseen : w.seen.contains name = false)
      (hl : lookup name s = (.ok (some parent), s₁))
      (hparent : w.seen.contains parent.typeName = true)
      (hrest : Comes lookup descend names w s₁ g w' s') :
      Comes lookup descend (name :: names) w s g w' s'
  | here {name names w s s₁ parent} (hseen : w.seen.contains name = false)
      (hl : lookup name s = (.ok (some parent), s₁))
      (hparent : w.seen.contains parent.typeName = false) :
      Comes lookup descend (name :: names) w s parent w s₁
  | past {name names w s s₁ parent w₂ s₂ g w' s'}
      (hseen : w.seen.contains name = false)
      (hl : lookup name s = (.ok (some parent), s₁))
      (hparent : w.seen.contains parent.typeName = false)
      (hd : descend parent w s₁ = (.ok (none, w₂), s₂))
      (hrest : Comes lookup descend names w₂ s₂ g w' s') :
      Comes lookup descend (name :: names) w s g w' s'

/-- A search at the type `f`, for `depth` levels up at most, enters the type
`g` when `left` levels are left. -/
inductive Enters (lookup : Lookup ω) (method : String) :
    Nat → SourceFile → Walk → ω → Nat → SourceFile → Prop
  | here {depth f w s} : Enters lookup method depth f w s depth f
  | above {depth f w s parent w' s' left g}
      (hnot : declaresMethod f.content method = false)
      (hcomes : Comes lookup (search lookup method depth)
        (supertypes f.content f.typeName) (w.visit f.typeName) s parent w' s')
      (hrest : Enters lookup method depth parent w' s' left g) :
      Enters lookup method (depth + 1) f w s left g

variable {descend : SourceFile → Walk → Action ω (Option SourceFile × Walk)}

theorem Comes.looked_up {names : List String} {w w' : Walk} {s s' : ω}
    {g : SourceFile} (h : Comes lookup descend names w s g w' s') :
    ∃ name ∈ names, ∃ s, (lookup name s).1 = .ok (some g) := by
  induction h with
  | here _ hl => exact ⟨_, List.mem_cons_self, _, by rw [hl]⟩
  | known _ _ ih | missing _ _ _ ih | met _ _ _ _ ih | past _ _ _ _ _ ih =>
    obtain ⟨name, hname, hfound⟩ := ih
    exact ⟨name, List.mem_cons_of_mem _ hname, hfound⟩

/-- A type that a search enters is the one where it begins, or was looked
up. -/
theorem Enters.looked_up {depth left : Nat} {f g : SourceFile} {w : Walk}
    {s : ω} (h : Enters lookup method depth f w s left g) :
    g = f ∨ ∃ name s, (lookup name s).1 = .ok (some g) := by
  induction h with
  | here => exact .inl rfl
  | above _ hcomes _ ih =>
    obtain ⟨name, -, hfound⟩ := hcomes.looked_up
    rcases ih with rfl | hlater
    · exact .inr ⟨name, hfound⟩
    · exact .inr hlater

/-- A search with nothing left enters the type where it begins and no
other. -/
theorem Enters.bottom {left : Nat} {f g : SourceFile} {w : Walk} {s : ω}
    (h : Enters lookup method 0 f w s left g) : left = 0 ∧ g = f := by
  cases h
  exact ⟨rfl, rfl⟩

/-- The type `g` is found `n` levels above the type `f`. -/
inductive Climbs (lookup : Lookup ω) : Nat → SourceFile → SourceFile → Prop
  | here {f} : Climbs lookup 0 f f
  | above {n f parent g name s} (hname : name ∈ supertypes f.content f.typeName)
      (hl : (lookup name s).1 = .ok (some parent))
      (hrest : Climbs lookup n parent g) : Climbs lookup (n + 1) f g

/-- A search has gone up as many levels as are no longer left. -/
theorem Enters.climbs {depth left : Nat} {f g : SourceFile} {w : Walk} {s : ω}
    (h : Enters lookup method depth f w s left g) :
    ∃ n, n + left = depth ∧ Climbs lookup n f g := by
  induction h with
  | here => exact ⟨0, Nat.zero_add _, .here⟩
  | above _ hcomes _ ih =>
    obtain ⟨name, hname, s, hl⟩ := hcomes.looked_up
    obtain ⟨n, hn, hclimbs⟩ := ih
    exact ⟨n + 1, by omega, .above hname hl hclimbs⟩

-- ========================================== what a vain search has done

/-- A name needs no further look: it is known, or stands for a source whose
type is known. -/
def Covered (lookup : Lookup ω) (seen : List String) (name : String) : Prop :=
  name ∈ seen ∨
    ∃ s parent, (lookup name s).1 = .ok (some parent) ∧ parent.typeName ∈ seen

theorem Covered.mono {seen seen' : List String} {name : String}
    (h : Covered lookup seen name) (hsub : seen ⊆ seen') :
    Covered lookup seen' name := by
  rcases h with hname | ⟨s, parent, hl, hparent⟩
  · exact .inl (hsub hname)
  · exact .inr ⟨s, parent, hl, hsub hparent⟩

/-- What a search without a find has done to the names that are known, where
`enters left g` says that it entered `g` with `left` levels left. -/
structure Spent (lookup : Lookup ω) (method : String)
    (enters : Nat → SourceFile → Prop) (seen seen' : List String) : Prop where
  kept : seen ⊆ seen'
  /-- What became known was entered, or has no source. -/
  learned : ∀ name ∈ seen', name ∈ seen ∨
    (∃ left g, enters left g ∧ g.typeName = name) ∨
    ∃ s, (lookup name s).1 = .ok none
  vain : ∀ left g, enters left g → declaresMethod g.content method = false
  /-- Everything above a type was looked at, unless nothing was left. -/
  covered : ∀ left g, enters left g → left ≠ 0 →
    ∀ name ∈ supertypes g.content g.typeName, Covered lookup seen' name

theorem Spent.congr {enters enters' : Nat → SourceFile → Prop}
    {seen seen' : List String} (h : Spent lookup method enters seen seen')
    (heq : ∀ left g, enters' left g ↔ enters left g) :
    Spent lookup method enters' seen seen' := by
  obtain rfl : enters' = enters :=
    funext fun left => funext fun g => propext (heq left g)
  exact h

theorem Spent.idle {enters : Nat → SourceFile → Prop} (seen : List String)
    (hnone : ∀ left g, ¬ enters left g) :
    Spent lookup method enters seen seen where
  kept := List.Subset.refl _
  learned := fun _ hname => .inl hname
  vain := fun left g hg => absurd hg (hnone left g)
  covered := fun left g hg => absurd hg (hnone left g)

/-- A name that is given up has no source, and nothing is entered for it.
-/
theorem Spent.gaveUp (w : Walk) {name : String}
    (hnone : ∃ s, (lookup name s).1 = .ok none) :
    Spent lookup method (fun _ _ => False) w.seen (w.giveUp name).seen where
  kept := List.subset_cons_self _ _
  learned := by
    intro name' hname
    rcases List.mem_cons.1 hname with rfl | hold
    · exact .inr (.inr hnone)
    · exact .inl hold
  vain := fun _ _ => False.elim
  covered := fun _ _ => False.elim

/-- One search after the other. -/
theorem Spent.trans {enters enters' enters'' : Nat → SourceFile → Prop}
    {seen seen' seen'' : List String}
    (h : Spent lookup method enters seen seen')
    (h' : Spent lookup method enters' seen' seen'')
    (hboth : ∀ left g, enters'' left g ↔ enters left g ∨ enters' left g) :
    Spent lookup method enters'' seen seen'' where
  kept := List.Subset.trans h.kept h'.kept
  learned := by
    intro name hname
    rcases h'.learned name hname with hmid | ⟨left, g, hg, hg'⟩ | hnone
    · rcases h.learned name hmid with hold | ⟨left, g, hg, hg'⟩ | hnone
      · exact .inl hold
      · exact .inr (.inl ⟨left, g, (hboth left g).2 (.inl hg), hg'⟩)
      · exact .inr (.inr hnone)
    · exact .inr (.inl ⟨left, g, (hboth left g).2 (.inr hg), hg'⟩)
    · exact .inr (.inr hnone)
  vain := by
    intro left g hg
    rcases (hboth left g).1 hg with hfirst | hsecond
    · exact h.vain left g hfirst
    · exact h'.vain left g hsecond
  covered := by
    intro left g hg hleft name hname
    rcases (hboth left g).1 hg with hfirst | hsecond
    · exact (h.covered left g hfirst hleft name hname).mono h'.kept
    · exact h'.covered left g hsecond hleft name hname

/-- What a search of the types of these names enters. -/
def EntersAmong (lookup : Lookup ω) (method : String) (depth : Nat)
    (names : List String) (w : Walk) (s : ω) (left : Nat) (g : SourceFile) :
    Prop :=
  ∃ parent w' s',
    Comes lookup (search lookup method depth) names w s parent w' s' ∧
      Enters lookup method depth parent w' s' left g

section

variable {depth left : Nat} {name : String} {names : List String}
  {w w₂ : Walk} {s s₁ s₂ : ω} {parent g : SourceFile}

theorem entersAmong_nil : ¬ EntersAmong lookup method depth [] w s left g := by
  rintro ⟨parent, w', s', hcomes, -⟩
  cases hcomes

/-- A type that was seen before enters nothing. -/
theorem entersAmong_known (hseen : w.seen.contains name = true) :
    EntersAmong lookup method depth (name :: names) w s left g ↔
      EntersAmong lookup method depth names w s left g := by
  constructor
  · rintro ⟨parent, w', s', hcomes, hg⟩
    cases hcomes with
    | known _ hrest => exact ⟨parent, w', s', hrest, hg⟩
    | missing hnew | met hnew | here hnew | past hnew =>
      exact absurd (hseen.symm.trans hnew) (by decide)
  · rintro ⟨parent, w', s', hrest, hg⟩
    exact ⟨parent, w', s', .known hseen hrest, hg⟩

/-- A type without a source enters nothing, and its name is given up. -/
theorem entersAmong_missing (hseen : w.seen.contains name = false)
    (hl : lookup name s = (.ok none, s₁)) :
    EntersAmong lookup method depth (name :: names) w s left g ↔
      EntersAmong lookup method depth names (w.giveUp name) s₁ left g := by
  constructor
  · rintro ⟨parent, w', s', hcomes, hg⟩
    cases hcomes with
    | missing _ hl' hrest =>
      obtain ⟨-, rfl⟩ := Prod.mk.inj (hl.symm.trans hl')
      exact ⟨parent, w', s', hrest, hg⟩
    | known hold => exact absurd (hold.symm.trans hseen) (by decide)
    | met _ hl' | here _ hl' | past _ hl' => cases hl.symm.trans hl'
  · rintro ⟨parent, w', s', hrest, hg⟩
    exact ⟨parent, w', s', .missing hseen hl hrest, hg⟩

/-- A type that was met under another name enters nothing. -/
theorem entersAmong_met (hseen : w.seen.contains name = false)
    (hl : lookup name s = (.ok (some parent), s₁))
    (hparent : w.seen.contains parent.typeName = true) :
    EntersAmong lookup method depth (name :: names) w s left g ↔
      EntersAmong lookup method depth names w s₁ left g := by
  constructor
  · rintro ⟨parent', w', s', hcomes, hg⟩
    cases hcomes with
    | met _ hl' _ hrest =>
      obtain ⟨-, rfl⟩ := Prod.mk.inj (hl.symm.trans hl')
      exact ⟨parent', w', s', hrest, hg⟩
    | known hold => exact absurd (hold.symm.trans hseen) (by decide)
    | missing _ hl' => cases hl.symm.trans hl'
    | here _ hl' hnew | past _ hl' hnew =>
      cases hl.symm.trans hl'
      exact absurd (hparent.symm.trans hnew) (by decide)
  · rintro ⟨parent', w', s', hrest, hg⟩
    exact ⟨parent', w', s', .met hseen hl hparent hrest, hg⟩

/-- A type that is searched in vain enters what it enters, and then come
the others. -/
theorem entersAmong_past (hseen : w.seen.contains name = false)
    (hl : lookup name s = (.ok (some parent), s₁))
    (hparent : w.seen.contains parent.typeName = false)
    (hd : search lookup method depth parent w s₁ = (.ok (none, w₂), s₂)) :
    EntersAmong lookup method depth (name :: names) w s left g ↔
      Enters lookup method depth parent w s₁ left g ∨
        EntersAmong lookup method depth names w₂ s₂ left g := by
  constructor
  · rintro ⟨parent', w', s', hcomes, hg⟩
    cases hcomes with
    | here _ hl' _ =>
      cases hl.symm.trans hl'
      exact .inl hg
    | past _ hl' _ hd' hrest =>
      cases hl.symm.trans hl'
      cases hd.symm.trans hd'
      exact .inr ⟨parent', w', s', hrest, hg⟩
    | known hold => exact absurd (hold.symm.trans hseen) (by decide)
    | missing _ hl' => cases hl.symm.trans hl'
    | met _ hl' hold =>
      cases hl.symm.trans hl'
      exact absurd (hold.symm.trans hparent) (by decide)
  · rintro (hg | ⟨parent', w', s', hrest, hg⟩)
    · exact ⟨parent, w, s₁, .here hseen hl hparent, hg⟩
    · exact ⟨parent', w', s', .past hseen hl hparent hd hrest, hg⟩

end

/-- A search among types that finds nothing has spent what it entered. The
induction is on the names that are left, and each case is one of the four
things that a name can come to: it was known, it has no source, it was met
under another name, or it was searched in vain. -/
theorem searchNames_spent {depth : Nat}
    (hsearch : ∀ f w s w' s',
      search lookup method depth f w s = (.ok (none, w'), s') →
        Spent lookup method (Enters lookup method depth f w s) w.seen w'.seen ∧
          f.typeName ∈ w'.seen)
    (names : List String) :
    ∀ (w : Walk) (s : ω) (w' : Walk) (s' : ω),
      searchNames lookup (search lookup method depth) names w s =
          (.ok (none, w'), s') →
        Spent lookup method (EntersAmong lookup method depth names w s)
            w.seen w'.seen ∧
          ∀ name ∈ names, Covered lookup w'.seen name := by
  induction names with
  | nil =>
    intro w s w' s' h
    obtain ⟨h, -⟩ := Prod.mk.inj h
    obtain ⟨-, rfl⟩ := Prod.mk.inj (Except.ok.inj h)
    exact ⟨.idle _ fun _ _ => entersAmong_nil, by simp⟩
  | cons name names ih =>
    intro w s w' s' h
    rw [searchNames] at h
    split at h
    case isTrue hseen =>
      obtain ⟨hspent, hnames⟩ := ih w s w' s' h
      refine ⟨hspent.congr fun _ _ => entersAmong_known hseen, ?_⟩
      exact List.forall_mem_cons.2
        ⟨.inl (hspent.kept (List.contains_iff_mem.1 hseen)), hnames⟩
    case isFalse hseen =>
    rw [Bool.not_eq_true] at hseen
    rcases hl : lookup name s with ⟨e | file, s₁⟩
    · rw [Action.bind_error hl] at h
      cases h
    rw [Action.bind_ok hl] at h
    cases file with
    | none =>
      obtain ⟨hspent, hnames⟩ := ih _ s₁ w' s' h
      have hgiven : Spent lookup method (fun _ _ => False) w.seen
          (w.giveUp name).seen := .gaveUp w ⟨s, by rw [hl]⟩
      refine ⟨hgiven.trans hspent fun _ _ => ?_, ?_⟩
      · rw [entersAmong_missing hseen hl, false_or]
      · exact List.forall_mem_cons.2
          ⟨.inl (hspent.kept List.mem_cons_self), hnames⟩
    | some parent =>
      dsimp only at h
      have hcovered : ∀ {seen}, parent.typeName ∈ seen →
          Covered lookup seen name :=
        fun hmem => .inr ⟨s, parent, by rw [hl], hmem⟩
      split at h
      case isTrue hparent =>
        obtain ⟨hspent, hnames⟩ := ih w s₁ w' s' h
        refine ⟨hspent.congr fun _ _ => entersAmong_met hseen hl hparent, ?_⟩
        exact List.forall_mem_cons.2
          ⟨hcovered (hspent.kept (List.contains_iff_mem.1 hparent)), hnames⟩
      case isFalse hparent =>
      rw [Bool.not_eq_true] at hparent
      rcases hd : search lookup method depth parent w s₁ with
        ⟨e | ⟨result, w₂⟩, s₂⟩
      · rw [Action.bind_error hd] at h
        cases h
      rw [Action.bind_ok hd] at h
      cases result with
      | some found => cases h
      | none =>
        obtain ⟨hfirst, hmem⟩ := hsearch parent w s₁ w₂ s₂ hd
        obtain ⟨hspent, hnames⟩ := ih w₂ s₂ w' s' h
        refine ⟨hfirst.trans hspent fun _ _ =>
          entersAmong_past hseen hl hparent hd, ?_⟩
        exact List.forall_mem_cons.2 ⟨hcovered (hspent.kept hmem), hnames⟩

/-- The search of one type: it is entered itself, and then the types above
it are searched, if anything is left. -/
theorem search_spent (depth : Nat) :
    ∀ (f : SourceFile) (w : Walk) (s : ω) (w' : Walk) (s' : ω),
      search lookup method depth f w s = (.ok (none, w'), s') →
        Spent lookup method (Enters lookup method depth f w s) w.seen w'.seen ∧
          f.typeName ∈ w'.seen := by
  induction depth with
  | zero =>
    intro f w s w' s' h
    rw [search] at h
    split at h
    · cases h
    rename_i hnot
    obtain ⟨h, -⟩ := Prod.mk.inj h
    obtain ⟨-, rfl⟩ := Prod.mk.inj (Except.ok.inj h)
    refine ⟨⟨List.subset_cons_self _ _, ?_, ?_, ?_⟩, List.mem_cons_self⟩
    · intro name hname
      rcases List.mem_cons.1 hname with rfl | hold
      · exact .inr (.inl ⟨0, f, .here, rfl⟩)
      · exact .inl hold
    · intro left g hg
      obtain ⟨-, rfl⟩ := hg.bottom
      simpa using hnot
    · intro left g hg hleft
      exact absurd hg.bottom.1 hleft
  | succ depth ih =>
    intro f w s w' s' h
    rw [search] at h
    split at h
    · cases h
    rename_i hnot
    rw [Bool.not_eq_true] at hnot
    obtain ⟨hspent, hnames⟩ := searchNames_spent ih _ _ s w' s' h
    have hhere : f.typeName ∈ w'.seen := hspent.kept List.mem_cons_self
    -- What is entered is the type itself, or is entered among the types
    -- above it.
    have hsplit : ∀ {left g},
        Enters lookup method (depth + 1) f w s left g →
          (left = depth + 1 ∧ g = f) ∨
            EntersAmong lookup method depth
              (supertypes f.content f.typeName) (w.visit f.typeName) s
              left g := by
      intro left g hg
      cases hg with
      | here => exact .inl ⟨rfl, rfl⟩
      | above _ hcomes hrest => exact .inr ⟨_, _, _, hcomes, hrest⟩
    refine ⟨⟨fun name hname => hspent.kept (List.mem_cons_of_mem _ hname),
      ?_, ?_, ?_⟩, hhere⟩
    · intro name hname
      rcases hspent.learned name hname with hold | ⟨left, g, hg, hname⟩ | hnone
      · rcases List.mem_cons.1 hold with rfl | hold
        · exact .inr (.inl ⟨depth + 1, f, .here, rfl⟩)
        · exact .inl hold
      · obtain ⟨parent, w₁, s₁, hcomes, hrest⟩ := hg
        exact .inr (.inl ⟨left, g, .above hnot hcomes hrest, hname⟩)
      · exact .inr (.inr hnone)
    · intro left g hg
      rcases hsplit hg with ⟨-, rfl⟩ | hamong
      · exact hnot
      · exact hspent.vain left g hamong
    · intro left g hg hleft
      rcases hsplit hg with ⟨-, rfl⟩ | hamong
      · exact hnames
      · exact hspent.covered left g hamong hleft

-- ============================================================ failures

/-- A search among types fails only as a lookup does. -/
theorem searchNames_error
    (hdescend : ∀ f w s e, (descend f w s).1 = .error e →
      ∃ name s, (lookup name s).1 = .error e) (names : List String) :
    ∀ (w : Walk) (s : ω) (e : Failure),
      (searchNames lookup descend names w s).1 = .error e →
        ∃ name s, (lookup name s).1 = .error e := by
  induction names with
  | nil =>
    intro w s e h
    cases h
  | cons name names ih =>
    intro w s e h
    rw [searchNames] at h
    split at h
    · exact ih w s e h
    rcases hl : lookup name s with ⟨e' | file, s₁⟩
    · rw [Action.bind_error hl] at h
      obtain rfl := Except.error.inj h
      exact ⟨name, s, by rw [hl]⟩
    rw [Action.bind_ok hl] at h
    cases file with
    | none => exact ih _ s₁ e h
    | some parent =>
      dsimp only at h
      split at h
      · exact ih w s₁ e h
      rcases hd : descend parent w s₁ with ⟨e' | ⟨result, w₂⟩, s₂⟩
      · rw [Action.bind_error hd] at h
        obtain rfl := Except.error.inj h
        exact hdescend parent w s₁ e' (by rw [hd])
      rw [Action.bind_ok hd] at h
      cases result with
      | some found => cases h
      | none => exact ih w₂ s₂ e h

/-- A search fails with the failure of a lookup, and with no other. -/
theorem search_error (depth : Nat) :
    ∀ (f : SourceFile) (w : Walk) (s : ω) (e : Failure),
      (search lookup method depth f w s).1 = .error e →
        ∃ name s, (lookup name s).1 = .error e := by
  induction depth with
  | zero =>
    intro f w s e h
    rw [search] at h
    split at h <;> cases h
  | succ depth ih =>
    intro f w s e h
    rw [search] at h
    split at h
    · cases h
    · exact searchNames_error ih _ _ s e h

end Walk

-- ======================================================= completeness

/-- A name that stands for one source: whoever looks it up finds that
source, or fails, and no other source bears it. -/
structure Sole (lookup : Lookup ω) (name : String) (f : SourceFile) : Prop where
  found : ∀ s file, (lookup name s).1 = .ok file → file = some f
  borne : ∀ name' s g, (lookup name' s).1 = .ok (some g) →
    g.typeName = name → g = f

/-- One source is directly above another: the declaration of the one names
it, and the name, as well as the one it bears itself, stands for it
alone. -/
def Above (lookup : Lookup ω) (f g : SourceFile) : Prop :=
  ∃ name ∈ supertypes f.content f.typeName,
    Sole lookup name g ∧ Sole lookup g.typeName g

section

variable {depth : Nat} {typeName : String} {s s' : ω} {root : SourceFile}

/-- After a search in vain, the source above an entered one was entered,
unless the entered one was so with nothing left. -/
theorem Above.entered {w : Walk} {left : Nat} {f g : SourceFile}
    (h : Above lookup f g) (hroot : (lookup typeName s).1 = .ok (some root))
    (hspent : Walk.Spent lookup method
      (Walk.Enters lookup method depth root {} s') [] w.seen)
    (hf : Walk.Enters lookup method depth root {} s' left f)
    (hleft : left ≠ 0) :
    ∃ left', Walk.Enters lookup method depth root {} s' left' g := by
  -- A name that is known and stands for `g` alone is the name of an entered
  -- type, and so that of `g`.
  have known : ∀ name, Sole lookup name g → name ∈ w.seen →
      ∃ left', Walk.Enters lookup method depth root {} s' left' g := by
    intro name hsole hname
    rcases hspent.learned name hname with hnil | ⟨left', g', hg', hbears⟩ | hnone
    · exact absurd hnil (by simp)
    · have hfound : ∃ name' s, (lookup name' s).1 = .ok (some g') := by
        rcases hg'.looked_up with rfl | hfound
        · exact ⟨typeName, s, hroot⟩
        · exact hfound
      obtain ⟨name', s, hfound⟩ := hfound
      obtain rfl := hsole.borne name' s g' hfound hbears
      exact ⟨left', hg'⟩
    · obtain ⟨s, hnone⟩ := hnone
      cases hsole.found s none hnone
  obtain ⟨name, hname, hsole, hown⟩ := h
  rcases hspent.covered left f hf hleft name hname with
    hseen | ⟨s, parent, hl, hparent⟩
  · exact known name hsole hseen
  · obtain rfl := Option.some.inj (hsole.found s _ hl)
    exact known _ hown hparent

/-- After a search in vain, all sources along a way up were entered, when
none before the last was entered with nothing left. -/
theorem entered_last {w : Walk}
    (hroot : (lookup typeName s).1 = .ok (some root))
    (hspent : Walk.Spent lookup method
      (Walk.Enters lookup method depth root {} s') [] w.seen)
    (way : List SourceFile) :
    ∀ (f : SourceFile) (left : Nat), (f :: way).IsChain (Above lookup) →
      Walk.Enters lookup method depth root {} s' left f →
      (way ≠ [] → left ≠ 0) →
      (∀ g ∈ way.dropLast,
        ¬ Walk.Enters lookup method depth root {} s' 0 g) →
      ∃ left', Walk.Enters lookup method depth root {} s' left'
        ((f :: way).getLast (List.cons_ne_nil f way)) := by
  induction way with
  | nil => exact fun f left _ hf _ _ => ⟨left, hf⟩
  | cons g way ih =>
    intro f left hway hf hleft hlimit
    obtain ⟨habove, hway⟩ := List.isChain_cons_cons.1 hway
    obtain ⟨left', hg⟩ := habove.entered hroot hspent hf (hleft (by simp))
    rw [List.getLast_cons (List.cons_ne_nil g way)]
    refine ih g left' hway hg ?_ ?_
    · rintro hmore rfl
      refine hlimit g ?_ hg
      rw [List.dropLast_cons_of_ne_nil hmore]
      exact List.mem_cons_self
    · intro h hh
      refine hlimit h ?_
      rw [List.dropLast_cons_of_ne_nil (by rintro rfl; simp at hh)]
      exact List.mem_cons_of_mem _ hh

/-- A method is found when a way leads from the source of the type to one
that declares it, of as many levels as may be searched at most, and no
type between the two ends is entered with nothing left. -/
theorem resolve_complete {way : List SourceFile}
    (hroot : lookup typeName s = (.ok (some root), s'))
    (hway : (root :: way).IsChain (Above lookup))
    (hlength : way.length ≤ depth)
    (hdeclares : declaresMethod ((root :: way).getLast
      (List.cons_ne_nil root way)).content method = true)
    (hlimit : ∀ f ∈ way.dropLast,
      ¬ Walk.Enters lookup method depth root {} s' 0 f) :
    (∃ r, (resolve lookup depth typeName method s).1 = .ok r ∧
      r.declared = true ∧ declaresMethod r.source.content method = true) ∨
    ∃ e, (resolve lookup depth typeName method s).1 = .error e ∧
      ∃ name s, (lookup name s).1 = .error e := by
  have hrun : resolve lookup depth typeName method s = _ :=
    Action.bind_ok hroot
  dsimp only at hrun
  rw [hrun]
  rcases hsearch : Walk.search lookup method depth root {} s' with
    ⟨e | ⟨result, w⟩, s''⟩
  · rw [Action.bind_error hsearch]
    exact .inr ⟨e, rfl, Walk.search_error depth root {} s' e (by rw [hsearch])⟩
  rw [Action.bind_ok hsearch]
  cases result with
  | some source =>
    obtain ⟨-, hfound⟩ := Walk.search_found (P := fun _ => True)
      (fun _ _ _ _ => trivial) method depth root {} s' source w trivial
      (by rw [hsearch])
    exact .inl ⟨_, rfl, rfl, hfound⟩
  | none =>
    obtain ⟨hspent, -⟩ := Walk.search_spent depth root {} s' w s'' hsearch
    have hdepth : way ≠ [] → depth ≠ 0 := by
      rintro hmore rfl
      exact hmore (List.length_eq_zero_iff.1 (by omega))
    obtain ⟨left, hlast⟩ := entered_last (by rw [hroot]) hspent way root depth
      hway .here hdepth hlimit
    have hnot := hspent.vain left _ hlast
    rw [hdeclares] at hnot
    cases hnot

end

-- ======================================================== two examples

/-- The sources of these types, each found under the name of its type. -/
def among (files : List SourceFile) : Lookup Unit :=
  fun name u => (.ok (files.find? (·.typeName == name)), u)

/-- Among files a type has one source, the first one of its name. -/
theorem among_sole {files : List SourceFile} {f : SourceFile}
    (h : files.find? (·.typeName == f.typeName) = some f) :
    Sole (among files) f.typeName f where
  found := by
    intro u file hfile
    exact (Except.ok.inj hfile).symm.trans h
  borne := by
    intro name u g hg hname
    have hg : files.find? (·.typeName == name) = some g := Except.ok.inj hg
    have hbears : g.typeName = name := by simpa using List.find?_some hg
    exact Option.some.inj ((hname ▸ hbears ▸ hg).symm.trans h)

theorem among_above {files : List SourceFile} {f g : SourceFile}
    (hname : g.typeName ∈ supertypes f.content f.typeName)
    (h : files.find? (·.typeName == g.typeName) = some g) :
    Above (among files) f g :=
  ⟨g.typeName, hname, among_sole h, among_sole h⟩

/-- From a type, no climb is longer than `k` levels when all climbs from
the types directly above it are shorter. -/
theorem climbs_le (files : List SourceFile) (f : SourceFile) (k : Nat)
    (hall : ∀ name ∈ supertypes f.content f.typeName, ∀ parent,
      files.find? (·.typeName == name) = some parent →
        ∀ m g, Walk.Climbs (among files) m parent g → m < k) (n : Nat)
    (g : SourceFile) (h : Walk.Climbs (among files) n f g) : n ≤ k := by
  cases h with
  | here => exact Nat.zero_le k
  | above hname hl hrest =>
    exact hall _ hname _ (Except.ok.inj hl) _ g hrest

/-- A source in a file of its own. -/
def sketch (typeName content : String) : SourceFile :=
  ⟨typeName, typeName, content, "java"⟩

def child : SourceFile := sketch "Child" "class Child extends Middle {}"
def middle : SourceFile := sketch "Middle" "class Middle extends Base {}"
def base : SourceFile := sketch "Base" "void run() {}"

/-- The method is found two types up. -/
theorem resolve_complete_child :
    (∃ r, (resolve (among [child, middle, base]) 10 "Child" "run" ()).1 = .ok r ∧
      r.declared = true ∧ declaresMethod r.source.content "run" = true) ∨
    ∃ e, (resolve (among [child, middle, base]) 10 "Child" "run" ()).1 =
        .error e ∧
      ∃ name s, (among [child, middle, base] name s).1 = .error e := by
  have hchild : supertypes child.content child.typeName = ["Middle"] := by
    decide +kernel
  have hmiddle : supertypes middle.content middle.typeName = ["Base"] := by
    decide +kernel
  have hbase : supertypes base.content base.typeName = [] := by
    decide +kernel
  refine @resolve_complete _ _ _ _ _ _ _ child [middle, base] rfl ?_
    (by decide) (by decide +kernel) ?_
  · refine .cons_cons (among_above ?_ (by decide)) (.cons_cons
      (among_above ?_ (by decide)) (.singleton _))
    · rw [hchild]; decide
    · rw [hmiddle]; decide
  · -- No climb in this hierarchy has ten levels.
    have hbase_le := climbs_le [child, middle, base] base 0
      (by rw [hbase]; simp)
    have hmiddle_le := climbs_le [child, middle, base] middle 1 (by
        rw [hmiddle]
        intro name hname parent hparent m g h
        obtain rfl := List.mem_singleton.1 hname
        obtain rfl : base = parent := Option.some.inj hparent
        exact Nat.lt_succ_of_le (hbase_le m g h))
    have hchild_le := climbs_le [child, middle, base] child 2 (by
        rw [hchild]
        intro name hname parent hparent m g h
        obtain rfl := List.mem_singleton.1 hname
        obtain rfl : middle = parent := Option.some.inj hparent
        exact Nat.lt_succ_of_le (hmiddle_le m g h))
    rintro f - hf
    obtain ⟨n, hn, hclimbs⟩ := hf.climbs
    have hle : n ≤ 2 := hchild_le n f hclimbs
    omega

/-- A way up of at most `depth` levels leads to a declaration of `run`, and
the method is not found. -/
def Missed (lookup : Lookup Unit) (depth : Nat) (root : SourceFile)
    (way : List SourceFile) : Prop :=
  lookup root.typeName () = (.ok (some root), ()) ∧
    (root :: way).IsChain (fun f g =>
      ∃ name ∈ supertypes f.content f.typeName,
        ∀ s, (lookup name s).1 = .ok (some g)) ∧
    way.length ≤ depth ∧
    declaresMethod ((root :: way).getLast
      (List.cons_ne_nil root way)).content "run" = true ∧
    (resolve lookup depth root.typeName "run" ()).1.toOption.map
      Resolved.declared = some false

def lower : SourceFile := sketch "Lower" "class Lower extends Left, Upper {}"
def leftSide : SourceFile := sketch "Left" "class Left extends Upper {}"
def upper : SourceFile := sketch "Upper" "class Upper extends Base {}"

/-- The source of another type under the name of this one. -/
def namesake : SourceFile := sketch "Upper" "class Upper {}"

/-- A declaration two levels up is missed when the type between is first met
two levels up, on a longer way; and one in a type whose name another
source bears is missed whatever the depth. -/
theorem resolve_misses :
    Missed (among [lower, leftSide, upper, base]) 2 lower [upper, base] ∧
    Missed (fun name u => (.ok (if name = "Left" then some namesake
      else [lower, upper, base].find? (·.typeName == name)), u)) 10
      lower [upper, base] := by
  have hlower : supertypes lower.content lower.typeName = ["Left", "Upper"] := by
    decide +kernel
  have hupper : supertypes upper.content upper.typeName = ["Base"] := by
    decide +kernel
  have hdeclares : declaresMethod base.content "run" = true := by
    decide +kernel
  constructor
  · refine ⟨rfl, ?_, by decide, hdeclares, by decide +kernel⟩
    refine .cons_cons ⟨"Upper", ?_, fun _ => rfl⟩
      (.cons_cons ⟨"Base", ?_, fun _ => rfl⟩ (.singleton _))
    · rw [hlower]; decide
    · rw [hupper]; decide
  · refine ⟨rfl, ?_, by decide, hdeclares, by decide +kernel⟩
    refine .cons_cons ⟨"Upper", ?_, fun _ => rfl⟩
      (.cons_cons ⟨"Base", ?_, fun _ => rfl⟩ (.singleton _))
    · rw [hlower]; decide
    · rw [hupper]; decide

end CallTrace.Source
