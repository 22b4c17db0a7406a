/-
What the search for a declaration does to the state.

The search does nothing but look up the sources of types, one after the
other. So a relation between states that every lookup brings about, and
that holds from one state to a third when it holds over a second, holds
from the start of the search to its end. And where the lookups of two
searches mirror each other, so do the searches.

What a method is resolved to was looked up, and declares the method unless
it is the source of the type itself. So the type that defines a method is
resolved to its own source.
-/
import CallTrace.Proofs.Action
import CallTrace.Source.Resolve

namespace CallTrace.Source

variable {ω : Type}

section

variable {R : ω → ω → Prop} (hrefl : ∀ s, R s s)
  (htrans : ∀ s s' s'', R s s' → R s' s'' → R s s'')
  {lookup : Lookup ω} (hlookup : ∀ name, (lookup name).Changes R)

include hrefl htrans hlookup

/-- What looking up and descending keep, a search among types keeps. -/
theorem Walk.changes_searchNames
    {descend : SourceFile → Walk → Action ω (Option SourceFile × Walk)}
    (hdescend : ∀ f w, (descend f w).Changes R) (names : List String)
    (w : Walk) : (searchNames lookup descend names w).Changes R := by
  induction names generalizing w with
  | nil => exact Action.changes_pure hrefl _
  | cons name names ih =>
    rw [searchNames]
    split
    · exact ih w
    refine Action.changes_bind htrans (hlookup name) fun found => ?_
    rcases found with _ | parent
    · exact ih _
    dsimp only
    split
    · exact ih w
    refine Action.changes_bind htrans (hdescend parent w) fun r => ?_
    rcases r with ⟨_ | found, w'⟩
    · exact ih w'
    · exact Action.changes_pure hrefl _

/-- What looking up keeps, a search keeps, however deep it goes. -/
theorem Walk.changes_search (method : String) (depth : Nat)
    (source : SourceFile) (w : Walk) :
    (search lookup method depth source w).Changes R := by
  induction depth generalizing source w with
  | zero =>
    rw [search]
    split <;> exact Action.changes_pure hrefl _
  | succ depth ih =>
    rw [search]
    split
    · exact Action.changes_pure hrefl _
    · exact changes_searchNames hrefl htrans hlookup ih _ _

/-- What looking up keeps, resolving keeps. -/
theorem changes_resolve (depth : Nat) (typeName method : String) :
    (resolve lookup depth typeName method).Changes R := by
  refine Action.changes_bind htrans (hlookup typeName) fun found => ?_
  rcases found with _ | root
  · exact Action.changes_throw hrefl _
  refine Action.changes_bind htrans
    (Walk.changes_search hrefl htrans hlookup method depth root {})
    fun r => ?_
  rcases r with ⟨_ | found, w⟩ <;> exact Action.changes_pure hrefl _

end

-- ============================================================= mirrors

section

variable {ω' : Type} {R : ω → ω' → Prop} {lookup : Lookup ω}
  {lookup' : Lookup ω'}
  (hlookup : ∀ name, Mirrors R (lookup name) (lookup' name))

include hlookup

/-- Two searches among types mirror each other, if their lookups and
descents do. -/
theorem Walk.mirrors_searchNames
    {descend : SourceFile → Walk → Action ω (Option SourceFile × Walk)}
    {descend' : SourceFile → Walk → Action ω' (Option SourceFile × Walk)}
    (hdescend : ∀ f w, Mirrors R (descend f w) (descend' f w))
    (names : List String) (w : Walk) :
    Mirrors R (searchNames lookup descend names w)
      (searchNames lookup' descend' names w) := by
  induction names generalizing w with
  | nil => exact Action.mirrors_pure _
  | cons name names ih =>
    rw [searchNames, searchNames]
    split
    · exact ih w
    refine Action.mirrors_bind (hlookup name) fun found => ?_
    rcases found with _ | parent
    · exact ih _
    dsimp only
    split
    · exact ih w
    refine Action.mirrors_bind (hdescend parent w) fun r => ?_
    rcases r with ⟨_ | found, w'⟩
    · exact ih w'
    · exact Action.mirrors_pure _

/-- Two searches mirror each other, if their lookups do. -/
theorem Walk.mirrors_search (method : String) (depth : Nat)
    (source : SourceFile) (w : Walk) :
    Mirrors R (search lookup method depth source w)
      (search lookup' method depth source w) := by
  induction depth generalizing source w with
  | zero =>
    rw [search, search]
    split <;> exact Action.mirrors_pure _
  | succ depth ih =>
    rw [search, search]
    split
    · exact Action.mirrors_pure _
    · exact mirrors_searchNames hlookup ih _ _

/-- Resolving mirrors resolving, if the lookups mirror each other. -/
theorem mirrors_resolve (depth : Nat) (typeName method : String) :
    Mirrors R (resolve lookup depth typeName method)
      (resolve lookup' depth typeName method) := by
  refine Action.mirrors_bind (hlookup typeName) fun found => ?_
  rcases found with _ | root
  · exact Action.mirrors_throw _
  refine Action.mirrors_bind
    (Walk.mirrors_search hlookup method depth root {}) fun r => ?_
  rcases r with ⟨_ | found, w⟩ <;> exact Action.mirrors_pure _

end

-- ======================================================= what is found

section

variable {lookup : Lookup ω} {P : SourceFile → Prop}
  (hlookup : ∀ name s f, (lookup name s).1 = .ok (some f) → P f)

include hlookup

/-- What is true of whatever a descent finds is true of what is found among
types. -/
theorem Walk.searchNames_found {Q : SourceFile → Prop}
    {descend : SourceFile → Walk → Action ω (Option SourceFile × Walk)}
    (hdescend : ∀ f w s found w', P f →
      (descend f w s).1 = .ok (some found, w') → Q found)
    (names : List String) :
    ∀ (w : Walk) (s : ω) (found : SourceFile) (w' : Walk),
      (searchNames lookup descend names w s).1 = .ok (some found, w') →
        Q found := by
  induction names with
  | nil =>
    intro w s found w' h
    exact absurd h (by simp [searchNames, Action.pure_run])
  | cons name names ih =>
    intro w s found w' h
    rw [searchNames] at h
    split at h
    · exact ih w s found w' h
    rcases hl : lookup name s with ⟨e | file, s'⟩
    · rw [Action.bind_error hl] at h
      exact absurd h (by simp)
    rw [Action.bind_ok hl] at h
    cases file with
    | none => exact ih _ s' found w' h
    | some parent =>
      have hparent : P parent := hlookup name s parent (by rw [hl])
      dsimp only at h
      split at h
      · exact ih w s' found w' h
      rcases hd : descend parent w s' with ⟨e | ⟨result, w''⟩, s''⟩
      · rw [Action.bind_error hd] at h
        exact absurd h (by simp)
      rw [Action.bind_ok hd] at h
      cases result with
      | none => exact ih w'' s'' found w' h
      | some f =>
        obtain ⟨⟨⟩, -⟩ := Prod.mk.inj (Except.ok.inj h)
        exact hdescend parent w s' found w'' hparent (by rw [hd])

/-- The source that a search finds declares the method, and is the one
where the search begins or one that was looked up. -/
theorem Walk.search_found (method : String) (depth : Nat) :
    ∀ (source : SourceFile) (w : Walk) (s : ω) (found : SourceFile)
      (w' : Walk), P source →
      (search lookup method depth source w s).1 = .ok (some found, w') →
        P found ∧ declaresMethod found.content method = true := by
  induction depth with
  | zero =>
    intro source w s found w' hsource h
    rw [search] at h
    split at h
    · rename_i hdeclares
      obtain ⟨⟨⟩, -⟩ := Prod.mk.inj (Except.ok.inj h)
      exact ⟨hsource, hdeclares⟩
    · exact absurd h (by simp [Action.pure_run])
  | succ depth ih =>
    intro source w s found w' hsource h
    rw [search] at h
    split at h
    · rename_i hdeclares
      obtain ⟨⟨⟩, -⟩ := Prod.mk.inj (Except.ok.inj h)
      exact ⟨hsource, hdeclares⟩
    · exact searchNames_found hlookup
        (Q := fun f => P f ∧ declaresMethod f.content method = true)
        (fun f w s found w' => ih f w s found w') _ _ s found w' h

/-- A method is resolved to a source that declares it, or to that of the
type itself; in either case the source was looked up. -/
theorem resolve_found {depth : Nat} {typeName method : String} {s : ω}
    {r : Resolved}
    (h : (resolve lookup depth typeName method s).1 = .ok r) :
    P r.source ∧ (declaresMethod r.source.content method = true ∨
      (lookup typeName s).1 = .ok (some r.source)) := by
  rw [resolve] at h
  rcases hl : lookup typeName s with ⟨e | file, s'⟩
  · rw [Action.bind_error hl] at h
    exact absurd h (by simp)
  rw [Action.bind_ok hl] at h
  cases file with
  | none => exact absurd h (by simp [Action.throw_run])
  | some root =>
    have hroot : P root := hlookup typeName s root (by rw [hl])
    dsimp only at h
    rcases hs : Walk.search lookup method depth root {} s' with
      ⟨e | ⟨result, w⟩, s''⟩
    · rw [Action.bind_error hs] at h
      exact absurd h (by simp)
    rw [Action.bind_ok hs] at h
    cases result with
    | some source =>
      obtain rfl := Except.ok.inj h
      obtain ⟨hP, hdeclares⟩ := Walk.search_found hlookup method depth root
        {} s' source w hroot (by rw [hs])
      exact ⟨hP, .inl hdeclares⟩
    | none =>
      obtain rfl := Except.ok.inj h
      exact ⟨hroot, .inr rfl⟩

end

-- ====================================================== fixed sources

/-- The source that a method is resolved to when the sources are what
`sourceOf` says. -/
def resolved (sourceOf : String → Except Failure (Option SourceFile))
    (depth : Nat) (typeName method : String) : Except Failure Resolved :=
  (resolve (fun name u => (sourceOf name, u)) depth typeName method ()).1

/-- Where sources bear the names under which they are looked up, a method
that was found in the source of a type is found there as well by one who
looks for it in that type. -/
theorem resolved_defining
    {sourceOf : String → Except Failure (Option SourceFile)} {depth : Nat}
    {typeName method : String} {r : Resolved}
    (hnamed : ∀ name f, sourceOf name = .ok (some f) → f.typeName = name)
    (h : resolved sourceOf depth typeName method = .ok r) :
    ∃ r', resolved sourceOf depth r.defining method = .ok r' ∧
      r'.source = r.source := by
  have hlookup : ∀ name (u : Unit) f,
      ((fun name u => (sourceOf name, u) : Lookup Unit) name u).1 =
          .ok (some f) →
        sourceOf f.typeName = .ok (some f) := by
    intro name u f hf
    rw [hnamed name f hf]
    exact hf
  obtain ⟨hsource, hwhere⟩ := resolve_found hlookup h
  rcases hwhere with hdeclares | hown
  · have hrun : (fun name u => (sourceOf name, u) : Lookup Unit) r.defining ()
        = (.ok (some r.source), ()) := Prod.ext hsource rfl
    refine ⟨⟨r.source.typeName, r.source, [r.source.typeName], true⟩, ?_,
      rfl⟩
    rw [resolved, resolve, Action.bind_ok hrun]
    have hsearch : Walk.search (fun name u => (sourceOf name, u)) method
        depth r.source {} () =
        (.ok (some r.source, ⟨[r.source.typeName], [r.source.typeName]⟩), ())
        := by
      cases depth <;> rw [Walk.search, if_pos hdeclares] <;> rfl
    dsimp only
    rw [Action.bind_ok hsearch]
    rfl
  · have hname : r.defining = typeName := hnamed typeName r.source hown
    exact ⟨r, hname ▸ h, rfl⟩

end CallTrace.Source
