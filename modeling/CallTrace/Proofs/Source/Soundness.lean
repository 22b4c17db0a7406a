/-
What the search for a declaration may say.

A search goes through types one after the other, and each of them is new
to the walk when it is entered. So the chain holds no name twice, whatever
the sources are: a hierarchy may be endless, run in circles, or lead to
one type on several ways, and a source may bear another name than the one
it was looked up under.

None of the types declares the method but the one with which the search
ends: a declaration ends it at once. This is the whole of what a search
says, so the types it went through are also the reason for what it says,
a declaration in the last of them or in none.

A name is looked up only while the walk does not know it. Where a source
bears the name it is looked up under, the walk knows every name that was
looked up, either since the type was entered or since it has no source;
so no name is looked up a second time.
-/
import CallTrace.Proofs.Source.Completeness
import Mathlib.Data.List.Nodup

namespace CallTrace.Source

variable {ω : Type} {lookup : Lookup ω} {method : String}

-- ============================================ the types of a search

namespace Walk

/-- From the walk `w` to the walk `w'` a search goes through the types of
these files, and `result` is what it finds. -/
structure Through (method : String) (files : List SourceFile)
    (result : Option SourceFile) (w w' : Walk) : Prop where
  chain : w'.chain = w.chain ++ files.map (·.typeName)
  kept : w.seen ⊆ w'.seen
  known : ∀ f ∈ files, f.typeName ∈ w'.seen
  new : ∀ f ∈ files, f.typeName ∉ w.seen
  once : (files.map (·.typeName)).Nodup
  declares : ∀ f ∈ files, declaresMethod f.content method = true →
    result = some f
  found : ∀ f, result = some f →
    files.getLast? = some f ∧ declaresMethod f.content method = true

namespace Through

variable {w w' w'' : Walk} {f : SourceFile} {files files' : List SourceFile}
  {result : Option SourceFile}

/-- A search that enters no type. -/
theorem idle (w : Walk) : Through method [] none w w where
  chain := by simp
  kept := List.Subset.refl _
  known := by simp
  new := by simp
  once := List.nodup_nil
  declares := by simp
  found := by simp

/-- Giving up a name goes through no type and finds nothing. -/
theorem gaveUp (w : Walk) (name : String) :
    Through method [] none w (w.giveUp name) where
  chain := by simp [giveUp]
  kept := List.subset_cons_self _ _
  known := by simp
  new := by simp
  once := List.nodup_nil
  declares := by simp
  found := by simp

/-- A search that enters one type, and finds the method there if it is
declared there. -/
theorem visit (hnew : f.typeName ∉ w.seen)
    (hdeclares : declaresMethod f.content method = true → result = some f)
    (hfound : ∀ g, result = some g →
      g = f ∧ declaresMethod f.content method = true) :
    Through method [f] result w (w.visit f.typeName) where
  chain := rfl
  kept := List.subset_cons_self _ _
  known := by simp [Walk.visit]
  new := by simpa using hnew
  once := List.nodup_singleton _
  declares := by simpa using hdeclares
  found := by
    intro g hg
    obtain ⟨rfl, hg⟩ := hfound g hg
    exact ⟨rfl, hg⟩

/-- A search goes on with another one as long as nothing is found. -/
theorem trans (h : Through method files none w w')
    (h' : Through method files' result w' w'') :
    Through method (files ++ files') result w w'' where
  chain := by
    rw [h'.chain, h.chain, List.map_append, List.append_assoc]
  kept := List.Subset.trans h.kept h'.kept
  known := by
    intro f hf
    rcases List.mem_append.1 hf with hf | hf
    · exact h'.kept (h.known f hf)
    · exact h'.known f hf
  new := by
    intro f hf
    rcases List.mem_append.1 hf with hf | hf
    · exact h.new f hf
    · exact fun hold => h'.new f hf (h.kept hold)
  once := by
    rw [List.map_append]
    refine List.Nodup.append h.once h'.once fun name hname hname' => ?_
    obtain ⟨f, hf, rfl⟩ := List.mem_map.1 hname
    obtain ⟨g, hg, hsame⟩ := List.mem_map.1 hname'
    exact h'.new g hg (hsame ▸ h.known f hf)
  declares := by
    intro f hf hdeclares
    rcases List.mem_append.1 hf with hf | hf
    · cases h.declares f hf hdeclares
    · exact h'.declares f hf hdeclares
  found := by
    intro f hf
    obtain ⟨hlast, hdeclares⟩ := h'.found f hf
    exact ⟨by rw [List.getLast?_append, hlast]; rfl, hdeclares⟩

end Through

/-- All of these sources were looked up. -/
def LookedUp (lookup : Lookup ω) (files : List SourceFile) : Prop :=
  ∀ f ∈ files, ∃ name s, (lookup name s).1 = .ok (some f)

/-- A search among types goes through the types it descends into, each of
them looked up. The induction is on the names that are left, with what was
seen growing along. -/
theorem searchNames_through
    {descend : SourceFile → Walk → Action ω (Option SourceFile × Walk)}
    (hdescend : ∀ f w s result w', f.typeName ∉ w.seen →
      (descend f w s).1 = .ok (result, w') →
        ∃ more, LookedUp lookup more ∧
          Through method (f :: more) result w w') (names : List String) :
    ∀ (w : Walk) (s : ω) (result : Option SourceFile) (w' : Walk),
      (searchNames lookup descend names w s).1 = .ok (result, w') →
        ∃ files, LookedUp lookup files ∧ Through method files result w w' := by
  induction names with
  | nil =>
    intro w s result w' h
    obtain ⟨rfl, rfl⟩ := Prod.mk.inj (Except.ok.inj h)
    exact ⟨[], by simp [LookedUp], .idle w⟩
  | cons name names ih =>
    intro w s result w' h
    rw [searchNames] at h
    split at h
    · exact ih w s result w' h
    rcases hl : lookup name s with ⟨e | file, s₁⟩
    · rw [Action.bind_error hl] at h
      cases h
    rw [Action.bind_ok hl] at h
    cases file with
    | none =>
      obtain ⟨files, hup, hfiles⟩ := ih _ s₁ result w' h
      exact ⟨files, hup, (Through.gaveUp w name).trans hfiles⟩
    | some parent =>
      dsimp only at h
      split at h
      · exact ih w s₁ result w' h
      rename_i hnew
      rw [List.contains_iff_mem] at hnew
      rcases hd : descend parent w s₁ with ⟨e | ⟨result', w₂⟩, s₂⟩
      · rw [Action.bind_error hd] at h
        cases h
      rw [Action.bind_ok hd] at h
      obtain ⟨more, hmore, hthrough⟩ :=
        hdescend parent w s₁ result' w₂ hnew (by rw [hd])
      have hparent : LookedUp lookup (parent :: more) :=
        List.forall_mem_cons.2 ⟨⟨name, s, by rw [hl]⟩, hmore⟩
      cases result' with
      | some found =>
        obtain ⟨rfl, rfl⟩ := Prod.mk.inj (Except.ok.inj h)
        exact ⟨_, hparent, hthrough⟩
      | none =>
        obtain ⟨files, hup, hfiles⟩ := ih w₂ s₂ result w' h
        refine ⟨_, ?_, hthrough.trans hfiles⟩
        exact List.forall_mem_append.2 ⟨hparent, hup⟩

/-- A search goes through the type where it begins and then through types
whose sources it looks up, none of them known to the walk. -/
theorem search_through (depth : Nat) :
    ∀ (f : SourceFile) (w : Walk) (s : ω) (result : Option SourceFile)
      (w' : Walk), f.typeName ∉ w.seen →
      (search lookup method depth f w s).1 = .ok (result, w') →
        ∃ more, LookedUp lookup more ∧
          Through method (f :: more) result w w' := by
  induction depth with
  | zero =>
    intro f w s result w' hnew h
    rw [search] at h
    refine ⟨[], by simp [LookedUp], ?_⟩
    split at h <;> rename_i hdeclares <;>
      obtain ⟨rfl, rfl⟩ := Prod.mk.inj (Except.ok.inj h)
    · exact .visit hnew (fun _ => rfl)
        fun g hg => ⟨by simpa using hg.symm, hdeclares⟩
    · exact .visit hnew (fun h => absurd h hdeclares) (by simp)
  | succ depth ih =>
    intro f w s result w' hnew h
    rw [search] at h
    split at h <;> rename_i hdeclares
    · obtain ⟨rfl, rfl⟩ := Prod.mk.inj (Except.ok.inj h)
      exact ⟨[], by simp [LookedUp], .visit hnew (fun _ => rfl)
        fun g hg => ⟨by simpa using hg.symm, hdeclares⟩⟩
    · obtain ⟨more, hup, hmore⟩ := searchNames_through ih _ _ s result w' h
      have hhere : Through method [f] none w (w.visit f.typeName) :=
        .visit hnew (fun h => absurd h hdeclares) (by simp)
      exact ⟨more, hup, hhere.trans hmore⟩

end Walk

-- ==================================================== what is looked up

/-- The lookups, with a list of all names that were looked up. -/
def noted (lookup : Lookup ω) : Lookup (ω × List String) :=
  fun name p => ((lookup name p.1).1, (lookup name p.1).2, p.2 ++ [name])

/-- Sources bear the names under which they are looked up. -/
def Lookup.Named (lookup : Lookup ω) : Prop :=
  ∀ name s f, (lookup name s).1 = .ok (some f) → f.typeName = name

/-- A list of lookups is made beside them. -/
theorem mirrors_noted (name : String) :
    Mirrors (fun s (p : ω × List String) => p.1 = s) (lookup name)
      (noted lookup name) := by
  rintro s p rfl
  exact ⟨rfl, rfl⟩

theorem resolve_noted (depth : Nat) (typeName : String) (s : ω)
    (names : List String) :
    ∃ names', resolve (noted lookup) depth typeName method (s, names) =
      ((resolve lookup depth typeName method s).1,
        (resolve lookup depth typeName method s).2, names') := by
  obtain ⟨hresult, hstate⟩ := mirrors_resolve (@mirrors_noted ω lookup)
    depth typeName method s (s, names) rfl
  exact ⟨_, Prod.ext hresult.symm (Prod.ext hstate rfl)⟩

namespace Walk

/-- No name is on the list twice, and where the walk goes on, it knows all
names on the list. -/
def Accounts (r : Except Failure (Option SourceFile × Walk))
    (names : List String) : Prop :=
  names.Nodup ∧ ∀ result w, r = .ok (result, w) → names ⊆ w.seen

variable {names names' : List String} {w : Walk} {s : ω}

theorem accounts_ok {result : Option SourceFile} (honce : names.Nodup)
    (hknown : names ⊆ w.seen) : Accounts (.ok (result, w)) names := by
  refine ⟨honce, ?_⟩
  rintro _ _ ⟨⟩
  exact hknown

theorem accounts_error {e : Failure} (honce : names.Nodup) :
    Accounts (.error e) names :=
  ⟨honce, by rintro _ _ ⟨⟩⟩

/-- A name that the walk does not know is not on the list. -/
theorem nodup_noted {name : String} (honce : names.Nodup)
    (hknown : names ⊆ w.seen) (hnew : w.seen.contains name = false) :
    (names ++ [name]).Nodup := by
  rw [← List.concat_eq_append]
  refine List.Nodup.concat (fun hold => ?_) honce
  rw [List.contains_iff_mem.2 (hknown hold)] at hnew
  cases hnew

/-- A search among types accounts for its lookups, if descents do. The
induction is on the names that are left. -/
theorem searchNames_accounts (hnamed : lookup.Named)
    {descend : SourceFile → Walk →
      Action (ω × List String) (Option SourceFile × Walk)}
    (hdescend : ∀ f w s names, names.Nodup → names ⊆ f.typeName :: w.seen →
      Accounts (descend f w (s, names)).1 (descend f w (s, names)).2.2)
    (types : List String) :
    ∀ (w : Walk) (s : ω) (names : List String), names.Nodup →
      names ⊆ w.seen →
        Accounts (searchNames (noted lookup) descend types w (s, names)).1
          (searchNames (noted lookup) descend types w (s, names)).2.2 := by
  induction types with
  | nil => exact fun w s names honce hknown => accounts_ok honce hknown
  | cons name types ih =>
    intro w s names honce hknown
    rw [searchNames]
    split
    case isTrue => exact ih w s names honce hknown
    case isFalse hnew =>
    rw [Bool.not_eq_true] at hnew
    have honce' := nodup_noted honce hknown hnew
    have hsnoc : names ++ [name] ⊆ name :: w.seen := by
      intro name' hname
      rcases List.mem_append.1 hname with hold | hold
      · exact List.mem_cons_of_mem _ (hknown hold)
      · exact List.mem_singleton.1 hold ▸ List.mem_cons_self
    rcases hl : lookup name s with ⟨e | file, s₁⟩
    · have hrun : noted lookup name (s, names) =
          (.error e, s₁, names ++ [name]) := by simp [noted, hl]
      rw [Action.bind_error hrun]
      exact accounts_error honce'
    have hrun : noted lookup name (s, names) =
        (.ok file, s₁, names ++ [name]) := by simp [noted, hl]
    rw [Action.bind_ok hrun]
    cases file with
    | none => exact ih _ s₁ _ honce' hsnoc
    | some parent =>
      have hname : parent.typeName = name := hnamed name s parent (by rw [hl])
      dsimp only
      rw [hname, hnew, if_neg Bool.false_ne_true]
      have hparent := hdescend parent w s₁ _ honce' (hname ▸ hsnoc)
      rcases hd : descend parent w (s₁, names ++ [name]) with
        ⟨e | ⟨result, w₂⟩, s₂, names₂⟩
      · rw [hd] at hparent
        rw [Action.bind_error hd]
        exact accounts_error hparent.1
      · rw [hd] at hparent
        rw [Action.bind_ok hd]
        have hknown₂ := hparent.2 result w₂ rfl
        cases result with
        | some found => exact accounts_ok hparent.1 hknown₂
        | none => exact ih w₂ s₂ names₂ hparent.1 hknown₂

/-- From a type whose name was the last to be looked up, a search looks up
no name that was looked up before, and none twice. -/
theorem search_accounts (hnamed : lookup.Named) (depth : Nat) :
    ∀ (f : SourceFile) (w : Walk) (s : ω) (names : List String),
      names.Nodup → names ⊆ f.typeName :: w.seen →
        Accounts (search (noted lookup) method depth f w (s, names)).1
          (search (noted lookup) method depth f w (s, names)).2.2 := by
  induction depth with
  | zero =>
    intro f w s names honce hknown
    rw [search]
    split <;> exact accounts_ok honce hknown
  | succ depth ih =>
    intro f w s names honce hknown
    rw [search]
    split
    · exact accounts_ok honce hknown
    · exact searchNames_accounts hnamed ih _ _ s names honce hknown

end Walk

/-- No type is looked up twice while a method is resolved. -/
theorem nodup_lookups (hnamed : lookup.Named) (depth : Nat)
    (typeName : String) (s : ω) :
    (resolve (noted lookup) depth typeName method (s, [])).2.2.Nodup := by
  have honce : [typeName].Nodup := List.nodup_singleton _
  rcases hl : lookup typeName s with ⟨e | file, s'⟩
  · have hrun : noted lookup typeName (s, []) = (.error e, s', [typeName]) := by
      simp [noted, hl]
    rw [resolve, Action.bind_error hrun]
    exact honce
  have hrun : noted lookup typeName (s, []) = (.ok file, s', [typeName]) := by
    simp [noted, hl]
  rw [resolve, Action.bind_ok hrun]
  cases file with
  | none => exact honce
  | some root =>
    have hname : root.typeName = typeName := hnamed typeName s root (by rw [hl])
    have hsearch := @Walk.search_accounts ω lookup method hnamed depth root {}
      s' [typeName] honce (by simp [hname])
    dsimp only
    rcases hs : Walk.search (noted lookup) method depth root {}
        (s', [typeName]) with ⟨e | ⟨result, w⟩, s'', names⟩ <;>
      rw [hs] at hsearch
    · rw [Action.bind_error hs]
      exact hsearch.1
    · rw [Action.bind_ok hs]
      cases result <;> exact hsearch.1

-- =========================================================== soundness

/-- Where the source of the type is `root` and the types above it that were
searched are those of `more`, `r` says where the method is to be read. -/
structure Searched (method : String) (root : SourceFile)
    (more : List SourceFile) (r : Resolved) : Prop where
  requested : r.requested = root.typeName
  chain : r.chain = (root :: more).map (·.typeName)
  once : r.chain.Nodup
  /-- The method is found when one of the types declares it. -/
  declared : r.declared = true ↔
    ∃ f ∈ root :: more, declaresMethod f.content method = true
  /-- It is then found in the last type, which alone declares it. -/
  found : r.declared = true →
    (root :: more).getLast? = some r.source ∧
      r.chain.getLast? = some r.defining ∧
      declaresMethod r.source.content method = true ∧
      ∀ f ∈ root :: more, declaresMethod f.content method = true →
        f = r.source
  /-- Otherwise it is read in the source of the type itself. -/
  fallback : r.declared = false →
    r.source = root ∧ r.defining = r.requested

/-- What a search has gone through from the root is what the result says
was searched. -/
theorem searched_of_through {root : SourceFile} {more : List SourceFile}
    {result : Option SourceFile} {w : Walk}
    (h : Walk.Through method (root :: more) result {} w) :
    Searched method root more
      (match result with
      | some source => ⟨root.typeName, source, w.chain, true⟩
      | none => ⟨root.typeName, root, w.chain, false⟩) := by
  have hchain : w.chain = (root :: more).map (·.typeName) := by
    simpa using h.chain
  cases result with
  | some source =>
    obtain ⟨hlast, hdeclares⟩ := h.found source rfl
    have hmem : source ∈ root :: more := List.mem_of_getLast? hlast
    exact {
      requested := rfl
      chain := hchain
      once := hchain ▸ h.once
      declared := ⟨fun _ => ⟨source, hmem, hdeclares⟩, fun _ => rfl⟩
      found := fun _ => by
        refine ⟨hlast, ?_, hdeclares, fun f hf hf' => ?_⟩
        · show w.chain.getLast? = some source.typeName
          rw [hchain, List.getLast?_map, hlast]
          rfl
        · exact (Option.some.inj (h.declares f hf hf')).symm
      fallback := nofun }
  | none =>
    exact {
      requested := rfl
      chain := hchain
      once := hchain ▸ h.once
      declared := ⟨nofun, fun ⟨f, hf, hdeclares⟩ => by
        cases h.declares f hf hdeclares⟩
      found := nofun
      fallback := fun _ => ⟨rfl, rfl⟩ }

/-- Where every name stands for one source, which bears it, what was looked
up under a name is the source of the type. -/
theorem Walk.LookedUp.sourced {sources : String → Option SourceFile}
    {files : List SourceFile} (hup : Walk.LookedUp lookup files)
    (hfixed : ∀ name s, (lookup name s).1 = .ok (sources name))
    (hnamed : lookup.Named) :
    ∀ f ∈ files, sources f.typeName = some f := by
  intro f hf
  obtain ⟨name, s, hl⟩ := hup f hf
  rw [hnamed name s f hl]
  exact Except.ok.inj ((hfixed name s).symm.trans hl)

/-- Then the method is found when a type of the chain has a source that
declares it. -/
theorem Searched.declared_iff {sources : String → Option SourceFile}
    {typeName : String} {root : SourceFile} {more : List SourceFile}
    {r : Resolved} {s : ω} (h : Searched method root more r)
    (hroot : (lookup typeName s).1 = .ok (some root))
    (hmore : Walk.LookedUp lookup more)
    (hfixed : ∀ name s, (lookup name s).1 = .ok (sources name))
    (hnamed : lookup.Named) :
    r.declared = true ↔ ∃ name ∈ r.chain, ∃ f, sources name = some f ∧
      declaresMethod f.content method = true := by
  have hall : Walk.LookedUp lookup (root :: more) :=
    List.forall_mem_cons.2 ⟨⟨typeName, s, hroot⟩, hmore⟩
  have hown := hall.sourced hfixed hnamed
  rw [h.declared, h.chain]
  constructor
  · rintro ⟨f, hf, hdeclares⟩
    exact ⟨_, List.mem_map_of_mem hf, f, hown f hf, hdeclares⟩
  · rintro ⟨name, hname, f, hf, hdeclares⟩
    obtain ⟨g, hg, rfl⟩ := List.mem_map.1 hname
    obtain rfl := Option.some.inj ((hown g hg).symm.trans hf)
    exact ⟨g, hg, hdeclares⟩

/-- A failure that is none of a lookup says that the type has no source. -/
theorem resolve_error_iff (depth : Nat) (typeName : String) (s : ω)
    {e : Failure} (hnone : ∀ name s, (lookup name s).1 ≠ .error e) :
    (resolve lookup depth typeName method s).1 = .error e ↔
      e = .unresolved ⟨typeName, method, [typeName], .type⟩ ∧
        (lookup typeName s).1 = .ok none := by
  rcases hl : lookup typeName s with ⟨e' | file, s'⟩
  · rw [resolve, Action.bind_error hl]
    refine ⟨fun he => ?_, fun h => by cases h.2⟩
    obtain rfl := Except.error.inj he
    exact absurd (by rw [hl]) (hnone typeName s)
  rw [resolve, Action.bind_ok hl]
  cases file with
  | none =>
    refine ⟨fun he => ⟨(Except.error.inj he).symm, rfl⟩, ?_⟩
    rintro ⟨rfl, -⟩
    rfl
  | some root =>
    refine ⟨fun he => ?_, fun h => by cases h.2⟩
    dsimp only at he
    rcases hs : Walk.search lookup method depth root {} s' with
      ⟨e' | ⟨result, w⟩, s''⟩
    · rw [Action.bind_error hs] at he
      obtain rfl := Except.error.inj he
      obtain ⟨name, s, hl⟩ :=
        Walk.search_error depth root {} s' e' (by rw [hs])
      exact absurd hl (hnone name s)
    · rw [Action.bind_ok hs] at he
      cases result <;> cases he

/-- What is resolved was searched, from the type that was asked for. -/
theorem resolve_searched {depth : Nat} {typeName : String} {s : ω}
    {r : Resolved}
    (hr : (resolve lookup depth typeName method s).1 = .ok r) :
    ∃ root more, (lookup typeName s).1 = .ok (some root) ∧
      Walk.LookedUp lookup more ∧ Searched method root more r := by
  rcases hl : lookup typeName s with ⟨e | file, s'⟩
  · rw [resolve, Action.bind_error hl] at hr
    cases hr
  rw [resolve, Action.bind_ok hl] at hr
  cases file with
  | none => cases hr
  | some root =>
    dsimp only at hr
    rcases hs : Walk.search lookup method depth root {} s' with
      ⟨e | ⟨result, w⟩, s''⟩
    · rw [Action.bind_error hs] at hr
      cases hr
    rw [Action.bind_ok hs] at hr
    obtain ⟨more, hmore, hthrough⟩ :=
      Walk.search_through depth root {} s' result w (by simp) (by rw [hs])
    refine ⟨root, more, rfl, hmore, ?_⟩
    have hsearched := searched_of_through hthrough
    cases result <;> obtain rfl := Except.ok.inj hr <;> exact hsearched

/-- A method is resolved for every type that has a source, unless a lookup
fails, and what it is resolved to says nothing but what was found. Where
sources bear the names they are looked up under, no name is looked up
twice. -/
theorem resolve_sound (lookup : Lookup ω) (depth : Nat)
    (typeName method : String) (s : ω) :
    (∀ e, (∀ name s, (lookup name s).1 ≠ .error e) →
      ((resolve lookup depth typeName method s).1 = .error e ↔
        e = .unresolved ⟨typeName, method, [typeName], .type⟩ ∧
          (lookup typeName s).1 = .ok none)) ∧
    (∀ r, (resolve lookup depth typeName method s).1 = .ok r →
      ∃ root more, (lookup typeName s).1 = .ok (some root) ∧
        Walk.LookedUp lookup more ∧ Searched method root more r ∧
        ∀ sources : String → Option SourceFile,
          (∀ name s, (lookup name s).1 = .ok (sources name)) →
          lookup.Named →
            (r.declared = true ↔ ∃ name ∈ r.chain, ∃ f,
              sources name = some f ∧
                declaresMethod f.content method = true)) ∧
    ∃ names, resolve (noted lookup) depth typeName method (s, []) =
        ((resolve lookup depth typeName method s).1,
          (resolve lookup depth typeName method s).2, names) ∧
      (lookup.Named → names.Nodup) := by
  refine ⟨fun e hnone => resolve_error_iff depth typeName s hnone,
    fun r hr => ?_, ?_⟩
  · obtain ⟨root, more, hroot, hmore, hsearched⟩ := resolve_searched hr
    exact ⟨root, more, hroot, hmore, hsearched,
      fun sources hfixed hnamed =>
        hsearched.declared_iff hroot hmore hfixed hnamed⟩
  · obtain ⟨names, hrun⟩ :=
      @resolve_noted ω lookup method depth typeName s []
    refine ⟨names, hrun, fun hnamed => ?_⟩
    have honce := @nodup_lookups ω lookup method hnamed depth typeName s
    rwa [hrun] at honce

theorem among_named (files : List SourceFile) : (among files).Named := by
  intro name u f hf
  have hf : files.find? (·.typeName == name) = some f := Except.ok.inj hf
  simpa using List.find?_some hf

/-- A type that declares nothing, below one that declares nothing either,
below one that declares the method. -/
def family : Lookup Unit := among [child, middle, base]

/-- The method is found two types up, and the chain tells the types
between. -/
theorem resolve_sound_child :
    (∀ e, (resolve family 10 "Child" "run" ()).1 = .error e ↔
      e = .unresolved ⟨"Child", "run", ["Child"], .type⟩ ∧
        (family "Child" ()).1 = .ok none) ∧
    (∃ r root more, (resolve family 10 "Child" "run" ()).1 = .ok r ∧
      (family "Child" ()).1 = .ok (some root) ∧
      Walk.LookedUp family more ∧ Searched "run" root more r ∧
      (r.declared = true ↔ ∃ name ∈ r.chain, ∃ f,
        [child, middle, base].find? (·.typeName == name) = some f ∧
          declaresMethod f.content "run" = true)) ∧
    ∃ names, resolve (noted family) 10 "Child" "run" ((), []) =
        ((resolve family 10 "Child" "run" ()).1,
          (resolve family 10 "Child" "run" ()).2, names) ∧
      names.Nodup := by
  have hnamed : family.Named := among_named [child, middle, base]
  obtain ⟨herror, hfound, names, hrun, honce⟩ :=
    resolve_sound family 10 "Child" "run" ()
  have hok : (resolve family 10 "Child" "run" ()).1.toOption.map
      Resolved.declared = some true := by decide +kernel
  obtain ⟨r, hr⟩ :
      ∃ r, (resolve family 10 "Child" "run" ()).1 = .ok r := by
    cases hr : (resolve family 10 "Child" "run" ()).1 with
    | error e =>
      rw [hr] at hok
      cases hok
    | ok r => exact ⟨r, rfl⟩
  obtain ⟨root, more, hroot, hmore, hsearched, hdeclared⟩ := hfound r hr
  exact ⟨fun e => herror e nofun,
    ⟨r, root, more, hr, hroot, hmore, hsearched,
      hdeclared _ (fun _ _ => rfl) hnamed⟩,
    names, hrun, honce hnamed⟩

end CallTrace.Source
