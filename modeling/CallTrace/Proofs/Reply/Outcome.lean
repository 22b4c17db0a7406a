/-
What a reply can turn out to be, whatever its text is.

There are three ways to read a text, and which one it is depends on two
things: whether the preamble tells an absence, and whether some line opens a
block. A described reply has one block for each such line.

The blocks are numbered in one walk over the drafts. What that walk has left
to do is again a numbering, from a later name and a later call on, so the
statements about it are about any start; the links are made afterwards and
change nothing else.
-/
import CallTrace.Proofs.Cache.Document
import CallTrace.Reply.Parse

namespace CallTrace.Reply

open Text

/-- The lines of a text. -/
def linesOf (text : String) : List (List Char) :=
  splitOn '\n' (unifyPairs text.toList)

/-- The titles of the blocks that some lines open. -/
def titles (ls : List (List Char)) : List (List Char) :=
  ls.filterMap opensBlock?

/-- The name of the block at a place. -/
def blockName (i : Nat) : String := "block-" ++ toString i

/-- Nothing can be used of the reply. -/
structure Void (r : Reply) : Prop where
  status : r.status = .failed
  blocks : r.blocks = []
  calls : r.calls = []

/-- The reply describes `n` blocks that are numbered through, as their
calls are. -/
structure Numbered (n : Nat) (r : Reply) : Prop where
  status : r.status = .complete
  names : r.blocks.map (·.id) = (List.range n).map blockName
  /-- Each block leads to the next one, and the last one nowhere. -/
  links : r.blocks.map (·.next) =
    (List.range n).map fun i => if i + 1 < n then [blockName (i + 1)] else []
  calls : r.calls = r.blocks.flatMap (·.calls)
  /-- The calls are counted through the whole reply. -/
  orders : r.calls.map (·.order) =
    (List.range r.calls.length).map fun (i : Nat) => (i : Int)
  /-- Each bucket has its calls in the order of the reply. -/
  buckets : ∀ d, r.summary.bucket d = r.calls.filter (·.decision = d)
  /-- Each call is in one bucket. -/
  parts : (Decision.all.flatMap r.summary.bucket).Perm r.calls
  /-- The records are valid: written out, they are accepted again. -/
  valid : (∀ b ∈ r.blocks, Block.read b.toJson = .good b) ∧
    CallSummary.read r.summary.toJson = .good r.summary

-- =========================================================== sections

/-- Each line that opens a block starts a section. -/
theorem map_fst_sections (ls : List (List Char)) :
    (sections ls).map (·.1) = titles ls := by
  induction ls with
  | nil => rfl
  | cons line rest ih =>
    rw [sections, titles, List.filterMap_cons]
    cases opensBlock? line with
    | none => exact ih
    | some title => exact congrArg (title :: ·) ih

theorem sections_append {ls : List (List Char)}
    (h : ∀ l ∈ ls, opensBlock? l = none) (rest : List (List Char)) :
    sections (ls ++ rest) = sections rest := by
  induction ls with
  | nil => rfl
  | cons l ls ih =>
    rw [List.cons_append, sections, h l (.head _)]
    exact ih fun l hl => h l (.tail _ hl)

/-- A heading ends the section that is under way before it. -/
theorem sections_append_heading {line : List Char}
    (h : isHeading line = true) (front back : List (List Char)) :
    sections (front ++ line :: back) =
      sections front ++ sections (line :: back) := by
  have hbody : ∀ rest : List (List Char),
      (rest ++ line :: back).takeWhile (!isHeading ·) =
        rest.takeWhile (!isHeading ·) := by
    intro rest
    induction rest with
    | nil => simp [h]
    | cons l rest ih =>
      rw [List.cons_append, List.takeWhile_cons, List.takeWhile_cons, ih]
  induction front with
  | nil => rfl
  | cons l front ih =>
    rw [List.cons_append, sections, sections, ih]
    cases opensBlock? l with
    | none => rfl
    | some title => rw [hbody]; rfl

/-- A section has nothing but lines of the reply. -/
theorem mem_of_mem_sections {ls body : List (List Char)}
    {title line : List Char} (h : (title, body) ∈ sections ls)
    (hline : line ∈ body) : line ∈ ls := by
  induction ls with
  | nil => cases h
  | cons first rest ih =>
    rw [sections] at h
    apply List.mem_cons_of_mem
    split at h
    · rcases List.mem_cons.1 h with hfirst | h
      · cases hfirst
        exact (List.takeWhile_prefix _).subset hline
      · exact ih h
    · exact ih h

-- ========================================================== numbering

/-- Blocks are numbered in their order. -/
theorem names_numberBlocks (drafts : List Draft) :
    ∀ index order, (numberBlocks index order drafts).map (·.id) =
      (List.range' index drafts.length).map blockName := by
  induction drafts with
  | nil => exact fun _ _ => rfl
  | cons d rest ih =>
    intro index order
    rw [numberBlocks, List.map_cons, ih, List.length_cons, List.range'_succ,
      List.map_cons]
    rfl

/-- The calls of the blocks are those that were kept in the drafts, counted
through. -/
theorem calls_numberBlocks (drafts : List Draft) :
    ∀ index order, (numberBlocks index order drafts).flatMap (·.calls) =
      ((drafts.flatMap Draft.keptCalls).zipIdx order).map
        fun (c, n) => c.toCall n := by
  have hblock : ∀ (d : Draft) (index order : Nat),
      (d.toBlock index order).calls =
        (d.keptCalls.zipIdx order).map fun (c, n) => c.toCall n := by
    intro d index order
    have hshift : d.keptCalls.zipIdx order =
        d.keptCalls.zipIdx.map fun (c, i) => (c, order + i) :=
      List.zipIdx_eq_map_add
    rw [hshift, List.map_map]
    rfl
  induction drafts with
  | nil => exact fun _ _ => rfl
  | cons d rest ih =>
    intro index order
    rw [numberBlocks, List.flatMap_cons, ih, hblock, List.length_map,
      List.length_zipIdx, List.flatMap_cons, List.zipIdx_append,
      List.map_append]

-- ============================================================== links

/-- Linking changes nothing but where a block leads. -/
theorem map_linkBlocks {α : Type} {f : Block → α}
    (hf : ∀ b next, f { b with next := next } = f b) (bs : List Block) :
    (linkBlocks bs).map f = bs.map f := by
  fun_induction linkBlocks bs with
  | case1 b c rest ih => rw [List.map_cons, ih, hf]; rfl
  | case2 => rfl

/-- So the calls are those of the blocks before they are linked. -/
theorem calls_described (bs : List Block) :
    calls (.described (linkBlocks bs)) = bs.flatMap (·.calls) := by
  rw [calls, blocks, List.flatMap_def, map_linkBlocks (fun _ _ => rfl),
    ← List.flatMap_def]

/-- Each block leads to the one after it, and the last one to none. -/
theorem links_numberBlocks (drafts : List Draft) :
    ∀ index order,
      (linkBlocks (numberBlocks index order drafts)).map (·.next) =
        (List.range drafts.length).map fun i =>
          if i + 1 < drafts.length then [blockName (index + i + 1)]
          else [] := by
  induction drafts with
  | nil => exact fun _ _ => rfl
  | cons d rest ih =>
    intro index order
    rw [numberBlocks, List.length_cons, List.range_succ_eq_map, List.map_cons,
      List.map_map]
    cases rest with
    | nil => rfl
    | cons e rest =>
      have hrest := ih (index + 1)
        (order + (d.toBlock index order).calls.length)
      rw [numberBlocks] at hrest ⊢
      rw [linkBlocks, List.map_cons, hrest]
      refine congrArg₂ List.cons ?_ (List.map_congr_left fun i _ => ?_)
      · simp [blockName, Draft.toBlock]
      · simp only [Function.comp_apply, Nat.succ_eq_add_one, List.length_cons,
          Nat.add_lt_add_iff_right]
        rw [Nat.add_right_comm index 1 i, Nat.add_assoc index i 1]

-- ============================================================ buckets

/-- The buckets share the calls out: one more call goes into one of them. -/
theorem parts_ofCalls (calls : List CallSite) :
    (Decision.all.flatMap (CallSummary.ofCalls calls).bucket).Perm calls := by
  induction calls with
  | nil => exact .refl _
  | cons c rest ih =>
    have hbucket : ∀ d, (CallSummary.ofCalls (c :: rest)).bucket d =
        (if c.decision = d then [c] else []) ++
          (CallSummary.ofCalls rest).bucket d := by
      intro d
      rw [CallSummary.bucket_ofCalls, CallSummary.bucket_ofCalls,
        List.filter_cons]
      split <;> simp_all
    simp only [Decision.all, List.flatMap_cons, List.flatMap_nil,
      List.append_nil, hbucket] at ih ⊢
    refine .trans ?_ (ih.cons c)
    generalize (CallSummary.ofCalls rest).bucket = pick
    cases hc : c.decision with
    | stepInto => simp
    | objectLookup => simp [List.perm_middle]
    | external =>
      simpa using @List.perm_middle _ c (pick .stepInto ++ pick .objectLookup)
        (pick .external ++ pick .notFound)
    | notFound =>
      simpa using @List.perm_middle _ c
        (pick .stepInto ++ pick .objectLookup ++ pick .external)
        (pick .notFound)

-- =========================================================== outcomes

/-- The preamble alone says whether the method is absent. -/
theorem absent_iff (owner text : String) :
    (∃ names, parse owner text = .absent names) ↔
      tellsAbsence (joinWith ['\n'] (preamble (linesOf text))) = true := by
  rw [parse, linesOf]
  dsimp only
  split
  · exact ⟨fun _ => ‹_›, fun _ => ⟨_, rfl⟩⟩
  · refine ⟨?_, fun h => absurd h ‹_›⟩
    rintro ⟨names, h⟩
    split at h <;> cases h

/-- A reply that tells of no absence is what its sections say. -/
theorem parse_of_present {owner text : String}
    (h : ¬∃ names, parse owner text = .absent names) :
    parse owner text =
      if sections (linesOf text) = [] then .unreadable
      else
        .described (linkBlocks (numberBlocks 0 0
          ((sections (linesOf text)).map fun s =>
            Draft.ofLines owner s.1 s.2))) := by
  rw [absent_iff] at h
  rw [parse, ← linesOf]
  dsimp only
  rw [if_neg h]
  cases sections (linesOf text) with
  | nil => rfl
  | cons first rest => rfl

/-- There is a draft for each opened block. -/
theorem parse_present {owner text : String}
    (h : ¬∃ names, parse owner text = .absent names) :
    ∃ drafts : List Draft,
      drafts.length = (titles (linesOf text)).length ∧
      parse owner text =
        if drafts = [] then .unreadable
        else .described (linkBlocks (numberBlocks 0 0 drafts)) := by
  refine ⟨(sections (linesOf text)).map fun s => Draft.ofLines owner s.1 s.2,
    ?_, ?_⟩
  · rw [← map_fst_sections, List.length_map, List.length_map]
  · rw [parse_of_present h]
    simp only [List.map_eq_nil_iff]

/-- The calls of a reply are those that were kept in its sections. -/
theorem calls_of_present {owner text : String}
    (h : ¬∃ names, parse owner text = .absent names) :
    (parse owner text).calls =
      ((sections (linesOf text)).flatMap fun s =>
        (Draft.ofLines owner s.1 s.2).keptCalls).zipIdx.map
          fun (c, n) => c.toCall n := by
  rw [parse_of_present h]
  split
  · rename_i hnone
    rw [hnone]
    rfl
  · rw [calls_described, calls_numberBlocks, List.flatMap_map]

/-- Each call of a reply was kept in one of its sections. -/
theorem exists_kept_of_mem_calls {owner text : String} {c : CallSite}
    (h : c ∈ (parse owner text).calls) :
    ∃ s ∈ sections (linesOf text), ∃ x n,
      .kept x ∈ (Draft.ofLines owner s.1 s.2).entries ∧ c = x.toCall n := by
  by_cases habsent : ∃ names, parse owner text = .absent names
  · obtain ⟨names, hnames⟩ := habsent
    rw [hnames] at h
    cases h
  rw [calls_of_present habsent] at h
  obtain ⟨⟨x, n⟩, hmem, rfl⟩ := List.mem_map.1 h
  obtain ⟨-, hget⟩ := List.mem_zipIdx' hmem
  obtain ⟨s, hs, hkept⟩ := List.mem_flatMap.1 (hget ▸ List.getElem_mem _)
  obtain ⟨entry, hentry, hcall⟩ := List.mem_filterMap.1 hkept
  refine ⟨s, hs, x, n, ?_, rfl⟩
  cases entry with
  | dropped => cases hcall
  | kept y =>
    cases hcall
    exact List.mem_reverse.1 hentry

/-- What a reply describes is numbered from its sections. -/
theorem numbered (drafts : List Draft) :
    Numbered drafts.length
      (.described (linkBlocks (numberBlocks 0 0 drafts))) where
  status := rfl
  names := by
    rw [blocks, map_linkBlocks (fun _ _ => rfl), names_numberBlocks,
      List.range_eq_range']
  links := by
    rw [blocks, links_numberBlocks]
    simp only [Nat.zero_add]
  calls := rfl
  orders := by
    rw [calls_described, calls_numberBlocks]
    refine List.ext_getElem (by simp) fun i hi _ => ?_
    simp [CallDraft.toCall]
  buckets := CallSummary.bucket_ofCalls _
  parts := parts_ofCalls _
  valid := ⟨fun b _ => b.read_toJson, CallSummary.read_toJson _⟩

/-- Whatever a text is, the reply tells that the method is absent, or nothing
can be made of it because no line opens a block, or it has a block for each
line that opens one. Texts that are alike up to the first block tell of an
absence alike, whatever comes from there on. -/
theorem parse_outcome (owner text : String) :
    ((∃ names, parse owner text = .absent names) ∧ Void (parse owner text) ∨
      parse owner text = .unreadable ∧ Void (parse owner text) ∧
        titles (linesOf text) = [] ∨
      (∃ bs, parse owner text = .described bs) ∧
        titles (linesOf text) ≠ [] ∧
        Numbered (titles (linesOf text)).length (parse owner text)) ∧
    ∀ owner' text', preamble (linesOf text') = preamble (linesOf text) →
      ((∃ names, parse owner' text' = .absent names) ↔
        ∃ names, parse owner text = .absent names) := by
  refine ⟨?_, fun owner' text' hfront => ?_⟩
  · by_cases hthere : ∃ names, parse owner text = .absent names
    · obtain ⟨names, h⟩ := hthere
      exact .inl ⟨⟨names, h⟩, by rw [h]; exact ⟨rfl, rfl, rfl⟩⟩
    obtain ⟨drafts, hlength, h⟩ := parse_present hthere
    have hnone : titles (linesOf text) = [] ↔ drafts = [] := by
      rw [← List.length_eq_zero_iff, ← hlength, List.length_eq_zero_iff]
    rw [h, ← hlength, Ne, hnone]
    right
    split
    · exact .inl ⟨rfl, ⟨rfl, rfl, rfl⟩, ‹_›⟩
    · exact .inr ⟨⟨_, rfl⟩, ‹_›, numbered drafts⟩
  · rw [absent_iff, absent_iff, hfront]

/-- A denial that comes after a block's title does not count. -/
theorem parse_outcome_late :
    preamble (linesOf "#### Block 1: go\n### Method Not Found") =
      preamble (linesOf "#### Block 1: go") ∧
    ¬∃ names, parse "A" "#### Block 1: go\n### Method Not Found" =
      .absent names := by
  have hfront : preamble (linesOf "#### Block 1: go\n### Method Not Found") =
      preamble (linesOf "#### Block 1: go") := by
    decide
  refine ⟨hfront, fun h => ?_⟩
  have hfirst := ((parse_outcome "A" "#### Block 1: go").2 "A" _ hfront).1 h
  revert hfirst
  rw [absent_iff]
  decide

end CallTrace.Reply
