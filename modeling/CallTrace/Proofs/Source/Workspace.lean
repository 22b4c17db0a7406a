/-
Which file a type is found in.

A pass takes the names one after the other and for each of them the files
in their order, so what it finds is the foremost match: of the first name
that has one, in the first file. Files that cannot be read or are too large
match nothing. The first pass is by the names of the files, and only if it
finds nothing the second one is by the declarations in them.

What is found bears the name under which it was found, and that name leads
to it again. It is a piece of a name, so it is looked for as it stands
before anything else; and capitals are not raised again, so nothing else is
looked for that was not looked for before.
-/
import CallTrace.Proofs.Text.Case
import CallTrace.Source.Workspace

namespace CallTrace.Source

open Files Text

-- ============================================================== names

/-- Characters that are no marks, in front of a piece, give a piece. -/
theorem isPiece_append {xs cs : List Char} (hxs : ∀ c ∈ xs, c ∉ joints false)
    (h : IsPiece cs) : IsPiece (xs ++ cs) := by
  induction xs with
  | nil => exact h
  | cons c xs ih =>
    obtain ⟨hc, hxs⟩ := List.forall_mem_cons.1 hxs
    have hmark : ∀ d ∈ joints false, c ≠ d := by
      rintro d hd rfl
      exact hc hd
    exact isPiece_cons.2 ⟨hmark '.' (by decide),
      fun d _ hcolon => absurd hcolon (hmark ':' (by decide)), ih hxs⟩

/-- A letter raised in front of a piece gives a piece. -/
theorem isPiece_raised {c : Char} {cs : List Char} (hc : isSmall c = true)
    (h : IsPiece cs) : IsPiece (upperChar c ++ cs) := by
  obtain ⟨d, rest, hupper, -, hmarks⟩ := exists_upperChar c
  refine isPiece_append (fun e he hmark => ?_) h
  rw [hupper] at he
  rw [hmarks e he hmark] at hmark
  exact absurd hc (by simp [isSmall_of_mem_joints hmark])

/-- What is looked for depends on the last piece of the name alone. -/
theorem candidateNames_congr {t t' : String}
    (h : lastOf (segments t.toList) = lastOf (segments t'.toList)) :
    candidateNames t = candidateNames t' := by
  rw [candidateNames, candidateNames, h]

theorem candidateNames_of_isPiece {c : Char} {cs : List Char}
    (h : IsPiece (c :: cs)) :
    candidateNames (String.ofList (c :: cs)) =
      if isSmall c then
        [String.ofList (c :: cs), String.ofList (upperChar c ++ cs)]
      else [String.ofList (c :: cs)] := by
  rw [candidateNames, String.toList_ofList, lastOf_segments_of_isPiece h]

/-- A name that is looked for is itself looked for in this way: first as it
stands, and then under no other name. -/
theorem candidateNames_of_mem {typeName name : String}
    (h : name ∈ candidateNames typeName) :
    ∃ rest, candidateNames name = name :: rest ∧
      ∀ n ∈ rest, n ∈ candidateNames typeName := by
  have hpiece := isPiece_lastOf_segments typeName.toList
  -- The last piece is looked for as the whole name is.
  have hsame : candidateNames typeName =
      candidateNames (String.ofList (lastOf (segments typeName.toList))) :=
    candidateNames_congr (by
      rw [String.toList_ofList, lastOf_segments_of_isPiece hpiece])
  rw [hsame] at h ⊢
  generalize lastOf (segments typeName.toList) = cs at hpiece h
  cases cs with
  | nil =>
    obtain rfl := List.mem_singleton.1 h
    exact ⟨[], rfl, fun _ hn => absurd hn List.not_mem_nil⟩
  | cons c rest =>
    have hnames := candidateNames_of_isPiece hpiece
    rcases hc : isSmall c with _ | _ <;> simp only [hc, if_true, if_false,
      Bool.false_eq_true] at hnames <;> rw [hnames] at h ⊢
    · obtain rfl := List.mem_singleton.1 h
      exact ⟨[], hnames, fun _ hn => absurd hn List.not_mem_nil⟩
    rcases List.mem_cons.1 h with rfl | h
    · exact ⟨_, hnames, fun n hn => .tail _ hn⟩
    obtain rfl := List.mem_singleton.1 h
    obtain ⟨d, more, hupper, hsettled, -⟩ := exists_upperChar c
    have hraised := isPiece_raised hc (isPiece_cons.1 hpiece).2.2
    rw [hupper, List.cons_append] at hraised ⊢
    have hagain := candidateNames_of_isPiece hraised
    rw [hsettled] at hagain
    split at hagain
    · exact ⟨_, hagain, fun n hn => .tail _ hn⟩
    · exact ⟨[], hagain, fun _ hn => absurd hn List.not_mem_nil⟩

example : candidateNames "acme::store.userMap" = ["userMap", "UserMap"] := by
  decide

-- ============================================================== order

/-- The foremost match of names in files: of the first name that has a
match, in the first file. -/
def Foremost (names files : List String) (Matches : String → String → Prop)
    (name file : String) : Prop :=
  ∃ ns ns' fs fs', names = ns ++ name :: ns' ∧ files = fs ++ file :: fs' ∧
    Matches name file ∧ (∀ n ∈ ns, ∀ f ∈ files, ¬Matches n f) ∧
    ∀ f ∈ fs, ¬Matches name f

namespace Foremost

variable {names files : List String} {Matches : String → String → Prop}
  {name file : String}

theorem mem (h : Foremost names files Matches name file) : name ∈ names := by
  obtain ⟨ns, ns', -, -, rfl, -⟩ := h
  exact List.mem_append_right _ (.head _)

/-- The foremost match stays so if its name is looked for first. -/
theorem again (h : Foremost names files Matches name file)
    (rest : List String) :
    Foremost (name :: rest) files Matches name file := by
  obtain ⟨-, -, fs, fs', -, hfiles, hmatch, -, hbefore⟩ := h
  exact ⟨[], rest, fs, fs', rfl, hfiles, hmatch,
    fun _ hn => absurd hn List.not_mem_nil, hbefore⟩

end Foremost

namespace Workspace

-- ============================================================= matches

section

variable (t : Tree)

/-- The file can be read and is not too large, and this is its text. -/
def Legible (file content : String) : Prop :=
  ∃ bytes, t.read file = .ok bytes ∧ bytes.length ≤ maxSourceBytes ∧
    content = String.ofList (unifyBreaks (Utf8.decodeLenient bytes))

/-- The file is named after the type. -/
def Named (name file : String) : Prop :=
  stem (nameOf file) = name ∧ ∃ content, Legible t file content

/-- The file declares the type. -/
def Declaring (name file : String) : Prop :=
  ∃ content, Legible t file content ∧ declaresType content name = true

/-- The source is a file with its text and its language. -/
def IsSource (s : SourceFile) : Prop :=
  Legible t s.path s.content ∧ s.language = languageOfPath s.path

end

variable {t : Tree} {names files : List String}

theorem textOf?_eq_some_iff {file content : String} :
    textOf? t file = some content ↔ Legible t file content := by
  rw [textOf?, Legible]
  rcases t.read file with fault | bytes
  · simp
  · by_cases h : bytes.length > maxSourceBytes
    · simp [h, Nat.not_le.2 h]
    · simp [h, Nat.not_lt.1 h, eq_comm]

theorem isSource_of_legible {file content : String}
    (h : Legible t file content) (name : String) :
    IsSource t ⟨name, file, content, languageOfPath file⟩ := by
  refine ⟨h, ?_⟩
  -- The field is looked up; the language of the path is not worked out.
  dsimp only

section

variable {Matches : String → String → Prop}
  {found? : String → String → Option SourceFile}
  (hlegible : ∀ n f, Matches n f → ∃ content, Legible t f content)
  (hfound : ∀ n f s, found? n f = some s ↔
    Matches n f ∧ n = s.typeName ∧ f = s.path ∧ IsSource t s)

include hlegible hfound

/-- What can be read and matches is found. -/
theorem found_none_iff (n f : String) :
    found? n f = none ↔ ¬Matches n f := by
  rw [Option.eq_none_iff_forall_ne_some]
  constructor
  · intro h hmatch
    obtain ⟨content, hcontent⟩ := hlegible n f hmatch
    exact h ⟨n, f, content, languageOfPath f⟩
      ((hfound ..).2 ⟨hmatch, rfl, rfl, isSource_of_legible hcontent n⟩)
  · exact fun h s hs => h ((hfound n f s).1 hs).1

/-- A pass finds the foremost match. -/
theorem pass_eq_some_iff {s : SourceFile} :
    names.findSome? (fun n => files.findSome? (found? n)) = some s ↔
      Foremost names files Matches s.typeName s.path ∧ IsSource t s := by
  simp only [List.findSome?_eq_some_iff, List.findSome?_eq_none_iff,
    found_none_iff hlegible hfound, hfound, Foremost]
  constructor
  · rintro ⟨ns, n, ns', rfl, ⟨fs, f, fs', rfl, ⟨hmatch, rfl, rfl, hs⟩,
      hfiles⟩, hnames⟩
    exact ⟨⟨ns, ns', fs, fs', rfl, rfl, hmatch, hnames, hfiles⟩, hs⟩
  · rintro ⟨⟨ns, ns', fs, fs', rfl, rfl, hmatch, hnames, hfiles⟩, hs⟩
    exact ⟨ns, _, ns', rfl, ⟨fs, _, fs', rfl, ⟨hmatch, rfl, rfl, hs⟩,
      hfiles⟩, hnames⟩

/-- It finds nothing exactly if there is no match. -/
theorem pass_eq_none_iff :
    names.findSome? (fun n => files.findSome? (found? n)) = none ↔
      ∀ n ∈ names, ∀ f ∈ files, ¬Matches n f := by
  simp only [List.findSome?_eq_none_iff, found_none_iff hlegible hfound]

end

-- ============================================================= passes

/-- The pass by the names of the files. -/
theorem named_pass :
    (∀ s, names.findSome? (named? t files) = some s ↔
      Foremost names files (Named t) s.typeName s.path ∧ IsSource t s) ∧
    (names.findSome? (named? t files) = none ↔
      ∀ n ∈ names, ∀ f ∈ files, ¬Named t n f) := by
  have hlegible : ∀ n f, Named t n f → ∃ content, Legible t f content :=
    fun _ _ h => h.2
  have hfound : ∀ n f (s : SourceFile),
      (if stem (nameOf f) = n then
        (textOf? t f).map fun content => ⟨n, f, content, languageOfPath f⟩
      else none) = some s ↔
        Named t n f ∧ n = s.typeName ∧ f = s.path ∧ IsSource t s := by
    intro n f s
    rw [Option.ite_none_right_eq_some, Option.map_eq_some_iff]
    constructor
    · rintro ⟨hstem, content, htext, rfl⟩
      have hcontent := textOf?_eq_some_iff.1 htext
      exact ⟨⟨hstem, content, hcontent⟩, rfl, rfl,
        isSource_of_legible hcontent n⟩
    · rintro ⟨hnamed, rfl, rfl, hcontent, hlanguage⟩
      refine ⟨hnamed.1, s.content, textOf?_eq_some_iff.2 hcontent, ?_⟩
      rw [← hlanguage]
  rw [funext (named?_eq t files)]
  exact ⟨fun s => pass_eq_some_iff hlegible hfound,
    pass_eq_none_iff hlegible hfound⟩

/-- The pass by declarations. -/
theorem declaring_pass :
    (∀ s, names.findSome? (declaring? t files) = some s ↔
      Foremost names files (Declaring t) s.typeName s.path ∧
        IsSource t s) ∧
    (names.findSome? (declaring? t files) = none ↔
      ∀ n ∈ names, ∀ f ∈ files, ¬Declaring t n f) := by
  have hlegible : ∀ n f, Declaring t n f → ∃ content, Legible t f content :=
    fun _ _ ⟨content, hcontent, _⟩ => ⟨content, hcontent⟩
  have hfound : ∀ n f (s : SourceFile),
      (((textOf? t f).filter (declaresType · n)).map
        fun content => ⟨n, f, content, languageOfPath f⟩) = some s ↔
        Declaring t n f ∧ n = s.typeName ∧ f = s.path ∧ IsSource t s := by
    intro n f s
    rw [Option.map_eq_some_iff]
    constructor
    · rintro ⟨content, htext, rfl⟩
      obtain ⟨htext, hdeclares⟩ := Option.filter_eq_some_iff.1 htext
      have hcontent := textOf?_eq_some_iff.1 htext
      exact ⟨⟨content, hcontent, hdeclares⟩, rfl, rfl,
        isSource_of_legible hcontent n⟩
    · rintro ⟨⟨content, htext, hdeclares⟩, rfl, rfl, hcontent, hlanguage⟩
      -- A file has one text.
      obtain rfl := Option.some.inj
        ((textOf?_eq_some_iff.2 htext).symm.trans
          (textOf?_eq_some_iff.2 hcontent))
      refine ⟨s.content, Option.filter_eq_some_iff.2
        ⟨textOf?_eq_some_iff.2 hcontent, hdeclares⟩, ?_⟩
      rw [← hlanguage]
  rw [funext (declaring?_eq t files)]
  exact ⟨fun s => pass_eq_some_iff hlegible hfound,
    pass_eq_none_iff hlegible hfound⟩

/-- The search finds the foremost file that is named after the type, and
only if there is none the foremost one that declares it. -/
theorem search?_eq_some_iff {typeName : String} {s : SourceFile} :
    search? t files typeName = some s ↔ IsSource t s ∧
      (Foremost (candidateNames typeName) files (Named t) s.typeName s.path ∨
        (∀ n ∈ candidateNames typeName, ∀ f ∈ files, ¬Named t n f) ∧
          Foremost (candidateNames typeName) files (Declaring t) s.typeName
            s.path) := by
  simp only [search?, Option.or_eq_some_iff, named_pass.1, named_pass.2,
    declaring_pass.1]
  tauto

theorem search?_eq_none_iff {typeName : String} :
    search? t files typeName = none ↔
      ∀ n ∈ candidateNames typeName, ∀ f ∈ files,
        ¬Named t n f ∧ ¬Declaring t n f := by
  simp only [search?, Option.or_eq_none_iff, named_pass.2, declaring_pass.2]
  exact ⟨fun h n hn f hf => ⟨h.1 n hn f hf, h.2 n hn f hf⟩,
    fun h => ⟨fun n hn f hf => (h n hn f hf).1,
      fun n hn f hf => (h n hn f hf).2⟩⟩

/-- What is found is found again under the name it bears. -/
theorem search?_again {typeName : String} {s : SourceFile}
    (h : search? t files typeName = some s) :
    search? t files s.typeName = some s := by
  obtain ⟨hs, hmatch⟩ := search?_eq_some_iff.1 h
  have hmem : s.typeName ∈ candidateNames typeName :=
    hmatch.elim Foremost.mem fun h => h.2.mem
  obtain ⟨rest, hnames, hrest⟩ := candidateNames_of_mem hmem
  rw [search?_eq_some_iff, hnames]
  refine ⟨hs, hmatch.imp (·.again rest) fun ⟨hnone, hfirst⟩ =>
    ⟨fun n hn => hnone n ?_, hfirst.again rest⟩⟩
  exact (List.mem_cons.1 hn).elim (· ▸ hmem) (hrest n)

-- ============================================================= summary

/-- Looking a type up in a workspace. There is none exactly if no file that
can be read and is not too large is named after the type or declares it,
under one of the names that are looked for. Else what is found is the
foremost file that is named after it, or the foremost that declares it if
none is named after it, with its text and its language, under the name that
matched. And that name, looked up in the same workspace, leads to the same
source. -/
theorem lookup_spec (w : Workspace) (t : Tree) (typeName : String) :
    let names := candidateNames typeName
    let files := w.files t
    let found := (w.lookup t typeName).1
    (found = none ↔
      ∀ n ∈ names, ∀ f ∈ files, ¬Named t n f ∧ ¬Declaring t n f) ∧
    (∀ s, found = some s ↔ IsSource t s ∧
      (Foremost names files (Named t) s.typeName s.path ∨
        (∀ n ∈ names, ∀ f ∈ files, ¬Named t n f) ∧
          Foremost names files (Declaring t) s.typeName s.path)) ∧
    (found.bind fun s => ((w.lookup t typeName).2.lookup t s.typeName).1) =
      found := by
  refine ⟨search?_eq_none_iff, fun s => search?_eq_some_iff, ?_⟩
  show ((search? t (w.files t) typeName).bind fun s =>
    search? t (w.files t) s.typeName) = search? t (w.files t) typeName
  rcases h : search? t (w.files t) typeName with _ | s
  · rfl
  · exact search?_again h

end Workspace

end CallTrace.Source
