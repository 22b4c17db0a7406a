/-
Where a file can be saved.

A file is saved by writing another one beside it and moving that into
place. This works, and the file is read as it was written, if the folders
on the way are there and nothing but files stands under the two names. And
then it works again: what was moved is not there any more, and in its place
there is a file.

To look a path up means to walk from folder to folder. A walk that ends at
a folder has seen only folders and links, so it goes the same way in any
other tree that has these.
-/
import CallTrace.Files.Tree

namespace CallTrace.Files.Tree

variable {t t' : Tree} {p q : Parts} {n : Node} {links : Nat}

-- ============================================================== nodes

/-- Below the root, what is set is found there and nothing else changes. -/
theorem node?_set (hp : p ≠ []) (n : Node) (q : Parts) :
    (t.set p n).node? q = if q = p then some n else t.node? q := by
  by_cases hq : q = []
  · rw [node?, if_pos hq, node?, if_pos hq, if_neg (hq ▸ hp.symm)]
  rw [node?, if_neg hq, node?, if_neg hq, set]
  split
  · rename_i hany
    rw [List.find?_map, Option.map_map]
    by_cases hqp : q = p
    · subst hqp
      obtain ⟨e, he, heq⟩ := List.any_eq_true.1 hany
      rcases hf : List.find? _ t.nodes with _ | f
      · refine absurd ?_ (List.find?_eq_none.1 hf e he)
        simp [of_decide_eq_true heq]
      · have hfound := List.find?_some hf
        by_cases hfq : f.1 = q
        · rw [Option.map_some, Function.comp_apply, if_pos hfq, if_pos rfl]
        · simp [hfq] at hfound
    · have hsame : ((fun e => decide (e.1 = q)) ∘
          fun e : Parts × Node => if e.1 = p then (p, n) else e) =
          fun e => decide (e.1 = q) := by
        funext e
        by_cases hep : e.1 = p
        · simp [hep, Ne.symm hqp]
        · simp [hep]
      rw [hsame, if_neg hqp]
      refine Option.map_congr fun e he => ?_
      have hfound : e.1 = q := by simpa using List.find?_some he
      simp [hfound, hqp]
  · rename_i hany
    rw [List.find?_append, Option.map_or]
    by_cases hqp : q = p
    · subst hqp
      have hnone : t.nodes.find? (fun e => decide (e.1 = q)) = none :=
        List.find?_eq_none.2 fun e he hfound =>
          hany (List.any_eq_true.2 ⟨e, he, hfound⟩)
      rw [hnone]
      simp
    · simp [hqp, Ne.symm hqp]

/-- Erasing a place leaves every place that is not below it. -/
theorem node?_erase (h : p.isPrefixOf q = false) :
    (t.erase p).node? q = t.node? q := by
  have hsame : (fun e : Parts × Node =>
      decide ((!p.isPrefixOf e.1) = true ∧ decide (e.1 = q) = true)) =
        fun e => decide (e.1 = q) := by
    funext e
    by_cases he : e.1 = q
    · simp [he, h]
    · simp [he]
  rw [node?, node?, erase, List.find?_filter, hsame]

theorem node?_erase_self (hp : p ≠ []) : (t.erase p).node? p = none := by
  rw [node?, if_neg hp, Option.map_eq_none_iff, List.find?_eq_none]
  intro e he heq
  have hkept := (List.mem_filter.1 he).2
  rw [of_decide_eq_true heq, List.isPrefixOf_iff_prefix.2 (List.prefix_refl p)]
    at hkept
  cases hkept

-- ============================================================== walks

/-- A walk to a folder goes on from there. -/
theorem locate_append (links : Nat) (at_ ps rest : Parts)
    (h : t.locate links at_ ps = .ok (q, some .folder)) :
    ∃ links', t.locate links at_ (ps ++ rest) = t.locate links' q rest := by
  fun_induction locate t links at_ ps with
  | case1 links at_ =>
    rw [(Prod.mk.inj (Except.ok.inj h)).1]
    exact ⟨links, rfl⟩
  | case2 links at_ ps ih =>
    rw [List.cons_append, locate]
    exact ih h
  | case4 links at_ name ps hname hshort hn ih =>
    rw [List.cons_append, locate, if_neg hshort, hn]
    · exact ih h
    · exact hname
  | case6 at_ name ps hname hshort target hn links ih =>
    rw [List.cons_append, locate, if_neg hshort, hn]
    · dsimp only
      rw [← List.append_assoc]
      exact ih h
    · exact hname
  | case7 => exact absurd (Prod.mk.inj (Except.ok.inj h)).2 (by simp)
  | case9 => exact absurd (Prod.mk.inj (Except.ok.inj h)).2 (by simp)
  | case3 | case5 | case8 | case10 => exact absurd h (by simp)

/-- A walk to a folder goes the same way where the folders and links are
the same. -/
theorem locate_congr
    (hsame : ∀ p n, t.node? p = some n → (∀ bytes, n ≠ .file bytes) →
      t'.node? p = some n) (links : Nat) (at_ ps : Parts)
    (h : t.locate links at_ ps = .ok (q, some .folder)) :
    t'.locate links at_ ps = .ok (q, some .folder) := by
  fun_induction locate t links at_ ps with
  | case1 links at_ =>
    obtain ⟨rfl, hn⟩ := Prod.mk.inj (Except.ok.inj h)
    rw [locate, hsame _ _ hn fun _ => Node.noConfusion]
  | case2 links at_ ps ih =>
    rw [locate]
    exact ih h
  | case4 links at_ name ps hname hshort hn ih =>
    rw [locate, if_neg hshort, hsame _ _ hn fun _ => Node.noConfusion]
    · exact ih h
    · exact hname
  | case6 at_ name ps hname hshort target hn links ih =>
    rw [locate, if_neg hshort, hsame _ _ hn fun _ => Node.noConfusion]
    · exact ih h
    · exact hname
  | case7 => exact absurd (Prod.mk.inj (Except.ok.inj h)).2 (by simp)
  | case9 => exact absurd (Prod.mk.inj (Except.ok.inj h)).2 (by simp)
  | case3 | case5 | case8 | case10 => exact absurd h (by simp)

/-- Nothing but a file stands at the path. -/
def Vacant (t : Tree) (p : Parts) : Prop :=
  ∀ n, t.node? p = some n → ∃ bytes, n = .file bytes

/-- A name that can be looked up. -/
structure Proper (name : String) : Prop where
  up : name ≠ ".."
  short : name.utf8ByteSize ≤ maxName

/-- A vacant place is located, with nothing there. -/
theorem locate_vacant {name : String} (hname : Proper name)
    (h : t.Vacant (q ++ [name])) (links : Nat) :
    t.locate links q [name] =
      .ok (q ++ [name], t.node? (q ++ [name])) := by
  rw [locate, if_neg (Nat.not_lt.2 hname.short)]
  · rcases hn : t.node? (q ++ [name]) with _ | n
    · rfl
    · obtain ⟨bytes, rfl⟩ := h n hn
      rfl
  · exact hname.up

/-- Where every folder of a path is there, making them changes nothing. -/
theorem makeFolders_of_way (done ps : Parts)
    (h : ∀ qs, qs <+: done ++ ps →
      ∃ q, t.locate maxLinks [] qs = .ok (q, some .folder)) :
    t.makeFolders done ps = (t, .ok ()) := by
  induction ps generalizing done with
  | nil => rfl
  | cons name ps ih =>
    obtain ⟨q, hq⟩ := h (done ++ [name]) ⟨ps, by simp⟩
    rw [makeFolders]
    simp only [hq]
    exact ih (done ++ [name]) fun qs hqs => h qs (by simpa using hqs)

-- ============================================================= saving

/-- The path leads to the name in a folder, and is short enough to be
looked up. -/
structure Spelled (path : String) (front : Parts) (name : String) :
    Prop where
  parts : parts path = front ++ [name]
  folder : Files.parts (splitLast path).1 = front
  short : path.utf8ByteSize ≤ maxPath
  shortFolder : (splitLast path).1.utf8ByteSize ≤ maxPath
  proper : Proper name

variable {path aside name other : String} {front folder : Parts}

namespace Spelled

theorem find (h : Spelled path front name)
    (hfolder : t.locate maxLinks [] front = .ok (folder, some .folder))
    (hvacant : t.Vacant (folder ++ [name])) :
    t.find path = .ok (folder ++ [name], t.node? (folder ++ [name])) := by
  rw [Tree.find, if_neg (Nat.not_lt.2 h.short), h.parts]
  obtain ⟨links, hlocate⟩ := locate_append maxLinks [] front [name] hfolder
  rw [hlocate, locate_vacant h.proper hvacant]

/-- A path that is spelled out is placed in its folder under its name. -/
theorem place (h : Spelled path front name)
    (hfolder : t.locate maxLinks [] front = .ok (folder, some .folder)) :
    t.place path = .ok (folder ++ [name]) := by
  have hname : (splitLast path).2 = name := by
    rw [splitLast, h.parts]
    simp
  have hfind : t.find (splitLast path).1 = .ok (folder, some .folder) := by
    rw [Tree.find, if_neg (Nat.not_lt.2 h.shortFolder), h.folder, hfolder]
  simp only [Tree.place, hfind, hname,
    if_neg (Nat.not_lt.2 h.proper.short)]

end Spelled

/-- The folders on the way are there, and in the last of them nothing but
files stands under the two names, and nothing below the second one. -/
structure Roomy (t : Tree) (front folder : Parts) (name other : String) :
    Prop where
  way : ∀ ps, ps <+: front →
    ∃ q, t.locate maxLinks [] ps = .ok (q, some .folder)
  ends : t.locate maxLinks [] front = .ok (folder, some .folder)
  free : t.Vacant (folder ++ [name])
  spare : t.Vacant (folder ++ [other])
  below : ∀ e ∈ t.nodes, (folder ++ [other]).isPrefixOf e.1 = true →
    e.1 = folder ++ [other]

/-- The tree after the bytes were written under the second name and moved
to the first one. -/
def saved (t : Tree) (folder : Parts) (name other : String)
    (bytes : List UInt8) : Tree :=
  ((t.set (folder ++ [other]) (.file bytes)).erase (folder ++ [other])).set
    (folder ++ [name]) (.file bytes)

namespace Roomy

variable {bytes : List UInt8}

private theorem snoc_ne_nil {folder : Parts} {name : String} :
    folder ++ [name] ≠ [] := by simp

private theorem not_below (h : name ≠ other) :
    (folder ++ [other]).isPrefixOf (folder ++ [name]) = false := by
  rw [← Bool.not_eq_true, List.isPrefixOf_iff_prefix]
  intro hbelow
  have hsame := hbelow.eq_of_length (by simp)
  simp [h.symm] at hsame

/-- Folders and links are where they were. -/
theorem node?_saved (h : t.Roomy front folder name other)
    {p : Parts} {n : Node} (hn : t.node? p = some n)
    (hkind : ∀ bytes, n ≠ .file bytes) :
    (t.saved folder name other bytes).node? p = some n := by
  have hname : p ≠ folder ++ [name] := by
    rintro rfl
    obtain ⟨bytes, rfl⟩ := h.free n hn
    exact hkind bytes rfl
  have hother : p ≠ folder ++ [other] := by
    rintro rfl
    obtain ⟨bytes, rfl⟩ := h.spare n hn
    exact hkind bytes rfl
  have hbelow : (folder ++ [other]).isPrefixOf p = false := by
    rw [← Bool.not_eq_true]
    intro hunder
    rw [node?] at hn
    split at hn
    · rename_i hnil
      simp [hnil] at hunder
    · obtain ⟨e, he, -⟩ := Option.map_eq_some_iff.1 hn
      have hp : e.1 = p := by simpa using List.find?_some he
      refine hother (hp ▸ h.below e (List.mem_of_find?_eq_some he) ?_)
      rwa [hp]
  rw [saved, node?_set snoc_ne_nil, if_neg hname, node?_erase hbelow,
    node?_set snoc_ne_nil, if_neg hother, hn]

/-- So the file can be saved again. -/
theorem again (h : t.Roomy front folder name other) (hne : name ≠ other) :
    (t.saved folder name other bytes).Roomy front folder name other where
  way ps hps := by
    obtain ⟨q, hq⟩ := h.way ps hps
    exact ⟨q, locate_congr (fun _ _ => h.node?_saved) _ _ _ hq⟩
  ends := locate_congr (fun _ _ => h.node?_saved) _ _ _ h.ends
  free n hn := by
    rw [saved, node?_set snoc_ne_nil, if_pos rfl] at hn
    exact ⟨bytes, (Option.some.inj hn).symm⟩
  spare n hn := by
    rw [saved, node?_set snoc_ne_nil, if_neg (by simp [hne.symm]),
      node?_erase_self snoc_ne_nil] at hn
    cases hn
  below e he hbelow := by
    have hmem : e.1 = folder ++ [name] ∨
        e ∈ ((t.set (folder ++ [other]) (.file bytes)).erase
          (folder ++ [other])).nodes := by
      rw [saved, Tree.set] at he
      split at he
      · obtain ⟨f, hf, rfl⟩ := List.mem_map.1 he
        split
        · exact .inl rfl
        · exact .inr hf
      · rcases List.mem_append.1 he with he | he
        · exact .inr he
        · rw [List.mem_singleton.1 he]
          exact .inl rfl
    rcases hmem with hname | hkept
    · rw [hname, not_below hne] at hbelow
      cases hbelow
    · have hnot := (List.mem_filter.1 hkept).2
      rw [hbelow] at hnot
      cases hnot

/-- What is written beside the place is there, and nothing else changes. -/
theorem write (h : t.Roomy front folder name other)
    (haside : Spelled aside front other) (bytes : List UInt8) :
    t.write aside bytes =
      .ok (t.set (folder ++ [other]) (.file bytes)) := by
  rw [Tree.write, haside.find h.ends h.spare]
  rcases hn : t.node? (folder ++ [other]) with _ | n
  · rfl
  · obtain ⟨bytes', rfl⟩ := h.spare n hn
    rfl

/-- What was written beside the place is moved to it, and replaces what is
there. -/
theorem move (h : t.Roomy front folder name other) (hne : name ≠ other)
    (hpath : Spelled path front name) (haside : Spelled aside front other)
    (bytes : List UInt8) :
    (t.set (folder ++ [other]) (.file bytes)).move aside path =
      .ok (t.saved folder name other bytes) := by
  have hfolder : (t.set (folder ++ [other]) (.file bytes)).locate maxLinks []
      front = .ok (folder, some .folder) := by
    refine locate_congr (fun p n hn hkind => ?_) _ _ _ h.ends
    rw [node?_set snoc_ne_nil, if_neg, hn]
    rintro rfl
    obtain ⟨bytes', rfl⟩ := h.spare n hn
    exact hkind bytes' rfl
  have hsource : (t.set (folder ++ [other]) (.file bytes)).node?
      (folder ++ [other]) = some (.file bytes) := by
    rw [node?_set snoc_ne_nil, if_pos rfl]
  have htarget : (t.set (folder ++ [other]) (.file bytes)).node?
      (folder ++ [name]) = t.node? (folder ++ [name]) := by
    rw [node?_set snoc_ne_nil, if_neg (by simp [hne])]
  rw [Tree.move, haside.place hfolder, hpath.place hfolder]
  simp only [bind, Except.bind, hsource, htarget]
  rcases hn : t.node? (folder ++ [name]) with _ | n
  · rfl
  · obtain ⟨bytes', rfl⟩ := h.free n hn
    rfl

/-- The file is read as it was written. -/
theorem read (h : t.Roomy front folder name other) (hne : name ≠ other)
    (hpath : Spelled path front name) (bytes : List UInt8) :
    (t.saved folder name other bytes).read path = .ok bytes := by
  have hagain : (t.saved folder name other bytes).Roomy front folder name
      other := h.again hne
  have hnode : (t.saved folder name other bytes).node? (folder ++ [name]) =
      some (.file bytes) := by
    rw [saved, node?_set snoc_ne_nil, if_pos rfl]
  rw [Tree.read, hpath.find hagain.ends hagain.free, hnode]

end Roomy

/-- A file can be saved at the path by way of the one aside. -/
def Savable (t : Tree) (path aside : String) : Prop :=
  ∃ front folder name other, Spelled path front name ∧
    Spelled aside front other ∧ name ≠ other ∧
    t.Roomy front folder name other

namespace Savable

theorem makeFolders (h : t.Savable path aside) :
    t.makeFolders [] (Files.parts (splitLast path).1) = (t, .ok ()) := by
  obtain ⟨front, folder, name, other, hpath, -, -, hroomy⟩ := h
  rw [hpath.folder]
  exact makeFolders_of_way [] front hroomy.way

/-- Where a file can be saved, it is read as it was written, and can be
saved again. -/
theorem save (h : t.Savable path aside) (bytes : List UInt8) :
    ∃ t₁ t₂, t.write aside bytes = .ok t₁ ∧ t₁.move aside path = .ok t₂ ∧
      t₂.read path = .ok bytes ∧ t₂.Savable path aside := by
  obtain ⟨front, folder, name, other, hpath, haside, hne, hroomy⟩ := h
  exact ⟨_, _, hroomy.write haside bytes,
    hroomy.move hne hpath haside bytes, hroomy.read hne hpath bytes,
    front, folder, name, other, hpath, haside, hne, hroomy.again hne⟩

end Savable

end CallTrace.Files.Tree
