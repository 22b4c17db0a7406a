/-
What the files of a tree hold, through every change.

A property of file contents that holds throughout a tree is lost only by
writing a file without it: folders hold no bytes, moving a file takes its
bytes along, and erasing takes files away. What is read from a path has
the property too, however many links lead there.
-/
import CallTrace.Files.Tree

namespace CallTrace.Files.Tree

variable {P : List UInt8 → Prop} {t t' : Tree} {p : Parts} {n : Node}

/-- Every file in the tree, at whatever path, holds bytes with the
property. -/
def AllFiles (P : List UInt8 → Prop) (t : Tree) : Prop :=
  ∀ e ∈ t.nodes, ∀ bytes, e.2 = .file bytes → P bytes

-- ============================================================ reading

theorem AllFiles.of_node? (h : t.AllFiles P) {bytes : List UInt8}
    (hn : t.node? p = some (.file bytes)) : P bytes := by
  rw [node?] at hn
  split at hn
  · exact absurd hn (by simp)
  · obtain ⟨e, he, hb⟩ := Option.map_eq_some_iff.1 hn
    exact h e (List.mem_of_find?_eq_some he) bytes hb

/-- What stands at the end of a walk stands at some path of the tree. -/
theorem node?_of_locate (links : Nat) (at_ ps : Parts) {q : Parts}
    (h : t.locate links at_ ps = .ok (q, some n)) :
    ∃ p, t.node? p = some n := by
  fun_induction locate t links at_ ps with
  | case1 links at_ => exact ⟨at_, (Prod.mk.inj (Except.ok.inj h)).2⟩
  | case2 _ _ _ ih => exact ih h
  | case4 _ _ _ _ _ _ _ ih => exact ih h
  | case6 _ _ _ _ _ _ _ _ ih => exact ih h
  | case7 _ _ _ _ _ bytes hn =>
    exact ⟨_, hn.trans (Prod.mk.inj (Except.ok.inj h)).2⟩
  | case9 => exact absurd (Prod.mk.inj (Except.ok.inj h)).2 (by simp)
  | case3 | case5 | case8 | case10 => exact absurd h (by simp)

/-- What is read has the property. -/
theorem AllFiles.of_read (h : t.AllFiles P) {path : String}
    {bytes : List UInt8} (hr : t.read path = .ok bytes) : P bytes := by
  rw [read] at hr
  split at hr
  · rename_i q found hf
    cases hr
    rw [find] at hf
    split at hf
    · exact absurd hf (by simp)
    · obtain ⟨p, hp⟩ := node?_of_locate _ _ _ hf
      exact h.of_node? hp
  · exact absurd hr (by simp)
  · exact absurd hr (by simp)
  · exact absurd hr (by simp)

-- =========================================================== changing

/-- A node whose bytes, if it has any, have the property. -/
def Fit (P : List UInt8 → Prop) (n : Node) : Prop :=
  ∀ bytes, n = .file bytes → P bytes

theorem fit_folder : Fit P .folder := fun _ h => absurd h (by simp)

theorem fit_file {bytes : List UInt8} (h : P bytes) :
    Fit P (.file bytes) := by
  rintro _ ⟨⟩
  exact h

/-- Setting a place to a file of the kind, or to a folder, leaves all files
of the kind. -/
theorem AllFiles.set (h : t.AllFiles P) (p : Parts) (hn : Fit P n) :
    (t.set p n).AllFiles P := by
  rw [Tree.set]
  split
  · intro e he
    obtain ⟨f, hf, rfl⟩ := List.mem_map.1 he
    split
    · exact hn
    · exact h f hf
  · intro e he
    rcases List.mem_append.1 he with he | he
    · exact h e he
    · rw [List.mem_singleton.1 he]
      exact hn

theorem AllFiles.erase (h : t.AllFiles P) (p : Parts) :
    (t.erase p).AllFiles P :=
  fun e he => h e (List.mem_filter.1 he).1

theorem AllFiles.makeFolders (h : t.AllFiles P) (done ps : Parts) :
    (t.makeFolders done ps).1.AllFiles P := by
  fun_induction Tree.makeFolders t done ps with
  | case1 => exact h
  | case2 _ _ _ _ _ _ _ ih => exact ih h
  | case3 _ _ _ _ _ _ _ _ ih => exact ih (h.set _ fit_folder)
  | case4 | case5 | case6 => exact h

/-- Writing bytes of a kind leaves files of that kind only. -/
theorem AllFiles.write (h : t.AllFiles P) {path : String}
    {bytes : List UInt8} (hb : P bytes)
    (hw : t.write path bytes = .ok t') : t'.AllFiles P := by
  rw [Tree.write] at hw
  split at hw
  · exact absurd hw (by simp)
  · cases hw
    exact h.set _ (fit_file hb)
  · exact absurd hw (by simp)

/-- Moving a file leaves files of a kind only, if there were no others. -/
theorem AllFiles.move (h : t.AllFiles P) {source target : String}
    (hm : t.move source target = .ok t') : t'.AllFiles P := by
  simp only [Tree.move, bind, Except.bind] at hm
  split at hm
  · exact absurd hm (by simp)
  split at hm
  · exact absurd hm (by simp)
  split at hm
  · exact absurd hm (by simp)
  · exact absurd hm (by simp)
  · rename_i n _ hp _
    cases hm
    refine (h.erase _).set _ fun bytes hb => ?_
    exact h.of_node? (hb ▸ hp)

end CallTrace.Files.Tree
