/-
Sizes of tables, and what is found in them.

A table grows only by a key that it did not have. No key is in it twice, so
an entry that is in a table is the one that is found under its key.
-/
import CallTrace.Cache.Table
import Mathlib.Data.List.Nodup
import Mathlib.Data.List.Perm.Subperm

namespace CallTrace.Cache

namespace Table

variable {κ α : Type} [DecidableEq κ] (t : Table κ α) {k : κ}

omit [DecidableEq κ] in
theorem size_eq_keys : t.size = t.keys.length := (List.length_map _).symm

theorem size_put_of_contains (b : α) (h : t.contains k = true) :
    (t.put k b).size = t.size := by
  rw [size_eq_keys, size_eq_keys, keys_put_of_mem b (List.contains_iff_mem.1 h)]

theorem size_put_of_new (b : α) (h : t.contains k = false) :
    (t.put k b).size = t.size + 1 := by
  have hk : k ∉ t.keys := fun hmem => by
    rw [contains, List.contains_iff_mem.2 hmem] at h
    exact absurd h (by simp)
  rw [size_eq_keys, size_eq_keys, keys_put_of_not_mem b hk,
    List.length_append, List.length_singleton]

theorem mem_keys_put (b : α) {k' : κ} :
    k' ∈ (t.put k b).keys ↔ k' ∈ t.keys ∨ k' = k := by
  by_cases hk : k ∈ t.keys
  · rw [keys_put_of_mem b hk]
    exact ⟨.inl, fun h => h.elim id fun h => h ▸ hk⟩
  · rw [keys_put_of_not_mem b hk, List.mem_append, List.mem_singleton]

theorem keys_erase (k : κ) : (t.erase k).keys = t.keys.erase k := by
  have hnodup : t.keys.Nodup := t.nodup
  rw [hnodup.erase_eq_filter, keys, keys, List.filter_map]
  refine congrArg (List.map _) (List.filter_congr fun e _ => ?_)
  by_cases h : e.1 = k <;> simp [h]

theorem size_erase_of_mem (h : k ∈ t.keys) :
    (t.erase k).size = t.size - 1 := by
  rw [size_eq_keys, size_eq_keys, keys_erase, List.length_erase_of_mem h]

-- ============================================================= finding

/-- What is in a table is found under its key. -/
theorem get?_eq_some_iff {a : α} :
    t.get? k = some a ↔ (k, a) ∈ t.entries := by
  refine ⟨mem_of_get?, fun h => ?_⟩
  rcases hg : t.get? k with _ | b
  · rw [get?, Option.map_eq_none_iff, List.find?_eq_none] at hg
    exact absurd (decide_eq_true rfl) (hg _ h)
  · have hsame := List.inj_on_of_nodup_map t.nodup h (mem_of_get? hg) rfl
    rw [(Prod.mk.inj hsame).2]

theorem mem_put_of_ne {k' : κ} {a : α} (b : α) (hk : k' ≠ k)
    (h : (k', a) ∈ t.entries) : (k', a) ∈ (t.put k b).entries := by
  rw [put]
  split
  · exact List.mem_map.2 ⟨_, h, if_neg hk⟩
  · exact List.mem_append_left _ h

/-- Besides what was put there a table has what it had under other keys. -/
theorem mem_put_of {t : Table κ α} {a : α} {e : κ × α}
    (h : e ∈ (t.put k a).entries) : e = (k, a) ∨ e ∈ t.entries ∧ e.1 ≠ k := by
  rcases mem_put h with he | he
  · exact .inl he
  by_cases hk : e.1 = k
  · exact .inl (List.inj_on_of_nodup_map (t.put k a).nodup h
      (t.mem_put_self k a) hk)
  · exact .inr ⟨he, hk⟩

/-- A value under a key is one entry besides those under other keys,
whatever else is kept. -/
theorem size_keep_put_le (k : κ) (b : α) (p : κ → α → Bool) :
    ((t.put k b).keep p).size ≤ ((t.keep p).erase k).size + 1 := by
  have hnodup : ((t.put k b).keep p).entries.Nodup :=
    .of_map _ ((t.put k b).keep p).nodup
  have hsub : ((t.put k b).keep p).entries ⊆
      (k, b) :: ((t.keep p).erase k).entries := by
    intro e he
    obtain ⟨he, hp⟩ := mem_keep.1 he
    rcases t.mem_put_of he with rfl | ⟨he, hk⟩
    · exact List.mem_cons_self
    · exact List.mem_cons_of_mem _
        (mem_keep.2 ⟨mem_keep.2 ⟨he, hp⟩, by simpa using hk⟩)
  exact (hnodup.subperm hsub).length_le

theorem entries_put_of_new (a : α) (h : k ∉ t.keys) :
    (t.put k a).entries = t.entries ++ [(k, a)] := by
  have h' : k ∉ t.entries.map (·.1) := h
  rw [put, dif_neg h']

/-- Of a list in which no key comes twice nothing is lost. -/
theorem entries_ofList {es : List (κ × α)} (h : (es.map (·.1)).Nodup) :
    (ofList es).entries = es := by
  have hput : ∀ (l : List (κ × α)) (t : Table κ α),
      ((t.entries ++ l).map (·.1)).Nodup →
      (l.foldl (fun t f => t.put f.1 f.2) t).entries = t.entries ++ l := by
    intro l
    induction l with
    | nil => exact fun t _ => (List.append_nil _).symm
    | cons f l ih =>
      intro t hnodup
      have hnew : f.1 ∉ t.keys := by
        rw [List.map_append, List.map_cons] at hnodup
        exact fun hmem => (List.nodup_append.1 hnodup).2.2 _ hmem f.1
          (List.mem_cons_self ..) rfl
      have hentries := t.entries_put_of_new f.2 hnew
      rw [List.foldl_cons, ih _ (by rwa [hentries, List.append_assoc]),
        hentries, List.append_assoc]
      rfl
  exact hput es {} (by simpa using h)

theorem mem_ofList_iff {es : List (κ × α)} (h : (es.map (·.1)).Nodup)
    {e : κ × α} : e ∈ (ofList es).entries ↔ e ∈ es := by
  rw [entries_ofList h]

omit [DecidableEq κ] in
/-- A table is its list of entries. -/
theorem eq_of_entries {t t' : Table κ α} (h : t.entries = t'.entries) :
    t = t' := by
  cases t
  cases t'
  cases h
  rfl

end Table

end CallTrace.Cache
