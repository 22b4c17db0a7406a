/-
Tables whose order shows.

A table holds at most one value under each key, in the order in which the
keys came. A new value for a key takes the place of the old one, so the
order in which entries are listed, written and dropped is the order in
which their keys were first set.
-/

namespace CallTrace.Cache

/-- Values by key, in the order in which the keys came. -/
structure Table (κ α : Type) where
  entries : List (κ × α) := []
  nodup : (entries.map (·.1)).Nodup := by exact List.nodup_nil
deriving DecidableEq

namespace Table

variable {κ α : Type} [DecidableEq κ]

def keys (t : Table κ α) : List κ := t.entries.map (·.1)

def values (t : Table κ α) : List α := t.entries.map (·.2)

def size (t : Table κ α) : Nat := t.entries.length

/-- The value under a key. -/
def get? (t : Table κ α) (k : κ) : Option α :=
  (t.entries.find? (·.1 = k)).map (·.2)

def contains (t : Table κ α) (k : κ) : Bool := t.keys.contains k

/-- The entries that satisfy `p`. -/
def keep (t : Table κ α) (p : κ → α → Bool) : Table κ α where
  entries := t.entries.filter fun e => p e.1 e.2
  nodup := t.nodup.sublist (List.filter_sublist.map _)

/-- The table without a key. -/
def erase (t : Table κ α) (k : κ) : Table κ α := t.keep fun k' _ => k' ≠ k

/-- The entries with the value of `k` replaced. -/
private def replaced (es : List (κ × α)) (k : κ) (a : α) : List (κ × α) :=
  es.map fun e => if e.1 = k then (k, a) else e

omit [DecidableEq κ] in
private theorem nodup_snoc {es : List (κ × α)} {k : κ} {a : α}
    (h : (es.map (·.1)).Nodup) (hk : k ∉ es.map (·.1)) :
    ((es ++ [(k, a)]).map (·.1)).Nodup := by
  rw [List.map_append, List.map_singleton]
  refine List.nodup_append.2 ⟨h, by simp, fun x hx y hy => ?_⟩
  rw [List.mem_singleton.1 hy]
  rintro rfl
  exact hk hx

private theorem keys_replaced (es : List (κ × α)) (k : κ) (a : α) :
    (replaced es k a).map (·.1) = es.map (·.1) := by
  rw [replaced, List.map_map]
  refine List.map_congr_left fun e _ => ?_
  by_cases h : e.1 = k <;> simp [h]

/-- The table with a value under a key: in the place of the old one, or at
the end. -/
def put (t : Table κ α) (k : κ) (a : α) : Table κ α :=
  if h : k ∈ t.entries.map (·.1) then
    ⟨replaced t.entries k a, by rw [keys_replaced]; exact t.nodup⟩
  else ⟨t.entries ++ [(k, a)], nodup_snoc t.nodup h⟩

/-- The table of a list of entries, set one after the other. -/
def ofList (es : List (κ × α)) : Table κ α :=
  es.foldl (fun t e => t.put e.1 e.2) {}

-- ============================================================= views

theorem keys_put_of_mem {t : Table κ α} {k : κ} (a : α) (h : k ∈ t.keys) :
    (t.put k a).keys = t.keys := by
  have h' : k ∈ t.entries.map (·.1) := h
  simp only [put, dif_pos h', keys]
  exact keys_replaced _ _ _

theorem keys_put_of_not_mem {t : Table κ α} {k : κ} (a : α)
    (h : k ∉ t.keys) : (t.put k a).keys = t.keys ++ [k] := by
  have h' : k ∉ t.entries.map (·.1) := h
  simp [put, h', keys]

theorem mem_of_get? {t : Table κ α} {k : κ} {a : α}
    (h : t.get? k = some a) : (k, a) ∈ t.entries := by
  obtain ⟨e, he, rfl⟩ := Option.map_eq_some_iff.1 h
  have hk : e.1 = k := by simpa using List.find?_some he
  subst hk
  exact List.mem_of_find?_eq_some he

/-- What is in a table after a value was put there was put there or had
been there before. -/
theorem mem_put {t : Table κ α} {k : κ} {a : α} {e : κ × α}
    (h : e ∈ (t.put k a).entries) : e = (k, a) ∨ e ∈ t.entries := by
  rw [put] at h
  split at h
  · obtain ⟨f, hf, rfl⟩ := List.mem_map.1 h
    by_cases hk : f.1 = k
    · left
      simp [hk]
    · right
      simpa [hk] using hf
  · rcases List.mem_append.1 h with h | h
    · exact .inr h
    · exact .inl (List.mem_singleton.1 h)

theorem mem_put_self (t : Table κ α) (k : κ) (a : α) :
    (k, a) ∈ (t.put k a).entries := by
  rw [put]
  split
  · rename_i h
    obtain ⟨e, he, hk⟩ := List.mem_map.1 h
    exact List.mem_map.2 ⟨e, he, if_pos hk⟩
  · exact List.mem_append_right _ (List.mem_singleton_self _)

/-- A table made from a list holds nothing that is not in the list. -/
theorem mem_of_mem_ofList {es : List (κ × α)} {e : κ × α}
    (h : e ∈ (ofList es).entries) : e ∈ es := by
  have hput : ∀ (l : List (κ × α)) (t : Table κ α),
      e ∈ (l.foldl (fun t f => t.put f.1 f.2) t).entries →
        e ∈ l ∨ e ∈ t.entries := by
    intro l
    induction l with
    | nil => exact fun t h => .inr h
    | cons f l ih =>
      intro t h
      rcases ih _ h with h | h
      · exact .inl (List.mem_cons_of_mem _ h)
      · rcases mem_put h with rfl | h
        · exact .inl (List.mem_cons_self ..)
        · exact .inr h
  rcases hput es {} h with h | h
  · exact h
  · exact absurd h List.not_mem_nil

omit [DecidableEq κ] in
theorem mem_keep {t : Table κ α} {p : κ → α → Bool} {e : κ × α} :
    e ∈ (t.keep p).entries ↔ e ∈ t.entries ∧ p e.1 e.2 = true :=
  List.mem_filter

omit [DecidableEq κ] in
theorem size_keep_le (t : Table κ α) (p : κ → α → Bool) :
    (t.keep p).size ≤ t.size := List.length_filter_le _ _

end Table

end CallTrace.Cache
