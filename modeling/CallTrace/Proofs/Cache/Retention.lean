/-
What purging leaves, and what a later purging leaves of that.

Entries that are past retention at one time are so at every later time, as
long as time does not go back: the cutoff is a difference of which only the
minuend grows. Of what is not past retention the oldest go that exceed the
limit, so in the order of age purging drops a first part of the entries. To
purge now and to drop later what is past retention by then is therefore the
same as to purge then. The order of age is that of a stable sort, and such
a sort may be done before or after entries are filtered out.

Only finite times are compared here.
-/
import CallTrace.Cache.DurableTier
import CallTrace.Proofs.Cache.Table
import CallTrace.Proofs.Number.Rounding

namespace CallTrace.Cache

open Number (Double)

-- ============================================================= sorting

section

variable {α : Type} {le : α → α → Bool}

/-- A list splits into what fails a test and what passes it, if nothing
that passes comes before something that fails. -/
theorem filter_append_filter {p : α → Bool} {l : List α}
    (h : l.Pairwise fun a b => p a = true → p b = true) :
    l.filter (fun a => !p a) ++ l.filter p = l := by
  induction l with
  | nil => rfl
  | cons a l ih =>
    obtain ⟨ha, hl⟩ := List.pairwise_cons.1 h
    rcases hp : p a with _ | _
    · rw [List.filter_cons_of_pos (by simp [hp]),
        List.filter_cons_of_neg (by simp [hp]), List.cons_append, ih hl]
    · have hall : ∀ b ∈ a :: l, p b = true :=
        List.forall_mem_cons.2 ⟨hp, fun b hb => ha b hb hp⟩
      rw [List.filter_eq_self.2 hall, List.filter_eq_nil_iff.2
        fun b hb => by simp [hall b hb], List.nil_append]

/-- A stable sort may be done before or after a filter. -/
theorem mergeSort_filter (trans : ∀ a b c, le a b → le b c → le a c)
    (total : ∀ a b, le a b || le b a) (p : α → Bool) (l : List α) :
    (l.filter p).mergeSort le = (l.mergeSort le).filter p := by
  induction l with
  | nil => simp
  | cons a l ih =>
    obtain ⟨before, behind, hsort, hrest, hbefore⟩ :=
      List.mergeSort_cons trans total a l
    have hbehind : ∀ b ∈ behind, le a b := by
      have hsorted := List.pairwise_mergeSort trans total (a :: l)
      rw [hsort] at hsorted
      exact (List.pairwise_cons.1 (List.pairwise_append.1 hsorted).2.1).1
    rw [hrest] at ih
    rw [hsort]
    rcases hp : p a with _ | _
    · rw [List.filter_cons_of_neg (by simp [hp]), ih, List.filter_append,
        List.filter_append, List.filter_cons_of_neg (by simp [hp])]
    · rw [List.filter_cons_of_pos hp, List.filter_append,
        List.filter_cons_of_pos hp]
      obtain ⟨before', behind', hsort', hrest', hbefore'⟩ :=
        List.mergeSort_cons trans total a (l.filter p)
      have hbehind' : ∀ b ∈ behind', le a b := by
        have hsorted := List.pairwise_mergeSort trans total (a :: l.filter p)
        rw [hsort'] at hsorted
        exact (List.pairwise_cons.1 (List.pairwise_append.1 hsorted).2.1).1
      -- What comes before `a` is what it is not to be put before.
      have hsame : before' ++ behind' =
          before.filter p ++ behind.filter p := by
        rw [← hrest', ih, List.filter_append]
      have hsplit : ∀ xs ys : List α, (∀ b ∈ xs, !le a b) →
          (∀ b ∈ ys, le a b) → (xs ++ ys).filter (fun b => !le a b) = xs ∧
            (xs ++ ys).filter (le a) = ys := by
        intro xs ys hxs hys
        rw [List.filter_append, List.filter_append,
          List.filter_eq_self.2 hxs, List.filter_eq_self.2 hys,
          List.filter_eq_nil_iff.2 fun b hb => by simp [hys b hb],
          List.filter_eq_nil_iff.2 fun b hb => by simpa using hxs b hb]
        exact ⟨List.append_nil xs, rfl⟩
      have h := hsplit _ _ hbefore' hbehind'
      have h' := hsplit (before.filter p) (behind.filter p)
        (fun b hb => hbefore b (List.mem_filter.1 hb).1)
        fun b hb => hbehind b (List.mem_filter.1 hb).1
      rw [hsame] at h
      rw [hsort', ← h.1, ← h.2, h'.1, h'.2]

end

-- =========================================================== the order

/-- The entries are in the order of their age. -/
def olderFirst (a b : String × Kept) : Bool :=
  a.2.timestamp.value ≤ b.2.timestamp.value

theorem olderFirst_trans (a b c : String × Kept) :
    olderFirst a b → olderFirst b c → olderFirst a c := by
  simp only [olderFirst, decide_eq_true_eq]
  exact le_trans

theorem olderFirst_total (a b : String × Kept) :
    olderFirst a b || olderFirst b a := by
  simp only [olderFirst, Bool.or_eq_true, decide_eq_true_eq]
  exact le_total _ _

/-- The times of the entries are finite. -/
def Timed (es : List (String × Kept)) : Prop :=
  ∀ e ∈ es, e.2.timestamp.isFinite = true

theorem Timed.sublist {es fs : List (String × Kept)} (h : Timed fs)
    (hsub : es.Sublist fs) : Timed es := fun e he => h e (hsub.subset he)

/-- The entries, the oldest first. -/
def aged (es : List (String × Kept)) : List (String × Kept) :=
  es.mergeSort olderFirst

theorem aged_perm (es : List (String × Kept)) : (aged es).Perm es :=
  List.mergeSort_perm es olderFirst

/-- The oldest keys are the first ones by age, with ties as they were
inserted. -/
theorem oldestKeys_eq {entries : KeptTable} (h : Timed entries.entries)
    (n : Nat) : DurableTier.oldestKeys entries n =
      ((aged entries.entries).take n).map (·.1) := by
  have hsort := List.map_mergeSort (f := id) (s := olderFirst)
    (r := fun a b => !(b.2.timestamp.lt a.2.timestamp))
    (l := entries.entries) fun a ha b hb => by
      rw [Bool.eq_iff_iff]
      simp [olderFirst, ← Bool.not_eq_true, Double.lt_iff (h b hb) (h a ha)]
  rw [List.map_id, List.map_id] at hsort
  rw [DurableTier.oldestKeys, hsort, aged]

-- ============================================================= purging

namespace DurableTier

variable {d : DurableTier} {now later : Double}

/-- The entry is not past retention. -/
def keeps (d : DurableTier) (now : Double) (e : String × Kept) : Bool :=
  !(e.2.timestamp.lt (d.cutoff now))

/-- How many entries exceed the limit. -/
def surplus (d : DurableTier) (es : List (String × Kept)) : Nat :=
  ((es.length : Int) - d.maxEntries).toNat

/-- What is kept is kept by those that are younger. -/
theorem keeps_of_older {a b : String × Kept}
    (ha : a.2.timestamp.isFinite = true) (hb : b.2.timestamp.isFinite = true)
    (hle : a.2.timestamp.value ≤ b.2.timestamp.value)
    (h : d.keeps now a = true) : d.keeps now b = true := by
  simp only [keeps, Bool.not_eq_true', ← Bool.not_eq_true,
    Double.lt_iff_exceeds ha, Double.lt_iff_exceeds hb] at h ⊢
  exact fun hexceeds => h (hexceeds.of_le hle)

/-- What is kept at one time was kept at every time before. -/
theorem keeps_of_later {e : String × Kept}
    (he : e.2.timestamp.isFinite = true) (hnow : now.isFinite = true)
    (hlater : later.isFinite = true) (hle : now.le later = true)
    (h : d.keeps later e = true) : d.keeps now e = true := by
  rw [Double.le_iff hnow hlater] at hle
  simp only [keeps, Bool.not_eq_true', ← Bool.not_eq_true,
    Double.lt_iff_exceeds he] at h ⊢
  exact fun hexceeds => h (hexceeds.sub_mono hnow hlater hle)

theorem retained_entries (d : DurableTier) (now : Double) :
    (d.retained now).entries = d.entries.entries.filter (d.keeps now) := rfl

/-- The entries that purging drops for exceeding the limit. -/
def droppedKeys (d : DurableTier) (es : List (String × Kept)) :
    List String := ((aged es).take (d.surplus es)).map (·.1)

/-- Purging drops what is too old, and of the rest the oldest keys beyond
the limit. -/
theorem purge_entries (h : Timed d.entries.entries) :
    (d.purge now).entries.entries = (d.retained now).entries.filter
      fun e => !(d.droppedKeys (d.retained now).entries).contains e.1 := by
  have hdropped := oldestKeys_eq
    (h.sublist (d.retained_entries now ▸ List.filter_sublist))
    (d.surplus (d.retained now).entries)
  show (d.retained now).entries.filter (fun e => !(oldestKeys (d.retained now)
    (d.surplus (d.retained now).entries)).contains e.1) = _
  rw [hdropped]
  rfl

/-- Purging leaves no more entries than the limit allows, in whatever order
the sort puts them. -/
theorem size_purge_le (d : DurableTier) (now : Double) :
    (d.purge now).entries.size ≤ d.maxEntries.toNat := by
  generalize hes : (d.retained now).entries = es
  let sorted := es.mergeSort fun a b => !(b.2.timestamp.lt a.2.timestamp)
  let dropped := (sorted.take (d.surplus es)).map (·.1)
  have hentries : (d.purge now).entries.entries =
      es.filter fun e => !dropped.contains e.1 := by
    subst hes
    rfl
  have hperm : sorted.Perm es := List.mergeSort_perm ..
  rw [Table.size, hentries, ← (hperm.filter _).length_eq,
    ← List.take_append_drop (d.surplus es) sorted, List.filter_append,
    List.length_append]
  have hnone : (sorted.take (d.surplus es)).filter
      (fun e => !dropped.contains e.1) = [] := by
    refine List.filter_eq_nil_iff.2 fun e he => ?_
    have hmem : e.1 ∈ dropped := List.mem_map_of_mem he
    simp [hmem]
  have hle := List.length_filter_le (fun e => !dropped.contains e.1)
    (sorted.drop (d.surplus es))
  rw [List.length_drop, hperm.length_eq] at hle
  have hsurplus : d.surplus es =
    ((es.length : Int) - d.maxEntries).toNat := rfl
  rw [hnone, List.length_nil]
  omega

/-- While the limit is kept, purging drops only what is past retention. -/
theorem purge_of_size (h : Timed d.entries.entries)
    (hsize : d.entries.size ≤ d.maxEntries.toNat) :
    (d.purge now).entries.entries = (d.retained now).entries := by
  have hle : (d.retained now).entries.length ≤ d.maxEntries.toNat :=
    (d.entries.size_keep_le _).trans hsize
  rw [purge_entries h]
  refine List.filter_eq_self.2 fun e he => ?_
  have hpos := List.length_pos_of_mem he
  have hnone : d.surplus (d.retained now).entries = 0 := by
    rw [surplus]
    omega
  simp [droppedKeys, hnone]

/-- A tier that keeps to its limits is left as it is. -/
theorem purge_of_keeps (h : Timed d.entries.entries)
    (hsize : d.entries.size ≤ d.maxEntries.toNat)
    (hkeeps : ∀ e ∈ d.entries.entries, d.keeps now e = true) :
    d.purge now = d := by
  have hentries : (d.purge now).entries = d.entries := by
    refine Table.eq_of_entries ?_
    rw [purge_of_size h hsize, retained_entries,
      List.filter_eq_self.2 hkeeps]
  have hframe : d.purge now = { d with entries := (d.purge now).entries } :=
    rfl
  rw [hframe, hentries]

/-- To purge, and to drop later what is past retention by then, is to purge
later. -/
theorem retained_purge (h : Timed d.entries.entries)
    (hnow : now.isFinite = true) (hlater : later.isFinite = true)
    (hle : now.le later = true) :
    ((d.purge now).retained later).entries =
      (d.purge later).entries.entries := by
  have hcutoff : ((d.purge now).retained later).entries =
      (d.purge now).entries.entries.filter (d.keeps later) := rfl
  have hkeeps : ∀ e ∈ d.entries.entries, d.keeps later e = true →
      d.keeps now e = true := fun e he =>
    keeps_of_later (h e he) hnow hlater hle
  rw [hcutoff, purge_entries h, purge_entries h, retained_entries,
    retained_entries]
  generalize hes : d.entries.entries.filter (d.keeps now) = es
  have htimed : Timed es := h.sublist (hes ▸ List.filter_sublist)
  have hrest : d.entries.entries.filter (d.keeps later) =
      es.filter (d.keeps later) := by
    rw [← hes, List.filter_filter]
    refine List.filter_congr fun e he => ?_
    rcases hk : d.keeps later e with _ | _
    · rfl
    · rw [hkeeps e he hk]
      rfl
  have haged : aged (es.filter (d.keeps later)) =
      (aged es).filter (d.keeps later) :=
    mergeSort_filter olderFirst_trans olderFirst_total _ _
  -- In the order of age, what is past retention later comes first.
  have hsplit : (aged es).filter (fun e => !d.keeps later e) ++
      (aged es).filter (d.keeps later) = aged es := by
    refine filter_append_filter ?_
    have hsorted := List.pairwise_mergeSort olderFirst_trans
      olderFirst_total es
    refine hsorted.imp_of_mem fun {a b} ha hb hab hk => ?_
    have hmem := fun e (he : e ∈ aged es) => (aged_perm es).subset he
    exact keeps_of_older (htimed a (hmem a ha)) (htimed b (hmem b hb))
      (by simpa [olderFirst] using hab) hk
  have hlength : (aged es).length = es.length := (aged_perm es).length_eq
  have hsurplus : d.surplus (es.filter (d.keeps later)) = d.surplus es -
      ((aged es).filter fun e => !d.keeps later e).length := by
    have hfilter := ((aged_perm es).filter (d.keeps later)).length_eq
    rw [← hsplit, List.length_append] at hlength
    rw [surplus, surplus]
    omega
  have hdropped : ∀ e ∈ es, d.keeps later e = true →
      (e.1 ∈ d.droppedKeys es ↔
        e.1 ∈ d.droppedKeys (es.filter (d.keeps later))) := by
    intro e he hk
    have hexpired : e.1 ∉ ((aged es).filter
        fun e => !d.keeps later e).map (·.1) := by
      intro hmem
      obtain ⟨f, hf, hkey⟩ := List.mem_map.1 hmem
      obtain ⟨hf, hnot⟩ := List.mem_filter.1 hf
      have hin := fun e (he : e ∈ es) =>
        (List.mem_filter.1 (hes.symm ▸ he : e ∈ d.entries.entries.filter _)).1
      obtain rfl := List.inj_on_of_nodup_map d.entries.nodup
        (hin f ((aged_perm es).subset hf)) (hin e he) hkey
      simp [hk] at hnot
    rw [droppedKeys, droppedKeys, haged, hsurplus, ← hsplit,
      List.take_append, List.map_append, List.mem_append, hsplit]
    refine or_iff_right fun hmem => hexpired ?_
    obtain ⟨f, hf, hkey⟩ := List.mem_map.1 hmem
    exact List.mem_map.2 ⟨f, List.mem_of_mem_take hf, hkey⟩
  rw [hrest, List.filter_filter, List.filter_filter]
  refine List.filter_congr fun e he => ?_
  rcases hk : d.keeps later e with _ | _
  · simp
  · have hiff := hdropped e he hk
    rw [← List.contains_iff_mem, ← List.contains_iff_mem,
      ← Bool.eq_iff_iff] at hiff
    rw [hiff, Bool.and_comm]

/-- What purging drops depends on keys and times alone. -/
theorem purge_map {d' : DurableTier}
    {g : String × Kept → String × Kept} (hkey : ∀ e, (g e).1 = e.1)
    (htime : ∀ e, (g e).2.timestamp = e.2.timestamp)
    (hdays : d'.retentionDays = d.retentionDays)
    (hmax : d'.maxEntries = d.maxEntries)
    (h : d'.entries.entries = d.entries.entries.map g) :
    (d'.purge now).entries.entries = (d.purge now).entries.entries.map g := by
  have hcutoff : d'.cutoff now = d.cutoff now := by rw [cutoff, cutoff, hdays]
  have hretained : (d'.retained now).entries =
      (d.retained now).entries.map g := by
    rw [retained_entries, retained_entries, h, List.filter_map]
    refine congrArg (List.map g) (List.filter_congr fun e _ => ?_)
    simp only [Function.comp_apply, keeps, htime, hcutoff]
  have hsize : (d'.retained now).size = (d.retained now).size := by
    rw [Table.size, hretained, List.length_map, Table.size]
  have hdropped : ∀ n, oldestKeys (d'.retained now) n =
      oldestKeys (d.retained now) n := by
    intro n
    rw [oldestKeys, oldestKeys, hretained, ← List.map_mergeSort
      (r := fun a b => !(b.2.timestamp.lt a.2.timestamp))
      fun a _ b _ => by simp only [htime], ← List.map_take, List.map_map]
    exact List.map_congr_left fun e _ => hkey e
  show (d'.retained now).entries.filter (fun e =>
      !(oldestKeys (d'.retained now) _).contains e.1) =
    ((d.retained now).entries.filter fun e =>
      !(oldestKeys (d.retained now) _).contains e.1).map g
  rw [hretained, List.filter_map, hsize, hmax, hdropped]
  refine congrArg (List.map g) (List.filter_congr fun e _ => ?_)
  simp only [Function.comp_apply, hkey]

end DurableTier

end CallTrace.Cache
