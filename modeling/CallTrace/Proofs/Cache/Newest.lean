/-
Which entries the durable tier keeps.

Purging keeps the newest of the entries that are not past retention, as
many as the tier may hold. Two entries of one time are told apart by their
places: the one that stands later counts as newer. Nothing else about them
plays a part.

As long as no time lies in the future, an entry that is set is one of the
newest. If its key is new it stands last, and no time is later than its
own. If its key was there, there are no more entries than before, and
nothing has to go. Either way at most one other entry goes that is not past
retention.
-/
import CallTrace.Proofs.Cache.Restart

namespace CallTrace.Cache

open Number (Double)

-- ============================================================== ordered pairs

section

variable {α : Type} {l : List α} {a b : α}

/-- Of two members one stands before the other. -/
theorem pair_sublist_or (ha : a ∈ l) (hb : b ∈ l) (hne : a ≠ b) :
    [a, b].Sublist l ∨ [b, a].Sublist l := by
  induction l with
  | nil => exact absurd ha List.not_mem_nil
  | cons c l ih =>
    rcases List.mem_cons.1 ha with rfl | ha'
    · exact .inl ((List.singleton_sublist.2
        ((List.mem_cons.1 hb).resolve_left hne.symm)).cons_cons _)
    rcases List.mem_cons.1 hb with rfl | hb'
    · exact .inr ((List.singleton_sublist.2 ha').cons_cons _)
    · exact (ih ha' hb').imp (·.cons _) (·.cons _)

/-- What stands in the first part of a list does not stand behind what is in
the second, if nothing is in both. -/
theorem not_pair_sublist_append {xs ys : List α} (ha : a ∈ xs) (hb : b ∈ ys)
    (hnodup : (xs ++ ys).Nodup) : ¬[b, a].Sublist (xs ++ ys) := by
  intro hpair
  have hdisjoint := (List.nodup_append.1 hnodup).2.2
  have hall : (xs ++ ys).Pairwise fun x y => ¬(x = b ∧ y = a) := by
    refine List.pairwise_append.2 ⟨List.pairwise_of_forall_mem_list ?_,
      List.pairwise_of_forall_mem_list ?_, ?_⟩
    · rintro x hx y - ⟨rfl, -⟩
      exact hdisjoint x hx x hb rfl
    · rintro x - y hy ⟨-, rfl⟩
      exact hdisjoint y ha y hy rfl
    · rintro x hx y - ⟨rfl, -⟩
      exact hdisjoint x hx x hb rfl
  exact List.pairwise_iff_forall_sublist.1 hall hpair ⟨rfl, rfl⟩

end

-- ================================================================ the newest

/-- The first entry goes before the second: it is older, or as old and
stands before it. -/
def GoesBefore (es : List (String × Kept)) (d e : String × Kept) : Prop :=
  d.2.timestamp.value < e.2.timestamp.value ∨
    d.2.timestamp.value = e.2.timestamp.value ∧ [d, e].Sublist es

/-- These are the `n` newest entries, or all if there are no more, in the
order in which they stand. -/
structure Newest (n : Nat) (es kept : List (String × Kept)) : Prop where
  sublist : kept.Sublist es
  length : kept.length = min n es.length
  order : ∀ d ∈ es, d ∉ kept → ∀ e ∈ kept, GoesBefore es d e

namespace DurableTier

variable {d : DurableTier} {now : Double}

section

variable {es : List (String × Kept)} {e : String × Kept}
  (hkeys : (es.map Prod.fst).Nodup)

include hkeys

theorem nodup_aged : (aged es).Nodup :=
  (aged_perm es).nodup_iff.2 (List.Nodup.of_map _ hkeys)

/-- In the order of age the first part goes. -/
theorem contains_droppedKeys (he : e ∈ es) :
    (d.droppedKeys es).contains e.1 = true ↔
      e ∈ (aged es).take (d.surplus es) := by
  rw [List.contains_iff_mem, droppedKeys]
  refine ⟨fun hmem => ?_, List.mem_map_of_mem⟩
  obtain ⟨f, hf, hkey⟩ := List.mem_map.1 hmem
  have hmem := (aged_perm es).subset (List.mem_of_mem_take hf)
  exact List.inj_on_of_nodup_map hkeys hmem he hkey ▸ hf

/-- What does not go is the rest. -/
theorem perm_kept : (es.filter fun e =>
    !(d.droppedKeys es).contains e.1).Perm
      ((aged es).drop (d.surplus es)) := by
  have hnodup := nodup_aged hkeys
  refine (List.perm_ext_iff_of_nodup ((List.Nodup.of_map _ hkeys).filter _)
    (hnodup.sublist (List.drop_sublist ..))).2 fun e => ?_
  have hsplit := List.take_append_drop (d.surplus es) (aged es)
  rw [← hsplit] at hnodup
  have hdisjoint := (List.nodup_append.1 hnodup).2.2
  rw [List.mem_filter, Bool.not_eq_true', ← Bool.not_eq_true]
  constructor
  · rintro ⟨he, hstays⟩
    have hin := (aged_perm es).mem_iff.2 he
    rw [← hsplit] at hin
    exact (List.mem_append.1 hin).resolve_left fun h =>
      hstays ((contains_droppedKeys hkeys he).2 h)
  · intro h
    have he := (aged_perm es).subset (List.mem_of_mem_drop h)
    exact ⟨he, fun hgoes => hdisjoint e
      ((contains_droppedKeys hkeys he).1 hgoes) e h rfl⟩

/-- What goes goes before what stays. Sorting by age leaves two entries of
one time as they stand. -/
theorem goesBefore_of_aged {n : Nat} {g : String × Kept}
    (hg : g ∈ (aged es).take n) (he : e ∈ (aged es).drop n) :
    GoesBefore es g e := by
  have hnodup := nodup_aged hkeys
  have hsorted := List.pairwise_mergeSort olderFirst_trans olderFirst_total es
  rw [← aged, ← List.take_append_drop n (aged es)] at hsorted
  rw [← List.take_append_drop n (aged es)] at hnodup
  have hle : g.2.timestamp.value ≤ e.2.timestamp.value := by
    simpa [olderFirst] using
      (List.pairwise_append.1 hsorted).2.2 g hg e he
  refine hle.lt_or_eq.imp_right fun heq => ⟨heq, ?_⟩
  have hne : g ≠ e := (List.nodup_append.1 hnodup).2.2 g hg e he
  have hmem := (aged_perm es).subset
  refine (pair_sublist_or (hmem (List.mem_of_mem_take hg))
    (hmem (List.mem_of_mem_drop he)) hne).resolve_right fun hpair => ?_
  have hstable := List.pair_sublist_mergeSort olderFirst_trans
    olderFirst_total (by simp [olderFirst, heq]) hpair
  rw [← aged, ← List.take_append_drop n (aged es)] at hstable
  exact not_pair_sublist_append hg he hnodup hstable

end

/-- Purging keeps the newest entries that are not past retention. -/
theorem purge_newest (h : Timed d.entries.entries) (now : Double) :
    Newest d.maxEntries.toNat (d.retained now).entries
      (d.purge now).entries.entries := by
  rw [purge_entries h]
  have hkeys := (d.retained now).nodup
  generalize (d.retained now).entries = es at *
  have hkept := perm_kept (d := d) hkeys
  refine ⟨List.filter_sublist, ?_, fun g hg hgone e he => ?_⟩
  · rw [hkept.length_eq, List.length_drop, (aged_perm es).length_eq, surplus]
    omega
  · refine goesBefore_of_aged hkeys ((contains_droppedKeys hkeys hg).1 ?_)
      (hkept.mem_iff.1 he)
    by_contra hnot
    exact hgone (List.mem_filter.2 ⟨hg, by simpa using hnot⟩)

/-- The times of the entries are finite, and none is after the given one. -/
def Dated (now : Double) (es : List (String × Kept)) : Prop :=
  ∀ e ∈ es, e.2.timestamp.isFinite = true ∧ e.2.timestamp.le now = true

theorem Dated.timed {es : List (String × Kept)} (h : Dated now es) :
    Timed es := fun e he => (h e he).1

theorem Dated.sublist {es fs : List (String × Kept)} (h : Dated now fs)
    (hsub : es.Sublist fs) : Dated now es := fun e he => h e (hsub.subset he)

theorem Dated.put {T : KeptTable} (h : Dated now T.entries)
    (hnow : Instant now) {k : String} {e : Kept} (he : e.timestamp = now) :
    Dated now (T.put k e).entries := by
  intro g hg
  rcases Table.mem_put hg with rfl | hg
  · rw [he]
    exact ⟨hnow.finite, hnow.le_refl⟩
  · exact h g hg

/-- An entry set now is within retention, whatever number of days, not
negative, that is. -/
theorem keeps_now (hdays : 0 ≤ d.retentionDays) (hnow : Instant now)
    {e : String × Kept} (he : e.2.timestamp = now) : d.keeps now e = true := by
  rw [keeps, he, cutoff, Double.lt_sub_ofInt hnow.canonical hnow.finite
    (Int.mul_nonneg hdays (by decide))]
  rfl

/-- While no time lies in the future and the limit is kept, setting an entry
keeps it, and drops at most one other that is not past retention. -/
theorem holding_spec (hdays : 0 ≤ d.retentionDays) (hmax : 1 ≤ d.maxEntries)
    (hnow : Instant now) (hdated : Dated now d.entries.entries)
    (hsize : d.entries.size ≤ d.maxEntries) (key : MethodKey) (a : Analysis)
    (f i path : String) :
    let e : Kept := ⟨a, f, i, now, path, formatVersion⟩
    let there := (d.entries.put key.text e).entries.filter (d.keeps now)
    let kept := (d.holding now key a f i path).entries.entries
    Newest d.maxEntries.toNat there kept ∧ there.length ≤ kept.length + 1 ∧
      (key.text, e) ∈ kept := by
  intro e there kept
  have hput : Dated now (d.entries.put key.text e).entries :=
    hdated.put hnow rfl
  have hnewest : Newest d.maxEntries.toNat there kept :=
    purge_newest (d := { d with entries := d.entries.put key.text e })
      hput.timed now
  have hmem : (key.text, e) ∈ there :=
    List.mem_filter.2 ⟨Table.mem_put_self _ _ _, keeps_now hdays hnow rfl⟩
  have hthere : there.length ≤ (d.entries.put key.text e).size :=
    List.length_filter_le _ _
  have hgrown : (d.entries.put key.text e).size ≤ d.entries.size + 1 := by
    rcases hk : d.entries.contains key.text with _ | _
    · exact Nat.le_of_eq (d.entries.size_put_of_new e hk)
    · rw [d.entries.size_put_of_contains e hk]
      exact Nat.le_succ _
  have hlength := hnewest.length
  refine ⟨hnewest, by omega, ?_⟩
  by_contra hgone
  have hfew : kept.length < there.length := by
    refine lt_of_le_of_ne hnewest.sublist.length_le fun heq => hgone ?_
    rw [hnewest.sublist.eq_of_length heq]
    exact hmem
  -- Something went, so the key was new and its entry stands last.
  have hnew : key.text ∉ d.entries.keys := by
    intro hk
    have hsame := d.entries.size_put_of_contains e (List.contains_iff_mem.2 hk)
    omega
  obtain ⟨g, hg⟩ : ∃ g, g ∈ kept :=
    List.exists_mem_of_length_pos (by omega)
  have hgthere := hnewest.sublist.subset hg
  have hgput := (List.mem_filter.1 hgthere).1
  have hle : g.2.timestamp.value ≤ now.value := by
    have h := hput g hgput
    exact (Double.le_iff h.1 hnow.finite).1 h.2
  rcases hnewest.order _ hmem hgone g hg with hlt | ⟨-, hpair⟩
  · exact absurd hlt (not_lt.2 hle)
  · have hentries := d.entries.entries_put_of_new e hnew
    have hnodup := List.Nodup.of_map _ (d.entries.put key.text e).nodup
    have hpair := hpair.trans List.filter_sublist
    rw [hentries] at hgput hnodup hpair
    have hold := (List.mem_append.1 hgput).resolve_right fun hlast =>
      hgone (List.mem_singleton.1 hlast ▸ hg)
    exact not_pair_sublist_append hold (List.mem_singleton_self _) hnodup hpair

/-- An entry made from the source and by the oracle that are asked for is
served. -/
theorem served_of_mem {key : MethodKey} {e : Kept}
    (h : (key.text, e) ∈ d.entries.entries)
    (hversion : e.version = formatVersion) :
    d.served key e.fingerprint e.identity = some e.analysis := by
  have hfits : e.fits e.fingerprint e.identity = true := by
    simp [Kept.fits, hversion]
  rw [served, (Table.get?_eq_some_iff _).2 h, Option.filter_some,
    if_pos hfits, Option.map_some]

end DurableTier

-- ============================================================== reachable

namespace Shelf

open DurableTier (Dated)

variable {s s' : Shelf} {t now : Double} {retention limit : Int}

/-- If the file is still to be read, what it has now is of finite times,
none of which lies in the future. -/
def FileDated (s : Shelf) (now : Double) : Prop :=
  s.tier.loaded = false → ∀ e, FileHolds s.files s.tier.path now e →
    e.2.timestamp.isFinite = true ∧ e.2.timestamp.le now = true

/-- A tier that was made with these limits, and the files, at some time:
whatever was done with the tier, failures included, and whatever became of
the files besides. -/
inductive Reached (retention limit : Int) : Double → Shelf → Prop where
  | new (path : String) (files : Files.Tree) {t : Double} (ht : Instant t) :
    Reached retention limit t
      ⟨{ path := path, retentionDays := retention, maxEntries := limit },
        files⟩
  | used {t now : Double} {s : Shelf} (h : Reached retention limit t s)
    (hnow : Instant now) (hle : t.le now = true) (use : Use)
    (hfile : s.FileDated now) :
    Reached retention limit now (use.run now s).2
  | refiled {t : Double} {s : Shelf} (h : Reached retention limit t s)
    (files : Files.Tree) :
    Reached retention limit t { s with files := files }

/-- The tier has these limits and keeps to them, and no time in it lies in
the future. -/
structure Orderly (retention limit : Int) (t : Double) (s : Shelf) :
    Prop where
  retentionDays : s.tier.retentionDays = retention
  maxEntries : s.tier.maxEntries = limit
  size : s.tier.entries.size ≤ limit
  dated : Dated t s.tier.entries.entries

namespace Orderly

/-- What is in order at one time is in order at any later one. -/
theorem later (h : s.Orderly retention limit t) (ht : Instant t)
    (hnow : Instant now) (hle : t.le now = true) :
    s.Orderly retention limit now :=
  { h with
    dated := fun e he => by
      obtain ⟨hfinite, hbefore⟩ := h.dated e he
      refine ⟨hfinite, (Double.le_iff hfinite hnow.finite).2 ?_⟩
      exact ((Double.le_iff hfinite ht.finite).1 hbefore).trans
        ((Double.le_iff ht.finite hnow.finite).1 hle) }

/-- So is a tier of the same limits with some of the entries. -/
theorem sublist (h : s.Orderly retention limit t)
    (hdays : s'.tier.retentionDays = s.tier.retentionDays)
    (hmax : s'.tier.maxEntries = s.tier.maxEntries)
    (hsub : s'.tier.entries.entries.Sublist s.tier.entries.entries) :
    s'.Orderly retention limit t where
  retentionDays := hdays.trans h.retentionDays
  maxEntries := hmax.trans h.maxEntries
  size := le_trans (Int.ofNat_le.2 hsub.length_le) h.size
  dated := h.dated.sublist hsub

/-- So is a tier of the same limits after purging. -/
theorem purge {d : DurableTier} (hlimit : 0 ≤ limit)
    (hdays : d.retentionDays = retention) (hmax : d.maxEntries = limit)
    (hdated : Dated now d.entries.entries)
    (htier : s.tier = d.purge now) : s.Orderly retention limit now where
  retentionDays := htier ▸ hdays
  maxEntries := htier ▸ hmax
  size := by
    have hsize : (d.purge now).entries.size ≤ d.maxEntries.toNat :=
      d.size_purge_le now
    rw [htier]
    omega
  dated := htier ▸ hdated.sublist (d.purge_sublist now)

/-- So it is after loading, if the file has no times in the future. -/
theorem load (h : s.Orderly retention limit now) (hlimit : 0 ≤ limit)
    (hfile : s.FileDated now) (hload : Shelf.load now s = (.ok (), s')) :
    s'.Orderly retention limit now := by
  rcases hl : s.tier.loaded with _ | _
  · rw [load_of_read hl] at hload
    split at hload <;> cases hload
    rename_i E hE
    exact purge (d := { s.tier with entries := E, loaded := true }) hlimit
      h.retentionDays h.maxEntries
      (fun e he => hfile hl e ((mem_readEntries hE).1 he)) rfl
  · rw [load_of_loaded hl] at hload
    cases hload
    exact h

/-- Every use leaves a tier that was loaded in order. -/
theorem used_of_load (h : s.Orderly retention limit now) (hlimit : 0 ≤ limit)
    (hnow : Instant now) (use : Use) :
    (s.changed now (use.change? now s.tier)).Orderly retention limit now := by
  have hkeep : ∀ {d : DurableTier} {p : String → Kept → Bool},
      d = { s.tier with entries := s.tier.entries.keep p } →
      (s.rewritten now d).Orderly retention limit now := by
    rintro d p rfl
    exact h.sublist rfl rfl List.filter_sublist
  rcases hc : use.change? now s.tier with _ | d
  · exact h
  cases use with
  | lookup | invalidate =>
    simp only [Use.change?] at hc
    split at hc <;> cases hc
    exact hkeep rfl
  | store key a f i path =>
    cases hc
    exact purge (d := { s.tier with
      entries := s.tier.entries.put key.text ⟨a, f, i, now, path,
        formatVersion⟩ }) hlimit h.retentionDays h.maxEntries
      (h.dated.put hnow rfl) rfl
  | clear =>
    cases hc
    exact h.sublist rfl rfl (List.nil_sublist _)

end Orderly

/-- A use whose loading fails leaves everything as it is, unless it drops
everything. -/
theorem run_of_load_error {e : Failure} (h : load now s = (.error e, s'))
    (use : Use) :
    use.run now s = (.error e, s) ∨
      use.run now s =
        (.ok (), s.changed now (Use.clear.change? now s.tier)) := by
  have hs' : s' = s := by
    rcases hl : s.tier.loaded with _ | _
    · rw [load_of_read hl] at h
      split at h <;> cases h
      rfl
    · rw [load_of_loaded hl] at h
      cases h
  subst hs'
  have hstop : ∀ {α : Type} (rest : Unit → Action Shelf α),
      (load now >>= rest) s' = (.error e, s') := fun rest =>
    Action.bind_error h
  cases use with
  | lookup key f i => exact .inl (Action.bind_error (hstop _))
  | store key a f i path => exact .inl (hstop _)
  | invalidate typeName methodName =>
    exact .inl (Action.bind_error (hstop _))
  | clear => exact .inr rfl

/-- Every tier that can be reached is orderly. -/
theorem Reached.orderly (h : Reached retention limit t s)
    (hlimit : 0 ≤ limit) : s.Orderly retention limit t ∧ Instant t := by
  induction h with
  | new path files ht =>
    exact ⟨⟨rfl, rfl, hlimit, fun e he => absurd he List.not_mem_nil⟩, ht⟩
  | refiled h files ih => exact ⟨{ ih.1 with }, ih.2⟩
  | @used t now s h hnow hle use hfile ih =>
    have hs := ih.1.later ih.2 hnow hle
    refine ⟨?_, hnow⟩
    rcases hload : Shelf.load now s with ⟨e | u, s'⟩
    · rcases run_of_load_error hload use with hrun | hrun <;> rw [hrun]
      · exact hs
      · exact hs.used_of_load hlimit hnow .clear
    · rw [run_of_load hload]
      exact (hs.load hlimit hfile hload).used_of_load hlimit hnow use

-- ============================================================== summary

/-- Whatever was done with a tier of some entries and no negative
retention, and whatever files it was read from, as long as no time lies in
the future: it never holds more than it may. Loading keeps the newest
entries that are not past retention. So does setting, of what was loaded
and is set; it keeps what is set, which the next lookup finds, and drops at
most one other entry that is not past retention. -/
theorem durable_tier_newest (hretention : 0 ≤ retention)
    (hlimit : 1 ≤ limit) (h : Reached retention limit t s) :
    s.tier.entries.size ≤ limit ∧
    ∀ now, Instant now → t.le now = true → s.FileDated now →
      (s.tier.loaded = false → ∀ E,
        readEntries s.files s.tier.path now = .ok E →
        ∃ s', load now s = (.ok (), s') ∧
          Newest limit.toNat (E.entries.filter (s.tier.keeps now))
            s'.tier.entries.entries) ∧
      ∀ loaded, load now s = (.ok (), loaded) → ∀ key a f i path,
        let e : Kept := ⟨a, f, i, now, path, formatVersion⟩
        let there := (loaded.tier.entries.put key.text e).entries.filter
          (s.tier.keeps now)
        ∃ s', store now key a f i path s = (.ok (), s') ∧
          Newest limit.toNat there s'.tier.entries.entries ∧
          there.length ≤ s'.tier.entries.size + 1 ∧
          (key.text, e) ∈ s'.tier.entries.entries ∧
          ∀ later, (lookup later key f i s').1 = .ok (some a) := by
  obtain ⟨horderly, ht⟩ := h.orderly (by omega)
  refine ⟨horderly.size, fun now hnow hle hfile => ⟨fun hl E hE => ?_,
    fun loaded hload key a f i path => ?_⟩⟩
  · refine ⟨s.filledWith now E, by rw [load_of_read hl, hE], ?_⟩
    have hnewest := DurableTier.purge_newest (d := s.tier.filled E)
      (fun e he => (hfile hl e ((mem_readEntries hE).1 he)).1) now
    rw [← horderly.maxEntries]
    exact hnewest
  · obtain ⟨-, -, hdays, hmax⟩ := frame_of_load hload
    have hloaded := (horderly.later ht hnow hle).load (by omega) hfile hload
    have hspec := DurableTier.holding_spec (hloaded.retentionDays ▸ hretention)
      (hloaded.maxEntries ▸ hlimit) hnow hloaded.dated
      (hloaded.maxEntries ▸ hloaded.size) key a f i path
    have hkeeps : s.tier.keeps now = loaded.tier.keeps now := by
      funext g
      rw [DurableTier.keeps, DurableTier.keeps, DurableTier.cutoff,
        DurableTier.cutoff, hdays]
    rw [hloaded.maxEntries] at hspec
    simp only [hkeeps]
    refine ⟨_, store_of_load hload key a f i path, hspec.1, hspec.2.1,
      hspec.2.2, fun later => ?_⟩
    refine Eq.trans (congrArg Prod.fst (lookup_of_loaded
      (s := loaded.rewritten now (loaded.tier.holding now key a f i path))
      (loaded_of_load hload :) key f i)) ?_
    exact congrArg Except.ok (DurableTier.served_of_mem hspec.2.2 rfl)

/-- A tier for one entry over a file that breaks off: an analysis is set,
and a second later another one, which is kept and found. -/
theorem durable_tier_newest_replaced :
    let files := (shelfOver [0x7b]).files
    let first : Shelf :=
      ⟨{ path := "/c", retentionDays := 30, maxEntries := 1 }, files⟩
    let a : Analysis := ⟨"A", "m", "java", .complete, [], {}, "f", .zero,
      none, none⟩
    let s := ((Use.store ⟨"A", "m"⟩ a "f" "i" "").run .zero first).2
    Reached 30 1 .zero s ∧ s.FileDated (.ofInt 1) ∧
    ∃ s', store (.ofInt 1) ⟨"B", "n"⟩ a "f" "i" "" s = (.ok (), s') ∧
      s'.tier.entries.size ≤ (1 : Int) ∧
      (lookup (.ofInt 2) ⟨"B", "n"⟩ "f" "i" s').1 = .ok (some a) := by
  intro files first a s
  have hread : readEntries files first.tier.path .zero = .ok {} :=
    readEntries_torn .zero
  have hfirst : first.FileDated .zero := fun _ e he =>
    absurd ((mem_readEntries hread).2 he) List.not_mem_nil
  have hs : Reached 30 1 .zero s :=
    (Reached.new "/c" files (t := .zero) (by decide)).used (by decide)
      (by decide) _ hfirst
  have hload : load .zero first = (.ok (), first.filledWith .zero {}) := by
    rw [load_of_read rfl, hread]
  have hloaded : s.tier.loaded = true := by
    show ((store .zero _ a "f" "i" "" first).2).tier.loaded = true
    rw [store_of_load hload]
    rfl
  have hfile : s.FileDated (.ofInt 1) := fun h => by
    rw [hloaded] at h
    cases h
  have hspec := (durable_tier_newest (by decide) (by decide) hs).2 (.ofInt 1)
    (by decide) (by decide) hfile
  obtain ⟨s', hstore, hnewest, -, -, hfound⟩ :=
    hspec.2 s (load_of_loaded hloaded) ⟨"B", "n"⟩ a "f" "i" ""
  refine ⟨hs, hfile, s', hstore, ?_, hfound _⟩
  have hlength := hnewest.length
  rw [Table.size]
  omega

end Shelf

end CallTrace.Cache
