/-
What another instance of the durable tier finds in the file.

What is in memory and what is in the file go apart on purpose. Purging
after the file was read is not written, nor is a lookup that is served or
an invalidation that drops nothing; and what cannot be read stays in the
file until the next change. Still the file tells what is in memory: read at
whatever later time, and purged then, it has the entries in memory that are
not past retention by then, in their order.

So it is after the file was read, since to purge at once and to drop later
what is past retention by then is to purge later; and so it is after the
entries were written, since they are read back as they were and there are
not too many of them. One thing is not in the file: the time of creation of
an analysis for which the file that was found gives none. Each instance
takes it from its clock.
-/
import CallTrace.Proofs.Cache.Exact
import CallTrace.Proofs.Cache.Retention
import CallTrace.Proofs.Cache.Uses
import CallTrace.Proofs.Files.Saving

namespace CallTrace.Cache

open Number (Double)

variable {t now later : Double}

-- =============================================================== times

/-- A finite time. -/
structure Instant (t : Double) : Prop where
  canonical : t.Canonical
  finite : t.isFinite = true

/-- Finite times, none of which is before an earlier one. -/
def Ascending (ts : List Double) : Prop :=
  (∀ t ∈ ts, Instant t) ∧ ts.Pairwise fun t t' => t.le t' = true

instance (t : Double) : Decidable (Instant t) :=
  decidable_of_iff (t.Canonical ∧ t.isFinite = true)
    ⟨fun h => ⟨h.1, h.2⟩, fun h => ⟨h.canonical, h.finite⟩⟩

instance (ts : List Double) : Decidable (Ascending ts) :=
  inferInstanceAs (Decidable ((∀ t ∈ ts, Instant t) ∧
    ts.Pairwise fun t t' => t.le t' = true))

theorem Instant.le_refl (h : Instant t) : t.le t = true :=
  (Double.le_iff h.finite h.finite).2 le_rfl

theorem Instant.le_trans (ht : Instant t) (hnow : Instant now)
    (hlater : Instant later) (h : t.le now = true)
    (h' : now.le later = true) : t.le later = true := by
  rw [Double.le_iff ht.finite hnow.finite] at h
  rw [Double.le_iff hnow.finite hlater.finite] at h'
  exact (Double.le_iff ht.finite hlater.finite).2 (h.trans h')

theorem Ascending.cons {ts : List Double} (h : Ascending (t :: now :: ts)) :
    Instant t ∧ Instant now ∧ t.le now = true ∧ Ascending (now :: ts) := by
  obtain ⟨hall, hpairs⟩ := h
  obtain ⟨hfirst, hrest⟩ := List.pairwise_cons.1 hpairs
  exact ⟨hall t (by simp), hall now (by simp), hfirst now (by simp),
    fun t ht => hall t (List.mem_cons_of_mem _ ht), hrest⟩

theorem Ascending.again {ts : List Double} (h : Ascending (t :: ts)) :
    Ascending (t :: t :: ts) := by
  obtain ⟨hall, hpairs⟩ := h
  have ht := hall t (List.mem_cons_self ..)
  refine ⟨List.forall_mem_cons.2 ⟨ht, hall⟩,
    List.pairwise_cons.2 ⟨List.forall_mem_cons.2 ⟨ht.le_refl, ?_⟩, hpairs⟩⟩
  exact (List.pairwise_cons.1 hpairs).1

-- ============================================================== tables

theorem Writable.sublist {T T' : KeptTable} (h : Writable T)
    (hsub : T'.entries.Sublist T.entries) : Writable T' :=
  fun e he => h e (hsub.subset he)

theorem redate_redate (files : Files.Tree) (path : String)
    (now later : Double) (e : String × Kept) :
    redate files path later (redate files path now e) =
      redate files path later e := by
  simp only [redate]
  split <;> rfl

namespace DurableTier

variable {d d' : DurableTier}

/-- Purging changes nothing but the entries. -/
theorem purge_filled (d : DurableTier) (T : KeptTable) (now : Double) :
    (d.filled T).purge now = d.filled ((d.filled T).purge now).entries := rfl

theorem purge_sublist (d : DurableTier) (now : Double) :
    (d.purge now).entries.entries.Sublist d.entries.entries :=
  List.filter_sublist.trans List.filter_sublist

/-- What is not past retention later, of what is not now, whatever times of
creation the entries have. -/
theorem retained_later {T T' : KeptTable} {files : Files.Tree}
    {path : String} (htimed : Timed T.entries) (hnow : Instant now)
    (hlater : Instant later) (hle : now.le later = true)
    (h : T'.entries =
      ((d.filled T).retained now).entries.map (redate files path now)) :
    ((d.filled T').retained later).entries.map (redate files path later) =
      ((d.filled T).retained later).entries.map
        (redate files path later) := by
  have hkeeps : ∀ e, (d.filled T').keeps later (redate files path now e) =
      (d.filled T).keeps later e := by
    intro e
    simp only [keeps, redate_timestamp]
    rfl
  have hboth : ∀ e ∈ T.entries, ((d.filled T).keeps now e &&
      (d.filled T).keeps later e) = (d.filled T).keeps later e := by
    intro e he
    rcases hk : (d.filled T).keeps later e with _ | _
    · exact Bool.and_false _
    · rw [keeps_of_later (htimed e he) hnow.finite hlater.finite hle hk]
      rfl
  have hT' : (d.filled T').entries.entries = T'.entries := rfl
  have hT : (d.filled T).entries.entries = T.entries := rfl
  rw [retained_entries, retained_entries, hT', h, retained_entries, hT,
    List.filter_map, List.map_map, List.filter_filter]
  simp only [Function.comp_def, hkeeps, redate_redate]
  rw [List.filter_congr fun e he => Bool.and_comm _ _ ▸ hboth e he]

end DurableTier

-- ============================================================ the tier

namespace DurableTier

/-- A loaded tier that can be written and read again, and keeps to its
limit. -/
structure Sound (d : DurableTier) : Prop where
  loaded : d.loaded = true
  timed : Timed d.entries.entries
  writable : Writable d.entries
  size : d.entries.size ≤ d.maxEntries.toNat

variable {d d' : DurableTier}

theorem Sound.keep (h : d.Sound) (p : String → Kept → Bool) :
    ({ d with entries := d.entries.keep p } : DurableTier).Sound where
  loaded := h.loaded
  timed := h.timed.sublist List.filter_sublist
  writable := h.writable.sublist List.filter_sublist
  size := (d.entries.size_keep_le p).trans h.size

/-- So is a tier after purging. -/
theorem sound_purge (hloaded : d.loaded = true)
    (htimed : Timed d.entries.entries) (hwritable : Writable d.entries)
    (now : Double) : (d.purge now).Sound where
  loaded := hloaded
  timed := htimed.sublist (d.purge_sublist now)
  writable := hwritable.sublist (d.purge_sublist now)
  size := by
    have hlimit : (d.purge now).maxEntries = d.maxEntries := rfl
    rw [hlimit]
    exact d.size_purge_le now

/-- A tier that is sound is so after an analysis that can be written is
added. -/
theorem Sound.holding (h : d.Sound) (hnow : Instant now) (key : MethodKey)
    {a : Analysis} (ha : a.Writable) (f i path : String) :
    (d.holding now key a f i path).Sound := by
  let e : Kept := ⟨a, f, i, now, path, formatVersion⟩
  have htimed : Timed (d.entries.put key.text e).entries := by
    intro g hg
    rcases Table.mem_put hg with rfl | hg
    · exact hnow.finite
    · exact h.timed g hg
  have hwritable : Writable (d.entries.put key.text e) := by
    intro g hg
    rcases Table.mem_put hg with rfl | hg
    · exact ⟨ha, hnow.canonical⟩
    · exact h.writable g hg
  exact sound_purge (d := { d with entries := d.entries.put key.text e })
    h.loaded htimed hwritable now

end DurableTier

namespace Use

/-- What is set can be written so that it is read again. -/
def Writable : Use → Prop
  | store _ a _ _ _ => a.Writable
  | _ => True

variable {use : Use} {d d' : DurableTier}

/-- Every use leaves the tier sound. -/
theorem sound_of_change? (hd : d.Sound) (hnow : Instant now)
    (huse : use.Writable) (h : use.change? now d = some d') : d'.Sound := by
  cases use with
  | lookup | invalidate =>
    simp only [change?] at h
    split at h <;> cases h
    exact hd.keep _
  | store key a f i path =>
    cases h
    exact hd.holding hnow key huse f i path
  | clear =>
    cases h
    exact ⟨rfl, fun e he => absurd he List.not_mem_nil,
      fun e he => absurd he List.not_mem_nil, Nat.zero_le _⟩

end Use

namespace Shelf

variable {s s' : Shelf} {T : KeptTable}

/-- From a time on the file, purged whenever it is read, has those of the
entries that are not past retention then, in their order. In memory are
just these entries, once the file was read. -/
structure Lasting (s : Shelf) (t : Double) (T : KeptTable) : Prop where
  sound : (s.tier.filled T).Sound
  memory : s.tier.loaded = true → s.tier.entries = T
  file : ∀ now, Instant now → t.le now = true → ∃ E,
    readEntries s.files s.tier.path now = .ok E ∧
      ((s.tier.filled E).purge now).entries.entries =
        ((s.tier.filled T).retained now).entries.map
          (redate s.files s.tier.path now)

namespace Lasting

/-- So it is whatever the file holds, if it is read without a failure. -/
theorem start (hnew : s.tier.loaded = false)
    (husable : Usable s.files s.tier.path)
    (htimed : ∀ time e, FileHolds s.files s.tier.path time e →
      e.2.timestamp.isFinite = true) (ht : Instant t) :
    ∃ T, s.Lasting t T := by
  obtain ⟨E, hE⟩ := (readEntries_ok_iff t).2 husable
  have hall : Timed (s.tier.filled E).entries.entries :=
    fun e he => htimed t e ((mem_readEntries hE).1 he)
  have hsound := DurableTier.sound_purge (d := s.tier.filled E) rfl hall
    (writable_readEntries hE ht.canonical) t
  rw [DurableTier.purge_filled] at hsound
  refine ⟨_, hsound, fun h => ?_, fun now hnow hle => ?_⟩
  · rw [hnew] at h
    cases h
  · obtain ⟨E', hE', hmap⟩ := readEntries_later hE now
    refine ⟨E', hE', ?_⟩
    have hpurge : ((s.tier.filled E').purge now).entries.entries =
        ((s.tier.filled E).purge now).entries.entries.map
          (redate s.files s.tier.path now) :=
      DurableTier.purge_map (redate_key _ _ _) (redate_timestamp _ _ _) rfl
        rfl hmap
    rw [hpurge, ← DurableTier.retained_purge hall ht.finite hnow.finite hle]
    rfl

theorem mono (h : s.Lasting t T) (ht : Instant t) (hnow : Instant now)
    (hle : t.le now = true) : s.Lasting now T :=
  { h with
    file := fun later hlater hle' =>
      h.file later hlater (ht.le_trans hnow hlater hle hle') }

/-- So it is once the file was read; then what is in memory is what the
file has. -/
theorem load (h : s.Lasting t T) (ht : Instant t) (hnow : Instant now)
    (hle : t.le now = true) :
    ∃ s', Shelf.load now s = (.ok (), s') ∧ s'.files = s.files ∧
      (∃ T', s'.tier = s.tier.filled T' ∧ s'.Lasting now T') ∧
      (s.tier.loaded = false → s'.tier.entries.entries =
        ((s.tier.filled T).retained now).entries.map
          (redate s.files s.tier.path now)) := by
  rcases hl : s.tier.loaded with _ | _
  · obtain ⟨E, hE, hpurge⟩ := h.file now hnow hle
    have hload : Shelf.load now s =
        (.ok (), ⟨(s.tier.filled E).purge now, s.files⟩) := by
      rw [load_of_read hl, hE]
      rfl
    have hsub := (s.tier.filled E).purge_sublist now
    rw [DurableTier.purge_filled] at hload
    generalize hT' : ((s.tier.filled E).purge now).entries = T' at *
    refine ⟨_, hload, rfl, ⟨T', rfl, ⟨rfl, ?_, ?_, ?_⟩, fun _ => rfl,
      fun later hlater hle' => ?_⟩, fun _ => hpurge⟩
    · intro e he
      have hmem : e ∈ ((s.tier.filled T).retained now).entries.map
        (redate s.files s.tier.path now) := hpurge ▸ he
      obtain ⟨f, hf, rfl⟩ := List.mem_map.1 hmem
      rw [redate_timestamp]
      exact h.sound.timed f (List.mem_filter.1 hf).1
    · exact (writable_readEntries hE hnow.canonical).sublist hsub
    · show T'.entries.length ≤ _
      rw [hpurge, List.length_map]
      exact (T.size_keep_le _).trans h.sound.size
    · obtain ⟨E', hE', hpurge'⟩ :=
        h.file later hlater (ht.le_trans hnow hlater hle hle')
      have hrest := DurableTier.retained_later (d := s.tier)
        h.sound.timed hnow hlater hle' hpurge
      exact ⟨E', hE', hpurge'.trans hrest.symm⟩
  · refine ⟨s, load_of_loaded hl, rfl, ⟨T, ?_, h.mono ht hnow hle⟩, ?_⟩
    · rw [← h.memory hl, DurableTier.filled_entries hl]
    · exact fun h => Bool.noConfusion h

/-- So it is when the entries were written. -/
theorem rewritten {d : DurableTier} (hd : d.Sound)
    (hsaved : (s.rewritten now d).files.read d.path =
      .ok (bytesOf now d.entries)) :
    (s.rewritten now d).Lasting now d.entries := by
  have hfilled : d.filled d.entries = d := DurableTier.filled_entries hd.loaded
  refine ⟨?_, fun _ => rfl, fun later _ _ => ⟨d.entries,
    readEntries_of_written hd.writable hsaved later, ?_⟩⟩
  · show (d.filled d.entries).Sound
    rwa [hfilled]
  · show ((d.filled d.entries).purge later).entries.entries =
      ((d.filled d.entries).retained later).entries.map _
    rw [hfilled, DurableTier.purge_of_size hd.timed hd.size]
    refine (List.map_id'' (fun e => ?_) _).symm
    exact redate_of_written hd.writable hsaved later e

end Lasting

/-- If the use changes the tier, the file is written without a fault: it is
then read as it was written. -/
def Saves (s : Shelf) (now : Double) (use : Use) : Prop :=
  ∀ s' d, load now s = (.ok (), s') → use.change? now s'.tier = some d →
    (s'.rewritten now d).files.read d.path = .ok (bytesOf now d.entries)

/-- Every use of the tier keeps the file in step with the memory. -/
theorem Lasting.run (h : s.Lasting t T) (ht : Instant t)
    (hnow : Instant now) (hle : t.le now = true) {use : Use}
    (huse : use.Writable) (hsaves : s.Saves now use) :
    ∃ s' T', use.run now s = (.ok (), s') ∧ s'.tier = s.tier.filled T' ∧
      s'.Lasting now T' := by
  obtain ⟨s₁, hload, hfiles, ⟨T₁, htier, hlasting⟩, -⟩ := h.load ht hnow hle
  rw [run_of_load hload]
  rcases hc : use.change? now s₁.tier with _ | d
  · exact ⟨s₁, T₁, rfl, htier, hlasting⟩
  · have hsound : s₁.tier.Sound := by
      have hsound := hlasting.sound
      rw [htier] at hsound ⊢
      exact hsound
    have hd := Use.sound_of_change? hsound hnow huse hc
    refine ⟨_, d.entries, rfl, ?_, .rewritten hd (hsaves s₁ d hload hc)⟩
    show d = _
    rw [Use.frame_of_change? hsound.loaded hc, htier]
    rfl

/-- Every change that is made on the way is written without a fault. -/
def Written : List (Double × Use) → Shelf → Prop
  | [], _ => True
  | (now, use) :: rest, s => s.Saves now use ∧ Written rest (use.run now s).2

/-- Where the file can be saved, saving it is no failure, and it can be
saved again. -/
theorem saves_of_savable {d : DurableTier}
    (h : s.files.Savable d.path (d.path ++ ".tmp")) (now : Double) :
    (s.rewritten now d).files.read d.path = .ok (bytesOf now d.entries) ∧
      (s.rewritten now d).files.Savable d.path (d.path ++ ".tmp") := by
  obtain ⟨t₁, t₂, hwrite, hmove, hread, hagain⟩ :=
    h.save (bytesOf now d.entries)
  have hfiles : (s.rewritten now d).files = t₂ := by
    simp only [Shelf.rewritten, writeEntries, h.makeFolders]
    rw [← bytesOf, hwrite]
    simp only [hmove]
  rw [hfiles]
  exact ⟨hread, hagain⟩

/-- Then every change on the way is written without a fault. -/
theorem written_of_savable (uses : List (Double × Use)) :
    ∀ {s : Shelf}, s.Loadable →
      s.files.Savable s.tier.path (s.tier.path ++ ".tmp") →
      Written uses s := by
  induction uses with
  | nil => exact fun _ _ => trivial
  | cons e uses ih =>
    intro s hloadable hsavable
    obtain ⟨now, use⟩ := e
    obtain ⟨s', hload⟩ : ∃ s', load now s = (.ok (), s') :=
      ⟨_, Prod.ext ((load_ok_iff now).2 hloadable) rfl⟩
    have hloaded := loaded_of_load hload
    obtain ⟨hfiles, hpath, -, -⟩ := frame_of_load hload
    rw [← hfiles, ← hpath] at hsavable
    refine ⟨fun s'' d hload' hc => ?_, ?_⟩
    · cases hload.symm.trans hload'
      rw [Use.frame_of_change? hloaded hc]
      exact (saves_of_savable (d := s'.tier.filled d.entries) hsavable now).1
    · rw [run_of_load hload]
      rcases hc : use.change? now s'.tier with _ | d
      · exact ih (.inl hloaded) hsavable
      · rw [Use.frame_of_change? hloaded hc]
        exact ih (.inl rfl)
          (saves_of_savable (d := s'.tier.filled d.entries) hsavable now).2

/-- So does a whole run. -/
theorem Lasting.perform (uses : List (Double × Use)) :
    ∀ {s : Shelf} {t : Double} {T : KeptTable}, s.Lasting t T →
      Ascending (t :: (uses.map (·.1) ++ [now])) →
      (∀ e ∈ uses, e.2.Writable) → Written uses s →
      ∃ s' T', Shelf.perform uses s = (.ok (), s') ∧ s'.Lasting now T' ∧
        (s.tier.loaded = true ∨ uses ≠ [] →
          s'.tier = s.tier.filled T') := by
  induction uses with
  | nil =>
    intro s t T h hclock _ _
    obtain ⟨ht, hnow, hle, -⟩ := hclock.cons
    refine ⟨s, T, rfl, h.mono ht hnow hle, ?_⟩
    rintro (hloaded | hne)
    · rw [← h.memory hloaded, DurableTier.filled_entries hloaded]
    · exact absurd rfl hne
  | cons e uses ih =>
    intro s t T h hclock hwritable hwritten
    obtain ⟨time, use⟩ := e
    obtain ⟨ht, htime, hle, hclock⟩ := hclock.cons
    obtain ⟨huse, hwritable⟩ := List.forall_mem_cons.1 hwritable
    obtain ⟨hsaves, hwritten⟩ := hwritten
    obtain ⟨s₁, T₁, hrun, htier, hlasting⟩ := h.run ht htime hle huse hsaves
    rw [hrun] at hwritten
    obtain ⟨s', T', hperform, hlast, hframe⟩ :=
      ih hlasting hclock hwritable hwritten
    refine ⟨s', T', ?_, hlast, fun _ => ?_⟩
    · rw [Shelf.perform, Action.bind_ok hrun]
      exact hperform
    · rw [hframe (.inl (by rw [htier]; rfl)), htier]
      rfl

/-- Another instance over the same file, with the same limits, finds what the
file has. -/
theorem Lasting.reopened {d : DurableTier} (h : s.Lasting t T)
    (hframe : d.filled {} = s.tier.filled {}) (hnew : d.loaded = false) :
    (Shelf.mk d s.files).Lasting t T := by
  have hfilled : ∀ E, d.filled E = s.tier.filled E := by
    intro E
    rw [← DurableTier.filled_filled d {} E, hframe,
      DurableTier.filled_filled]
  have hpath : (d.filled {}).path = (s.tier.filled {}).path := by
    rw [hframe]
  have hpath : d.path = s.tier.path := hpath
  refine ⟨?_, fun h => Bool.noConfusion (hnew.symm.trans h), ?_⟩
  · rw [hfilled]
    exact h.sound
  · simp only [hfilled, hpath]
    exact h.file

end Shelf

-- ============================================================= summary

/-- At every moment after the first use, another instance over the same
file loads the entries in memory that are not past retention, in their
order. Only an analysis for which the file gives no time of creation has
the time at which it is loaded. -/
theorem reopened_entries (d : DurableTier) (files : Files.Tree)
    (uses : List (Double × Use)) (now : Double) (hnew : d.loaded = false)
    (husable : Usable files d.path)
    (htimed : ∀ time e, FileHolds files d.path time e →
      e.2.timestamp.isFinite = true)
    (hclock : Ascending (uses.map (·.1) ++ [now]))
    (hwritable : ∀ e ∈ uses, e.2.Writable)
    (hwritten : Shelf.Written uses ⟨d, files⟩) (hne : uses ≠ []) :
    ∃ s s', Shelf.perform uses ⟨d, files⟩ = (.ok (), s) ∧
      Shelf.load now ⟨d, s.files⟩ = (.ok (), s') ∧
      s'.tier.entries.entries = (s.tier.retained now).entries.map
        (redate s.files d.path now) := by
  obtain ⟨⟨first, use⟩, rest, rfl⟩ := List.exists_cons_of_ne_nil hne
  have hfirst := (hclock.1 first (by simp) : Instant first)
  have hnow := (hclock.1 now (by simp) : Instant now)
  obtain ⟨T, hstart⟩ := Shelf.Lasting.start (s := ⟨d, files⟩) hnew husable
    htimed hfirst
  obtain ⟨s, T', hperform, hlast, hframe⟩ :=
    hstart.perform ((first, use) :: rest) hclock.again hwritable hwritten
  have htier := hframe (.inr hne)
  obtain ⟨s', hload, -, -, hentries⟩ :=
    (hlast.reopened (d := d) (by rw [htier]; rfl) hnew).load hnow hnow
      hnow.le_refl
  refine ⟨s, s', hperform, hload, ?_⟩
  rw [htier]
  exact hentries hnew

-- ============================================================= one run

/-- Whatever bytes it holds, the file beside the root can be saved. -/
theorem savable_shelfOver (bytes : List UInt8) :
    (shelfOver bytes).files.Savable (shelfOver bytes).tier.path
      ((shelfOver bytes).tier.path ++ ".tmp") := by
  have hroot : (shelfOver bytes).files.locate Files.maxLinks [] [] =
      .ok ([], some .folder) := by
    rw [Files.Tree.locate.eq_def]
    rfl
  have hpath : Files.Tree.Spelled "/c" [] "c" :=
    ⟨by decide, by decide, by decide, by decide, by decide, by decide⟩
  have haside : Files.Tree.Spelled "/c.tmp" [] "c.tmp" :=
    ⟨by decide, by decide, by decide, by decide, by decide, by decide⟩
  refine ⟨[], [], "c", "c.tmp", hpath, haside, by decide, ?_, hroot, ?_, ?_,
    ?_⟩
  · intro ps hps
    rw [List.prefix_nil.1 hps]
    exact ⟨_, hroot⟩
  · rintro n ⟨⟩
    exact ⟨bytes, rfl⟩
  · rintro n ⟨⟩
  · intro e he hprefix
    rw [List.mem_singleton.1 he] at hprefix
    have hother : ["c.tmp"].isPrefixOf ["c"] = false := by decide
    exact Bool.noConfusion (hother.symm.trans hprefix)

/-- The file breaks off after a bracket; an analysis is set, set anew and
looked up for another source, and set again. -/
theorem reopened_entries_torn :
    let key : MethodKey := ⟨"A", "m"⟩
    let a : Analysis := ⟨"A", "m", "java", .complete, [], {}, "f", .zero,
      none, none⟩
    let uses : List (Double × Use) :=
      [(.zero, .store key a "f" "i" ""), (.zero, .store key a "g" "i" ""),
       (.ofInt 1, .lookup key "h" "i"), (.ofInt 2, .store key a "f" "i" "")]
    (shelfOver [0x7b]).tier.loaded = false ∧
    Usable (shelfOver [0x7b]).files (shelfOver [0x7b]).tier.path ∧
    Ascending (uses.map (·.1) ++ [.ofInt 3]) ∧
    ∃ s s', Shelf.perform uses (shelfOver [0x7b]) = (.ok (), s) ∧
      Shelf.load (.ofInt 3) ⟨(shelfOver [0x7b]).tier, s.files⟩ =
        (.ok (), s') ∧
      s'.tier.entries.entries = (s.tier.retained (.ofInt 3)).entries.map
        (redate s.files (shelfOver [0x7b]).tier.path (.ofInt 3)) := by
  intro key a uses
  have htimed : ∀ time e, FileHolds (shelfOver [0x7b]).files
      (shelfOver [0x7b]).tier.path time e →
        e.2.timestamp.isFinite = true := fun time e h =>
    absurd ((mem_readEntries (readEntries_torn time)).2 h) List.not_mem_nil
  have hclock : Ascending (uses.map (·.1) ++ [.ofInt 3]) := by decide
  have ha : a.Writable := .of_no_calls rfl rfl (by decide)
  have hwritable : ∀ e ∈ uses, e.2.Writable := by
    simp only [uses, List.forall_mem_cons, List.not_mem_nil, false_implies,
      implies_true, and_true]
    exact ⟨ha, ha, trivial, ha⟩
  have hwritten := Shelf.written_of_savable uses (.inr usable_torn)
    (savable_shelfOver [0x7b])
  exact ⟨rfl, usable_torn, hclock, reopened_entries (shelfOver [0x7b]).tier
    (shelfOver [0x7b]).files uses (.ofInt 3) rfl usable_torn htimed hclock
    hwritable hwritten (List.cons_ne_nil _ _)⟩

-- ================================================== no time of creation

/-- A document of one entry, of whose analysis it does not tell the time of
creation. -/
def undatedDocument : Json :=
  .object
    [("version", .text formatVersion),
     ("entries", .object
       [("A#m", .object
         [("analysis", .object
           [("type_name", .text "A"), ("method_name", .text "m"),
            ("status", .text "complete")]),
          ("fingerprint", .text "f"),
          ("oracle_identity", .text "i"),
          ("timestamp", .float .zero)])])]

/-- The tier over the file of that document. -/
def undatedShelf : Shelf :=
  shelfOver (Text.Utf8.encode (String.ofList (Json.indented undatedDocument)))

/-- Its entry, read at a time. -/
def undatedEntry (now : Double) : Kept :=
  ⟨⟨"A", "m", "unknown", .complete, [], {}, "", now, none, none⟩, "f", "i",
    .zero, "", formatVersion⟩

def undatedEntries (now : Double) : KeptTable :=
  ⟨[("A#m", undatedEntry now)], List.nodup_singleton _⟩

/-- An object takes one level. -/
theorem legible_object {levels : Nat} {fs : List (String × Json)}
    (hnames : (fs.map (·.1)).Nodup)
    (hall : fs.Forall fun f => Json.Legible levels f.2) :
    Json.Legible (levels + 1) (.object fs) :=
  .object hnames (List.forall_iff_forall_mem.1 hall)

theorem legible_undatedDocument :
    Json.Legible Json.maxNesting undatedDocument := by
  show Json.Legible (985 + 4) _
  refine legible_object (by decide) ⟨.text _, legible_object (by decide) ?_⟩
  refine legible_object (by decide)
    ⟨?_, .text _, .text _, .float (by decide)⟩
  exact legible_object (by decide) ⟨.text _, .text _, .text _⟩

theorem readEntries_undated (now : Double) :
    readEntries undatedShelf.files undatedShelf.tier.path now =
      .ok (undatedEntries now) :=
  readEntries_indented legible_undatedDocument (read_shelfOver _) now

/-- While its entry is not past retention, the tier loads it. -/
theorem load_undated (time : Double)
    (h : Double.zero.lt (undatedShelf.tier.cutoff time) = false) :
    Shelf.load time undatedShelf = (.ok (),
      ⟨undatedShelf.tier.filled (undatedEntries time), undatedShelf.files⟩) := by
  have hpurge : (undatedShelf.tier.filled (undatedEntries time)).purge time =
      undatedShelf.tier.filled (undatedEntries time) := by
    refine DurableTier.purge_of_keeps ?_ ?_ ?_
    · exact fun e he => List.mem_singleton.1 he ▸ rfl
    · show 1 ≤ (1000 : Int).toNat
      decide
    · exact fun e he => List.mem_singleton.1 he ▸ congrArg not h
  rw [Shelf.load_of_read rfl, readEntries_undated]
  exact congrArg (fun d => (Except.ok (), Shelf.mk d _)) hpurge

/-- One instance reads the file and looks something else up. Another one
that reads it a second later has a different time of creation. -/
theorem reopened_entries_undated :
    let uses : List (Double × Use) := [(.zero, .lookup ⟨"B", "n"⟩ "f" "i")]
    undatedShelf.tier.loaded = false ∧
    Usable undatedShelf.files undatedShelf.tier.path ∧
    (∀ time e, FileHolds undatedShelf.files undatedShelf.tier.path time e →
      e.2.timestamp.isFinite = true) ∧
    Ascending (uses.map (·.1) ++ [.ofInt 1]) ∧
    (∀ e ∈ uses, e.2.Writable) ∧ Shelf.Written uses undatedShelf ∧
    ∃ s s', Shelf.perform uses undatedShelf = (.ok (), s) ∧
      Shelf.load (.ofInt 1) ⟨undatedShelf.tier, s.files⟩ = (.ok (), s') ∧
      s'.tier.entries.entries ≠ (s.tier.retained (.ofInt 1)).entries := by
  intro uses
  have husable : Usable undatedShelf.files undatedShelf.tier.path :=
    (readEntries_ok_iff .zero).1 ⟨_, readEntries_undated .zero⟩
  have hfirst := load_undated .zero (by decide)
  have hsecond := load_undated (.ofInt 1) (by decide)
  have hrun : Shelf.perform uses undatedShelf = (.ok (),
      ⟨undatedShelf.tier.filled (undatedEntries .zero),
        undatedShelf.files⟩) := by
    rw [Shelf.perform, Action.bind_ok (Shelf.run_of_load hfirst _)]
    rfl
  refine ⟨rfl, husable, fun time e he => ?_, by decide, ?_,
    Shelf.written_of_savable uses (.inr husable) (savable_shelfOver _),
    _, _, hrun, hsecond, ?_⟩
  · have hmem := (mem_readEntries (readEntries_undated time)).2 he
    rw [List.mem_singleton.1 hmem]
    rfl
  · exact List.forall_mem_singleton.2 trivial
  · intro hsame
    have hmem : ("A#m", undatedEntry (.ofInt 1)) ∈
        ((undatedShelf.tier.filled (undatedEntries .zero)).retained
          (.ofInt 1)).entries := by
      rw [← hsame]
      exact List.mem_singleton_self _
    cases List.mem_singleton.1 (List.mem_filter.1 hmem).1

end CallTrace.Cache
