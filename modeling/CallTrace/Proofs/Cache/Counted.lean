/-
What the durable tier tells of the number of its entries.

The file is read when the tier is first used, and telling about the tier is
no use of it: what is told counts the entries in memory alone. After the
first use that succeeds the number is that of the entries which the next
lookup finds, whatever came between, failures and changes of the file
included; a lookup of a key that is not there changes nothing any more.
Before that the number told is nought, and the next lookup finds what the
file holds and is not past retention. So the tier does not tell the truth
exactly as long as it was not used and has something to find.
-/
import CallTrace.Proofs.Cache.Newest

namespace CallTrace.Cache

open Number (Double)

namespace Shelf

variable {used : Bool} {s s' : Shelf} {now : Double}

/-- A tier that was made over some files, whatever was done with it, failures
included, and whatever became of the files besides. Whether it was `used`
says whether something that was done with it succeeded. -/
inductive Handled : Bool → Shelf → Prop where
  | new (path : String) (retention limit : Int) (files : Files.Tree) :
    Handled false
      ⟨{ path := path, retentionDays := retention, maxEntries := limit },
        files⟩
  | used {used : Bool} {s : Shelf} (h : Handled used s) (now : Double)
    (use : Use) :
    Handled (used || (use.run now s).1.isOk) (use.run now s).2
  | refiled {used : Bool} {s : Shelf} (h : Handled used s)
    (files : Files.Tree) : Handled used { s with files := files }

/-- A use that succeeds leaves the tier loaded. -/
theorem loaded_of_changed (h : s.tier.loaded = true) (use : Use) :
    (s.changed now (use.change? now s.tier)).tier.loaded = true := by
  rcases hc : use.change? now s.tier with _ | d
  · exact h
  · show d.loaded = true
    rw [Use.frame_of_change? h hc]
    rfl

/-- The tier is loaded as soon as it was used, and holds nothing before. -/
theorem Handled.loaded (h : Handled used s) :
    s.tier.loaded = used ∧ (used = false → s.tier.entries = {}) := by
  induction h with
  | new => exact ⟨rfl, fun _ => rfl⟩
  | refiled h files ih => exact ih
  | @used used s h now use ih =>
    have hloaded {s' : Shelf} (hrun : use.run now s = (.ok (), s'))
        (hs' : s'.tier.loaded = true) :
        (use.run now s).2.tier.loaded = (used || (use.run now s).1.isOk) ∧
          ((used || (use.run now s).1.isOk) = false →
            (use.run now s).2.tier.entries = {}) := by
      have hok : (used || (use.run now s).1.isOk) = true := by
        rw [hrun]
        exact Bool.or_true used
      rw [hok, hrun]
      exact ⟨hs', fun h => Bool.noConfusion h⟩
    rcases hload : load now s with ⟨e | u, s'⟩
    · rcases run_of_load_error hload use with hrun | hrun
      · rw [hrun]
        show s.tier.loaded = (used || false) ∧ ((used || false) = false → _)
        rw [Bool.or_false]
        exact ih
      · exact hloaded hrun rfl
    · exact hloaded (run_of_load hload use)
        (loaded_of_changed (loaded_of_load hload) use)

/-- Looking up a key that is not there only loads. -/
theorem lookup_of_absent {key : MethodKey}
    (h : (load now s).2.tier.entries.get? key.text = none) (f i : String) :
    lookup now key f i s =
      ((load now s).1.map fun _ => none, (load now s).2) := by
  rcases hload : load now s with ⟨e | u, s'⟩
  · rw [lookup, Action.bind_error hload]
    rfl
  · rw [hload] at h
    rw [lookup_of_load hload, DurableTier.served, Use.change?, h]
    rfl

/-- The number of entries that is told is that of the entries in memory. -/
theorem stats_entries (s : Shelf) :
    s.stats.field? "entries" = some (.int s.tier.entries.size) := rfl

/-- Loading a tier that was not used fills it with the entries of the file
that are not past retention, or leaves it empty. -/
theorem Handled.load_size (h : Handled false s) :
    (load now s).2.tier.entries.size =
      match readEntries s.files s.tier.path now with
      | .ok T => (s.filledWith now T).tier.entries.size
      | .error _ => 0 := by
  obtain ⟨hloaded, hempty⟩ := h.loaded
  rw [load_of_read hloaded]
  rcases readEntries s.files s.tier.path now with e | T
  · show s.tier.entries.size = 0
    rw [hempty rfl]
    rfl
  · rfl

-- ============================================================= summary

/-- The number of entries that is told, against the number that there is
after a lookup of a key that is not there. Once the tier was used they are
one, since the lookup changes nothing. Before, the number told is nought,
while the lookup loads the file. So they differ exactly for a tier that was
not used and finds something. -/
theorem stats_of_handled (h : Handled used s) (now : Double) (key : MethodKey)
    (f i : String)
    (habsent : (load now s).2.tier.entries.get? key.text = none) :
    let told := s.stats.field? "entries"
    let found := (lookup now key f i s).2.tier.entries.size
    (used = true →
      lookup now key f i s = (.ok none, s) ∧ told = some (.int found)) ∧
    (used = false → told = some (.int 0) ∧
      found = match readEntries s.files s.tier.path now with
        | .ok T => (s.filledWith now T).tier.entries.size
        | .error _ => 0) ∧
    (told = some (.int found) ↔ used = true ∨ found = 0) := by
  intro told found
  obtain ⟨hloaded, hempty⟩ := h.loaded
  have hlookup := lookup_of_absent habsent f i
  cases used with
  | true =>
    have hsame : lookup now key f i s = (.ok none, s) := by
      rw [hlookup, load_of_loaded hloaded]
      rfl
    have htold : told = some (.int found) :=
      s.stats_entries.trans (congrArg
        (fun r => some (Json.int r.2.tier.entries.size)) hsame.symm)
    exact ⟨fun _ => ⟨hsame, htold⟩, fun h => Bool.noConfusion h,
      fun _ => .inl rfl, fun _ => htold⟩
  | false =>
    have htold : told = some (.int 0) :=
      s.stats_entries.trans (congrArg (fun T : KeptTable =>
        some (Json.int T.size)) (hempty rfl))
    have hfound : found = (load now s).2.tier.entries.size :=
      congrArg (fun r => r.2.tier.entries.size) hlookup
    refine ⟨fun h => Bool.noConfusion h,
      fun _ => ⟨htold, hfound.trans h.load_size⟩, ?_⟩
    rw [htold]
    constructor
    · intro hsame
      refine .inr ?_
      injection hsame with hsame
      injection hsame with hsame
      exact_mod_cast hsame.symm
    · rintro (hused | hnone)
      · exact Bool.noConfusion hused
      · rw [hnone]
        rfl

/-- The file holds one entry. Once the tier has looked something else up,
one entry is told and found. -/
theorem stats_of_handled_undated :
    let key : MethodKey := ⟨"B", "n"⟩
    let s := ((Use.lookup key "f" "i").run .zero undatedShelf).2
    Handled true s ∧
    (load .zero s).2.tier.entries.get? key.text = none ∧
    lookup .zero key "f" "i" s = (.ok none, s) ∧
    s.stats.field? "entries" = some (.int 1) := by
  intro key s
  have hrun : (Use.lookup key "f" "i").run .zero undatedShelf = (.ok (),
      ⟨undatedShelf.tier.filled (undatedEntries .zero),
        undatedShelf.files⟩) :=
    run_of_load (load_undated .zero (by decide)) _
  have hs : s = ⟨undatedShelf.tier.filled (undatedEntries .zero),
      undatedShelf.files⟩ := congrArg Prod.snd hrun
  have hhandled : Handled true s := by
    have h := (Handled.new "/c" 30 1000 undatedShelf.files).used .zero
      (.lookup key "f" "i")
    have hok : ((Use.lookup key "f" "i").run .zero undatedShelf).1.isOk =
        true := by
      rw [hrun]
      rfl
    exact (show (false || _) = true from hok) ▸ h
  have habsent : (load .zero s).2.tier.entries.get? key.text = none := by
    rw [hs, load_of_loaded rfl]
    rfl
  have hcount := (stats_of_handled hhandled .zero key "f" "i" habsent).1 rfl
  refine ⟨hhandled, habsent, hcount.1, ?_⟩
  rw [stats_entries, hs]
  rfl

/-- Before that no entry is told, but one is found. -/
theorem unused_tells_nought :
    let key : MethodKey := ⟨"B", "n"⟩
    Handled false undatedShelf ∧
    undatedShelf.stats.field? "entries" = some (.int 0) ∧
    ∃ s, lookup .zero key "f" "i" undatedShelf = (.ok none, s) ∧
      s.tier.entries.size = 1 := by
  intro key
  refine ⟨.new "/c" 30 1000 undatedShelf.files, rfl,
    ⟨undatedShelf.tier.filled (undatedEntries .zero), undatedShelf.files⟩,
    ?_, rfl⟩
  rw [lookup_of_load (load_undated .zero (by decide))]
  rfl

end Shelf

end CallTrace.Cache
