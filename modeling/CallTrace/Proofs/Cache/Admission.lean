/-
What the durable tier finds of what it is given.

Whatever bytes are in the file, the tier is either not loaded, and then
every use of it fails and goes on failing until it is cleared, or it is
loaded with what can be read of the file, and then no use of it fails. In
the second case an analysis that is set is found again, unless the tier is
full of entries that are dated later than it. Those are the newer ones, so
of all entries it is the one that is dropped for exceeding the limit.

Whether that is so can be told from the entries that are not past
retention. If there is no room besides them for one more, then they are as
many as the tier may hold, and the new entry stands behind them. A stable
sort brings to the front what stands last exactly when it goes before all
else.

Here times may be infinite, as a file may give them. One that is no number
cannot be compared with the others; then nothing is said of which entry
goes.
-/
import CallTrace.Proofs.Cache.Newest

namespace CallTrace.Cache

open Number (Double)

-- ========================================================= what comes first

section

variable {α : Type} {le : α → α → Bool} {l : List α} {x : α}

/-- What stands last comes first after sorting exactly when it is to be put
before all else. -/
theorem mem_take_one_mergeSort_concat
    (trans : ∀ a b c, le a b → le b c → le a c)
    (total : ∀ a b, le a b || le b a) (hnodup : (l ++ [x]).Nodup) :
    x ∈ ((l ++ [x]).mergeSort le).take 1 ↔ ∀ a ∈ l, ¬le a x := by
  have hperm := List.mergeSort_perm (l ++ [x]) le
  have hsorted := List.pairwise_mergeSort trans total (l ++ [x])
  have hnodup' := hperm.nodup_iff.2 hnodup
  have hx : x ∉ l := fun h =>
    (List.nodup_append.1 hnodup).2.2 x h x (List.mem_singleton_self x) rfl
  constructor
  · intro hfirst a ha hle
    -- Sorting leaves `a` before `x`, as they are.
    have hpair := List.pair_sublist_mergeSort trans total hle
      ((List.singleton_sublist.2 ha).append (List.Sublist.refl [x]))
    rcases hs : (l ++ [x]).mergeSort le with _ | ⟨y, rest⟩ <;>
      rw [hs] at hfirst hpair hnodup'
    · exact absurd hfirst List.not_mem_nil
    obtain rfl := List.mem_singleton.1 hfirst
    cases hpair with
    | cons _ h =>
      exact (List.nodup_cons.1 hnodup').1 (h.subset (by simp))
    | cons_cons _ h => exact hx ha
  · intro hall
    rcases hs : (l ++ [x]).mergeSort le with _ | ⟨y, rest⟩ <;>
      rw [hs] at hperm hsorted
    · simpa using hperm.length_eq
    rcases List.mem_append.1 (hperm.subset List.mem_cons_self) with hy | hy
    · have hmem := hperm.symm.subset
        (List.mem_append_right l (List.mem_singleton_self x))
      rcases List.mem_cons.1 hmem with rfl | hrest
      · exact absurd hy hx
      · exact absurd ((List.pairwise_cons.1 hsorted).1 x hrest) (hall y hy)
    · exact List.mem_singleton.2 (List.mem_singleton.1 hy).symm

end

namespace DurableTier

variable {d : DurableTier} {now : Double} {key : MethodKey}

/-- The times of the entries are numbers, so they can be compared. -/
def Comparable (es : List (String × Kept)) : Prop :=
  ∀ e ∈ es, e.2.timestamp ≠ .nan

/-- The oldest entry is the one that stands last exactly when every other
one is later. -/
theorem mem_oldestKeys_one {entries : KeptTable}
    {es : List (String × Kept)} {x : String × Kept}
    (hentries : entries.entries = es ++ [x]) (hes : Comparable (es ++ [x])) :
    x.1 ∈ oldestKeys entries 1 ↔
      ∀ e ∈ es, ¬e.2.timestamp.le x.2.timestamp = true := by
  let older (a b : String × Kept) : Bool :=
    a.2.timestamp.rank ≤ b.2.timestamp.rank
  have hkeys : ((es ++ [x]).map (·.1)).Nodup := hentries ▸ entries.nodup
  have hsort := List.map_mergeSort (f := id) (s := older)
    (r := fun a b => !(b.2.timestamp.lt a.2.timestamp)) (l := es ++ [x])
    fun a ha b hb => by
      rw [Bool.eq_iff_iff]
      simp [older, ← Bool.not_eq_true, Double.lt_iff_rank (hes b hb) (hes a ha)]
  rw [List.map_id, List.map_id] at hsort
  have hmem : x.1 ∈ oldestKeys entries 1 ↔
      x ∈ ((es ++ [x]).mergeSort older).take 1 := by
    rw [oldestKeys, hentries, hsort]
    refine ⟨fun h => ?_, List.mem_map_of_mem⟩
    obtain ⟨f, hf, hkey⟩ := List.mem_map.1 h
    have hf' := (List.mergeSort_perm _ _).subset (List.mem_of_mem_take hf)
    exact List.inj_on_of_nodup_map hkeys hf' (by simp) hkey ▸ hf
  rw [hmem, mem_take_one_mergeSort_concat
    (fun a b c => by simpa [older] using le_trans)
    (fun a b => by simpa [older] using le_total _ _) (.of_map _ hkeys)]
  refine forall₂_congr fun e he => not_congr ?_
  rw [Double.le_iff_rank (hes e (by simp [he])) (hes x (by simp))]
  exact decide_eq_true_iff

-- ============================================================ what has room

/-- What is set now is within retention, and besides what else is there is
room for it. -/
def HasRoom (d : DurableTier) (now : Double) (key : MethodKey) : Prop :=
  now.lt (d.cutoff now) = false ∧
    (((d.retained now).erase key.text).size : Int) < d.maxEntries

/-- What is set now has room, or it is within retention and something else
that is, is no later, so that may be dropped instead. -/
def Admits (d : DurableTier) (now : Double) (key : MethodKey) : Prop :=
  d.HasRoom now key ∨ now.lt (d.cutoff now) = false ∧
    ∃ e ∈ (d.retained now).entries, e.2.timestamp.le now = true

/-- While there is room, nothing is dropped for what is set. -/
theorem mem_holding (h : d.HasRoom now key) (a : Analysis)
    (f i path : String) :
    (key.text, ⟨a, f, i, now, path, formatVersion⟩) ∈
      (d.holding now key a f i path).entries.entries := by
  let e : Kept := ⟨a, f, i, now, path, formatVersion⟩
  let filled : DurableTier := { d with entries := d.entries.put key.text e }
  have hsize : (filled.retained now).size ≤
      ((d.retained now).erase key.text).size + 1 :=
    d.entries.size_keep_put_le key.text e _
  have hsurplus :
      (((filled.retained now).size : Int) - d.maxEntries).toNat = 0 := by
    have hroom := h.2
    omega
  refine Table.mem_keep.2 ⟨Table.mem_keep.2 ⟨Table.mem_put_self _ _ _, ?_⟩, ?_⟩
  · exact congrArg not h.1
  · show (!(oldestKeys (filled.retained now) _).contains key.text) = true
    rw [hsurplus]
    rfl

/-- An entry under the key of what was set is what was set. -/
theorem eq_of_mem_holding {a : Analysis} {f i path : String} {e : Kept}
    (h : (key.text, e) ∈ (d.holding now key a f i path).entries.entries) :
    e = ⟨a, f, i, now, path, formatVersion⟩ := by
  have hput := (Table.mem_keep.1 (Table.mem_keep.1 h).1).1
  rcases d.entries.mem_put_of hput with heq | ⟨-, hne⟩
  · exact (Prod.mk.inj heq).2
  · exact absurd rfl hne

/-- In a tier that is full, an entry under a new key stays exactly when
something else is no later. -/
theorem mem_holding_iff_of_full (hnow : now ≠ .nan)
    (hes : Comparable (d.retained now).entries)
    (hdays : now.lt (d.cutoff now) = false) (hnew : key.text ∉ d.entries.keys)
    (hsize : (d.retained now).size ≤ d.maxEntries.toNat)
    (hfull : d.maxEntries ≤ (d.retained now).size) (a : Analysis)
    (f i path : String) :
    (key.text, ⟨a, f, i, now, path, formatVersion⟩) ∈
      (d.holding now key a f i path).entries.entries ↔
        ∃ e ∈ (d.retained now).entries, e.2.timestamp.le now = true := by
  let x : String × Kept := (key.text, ⟨a, f, i, now, path, formatVersion⟩)
  let filled : DurableTier := { d with entries := d.entries.put key.text x.2 }
  have hentries : (filled.retained now).entries =
      (d.retained now).entries ++ [x] := by
    have hx : d.keeps now x = true := congrArg not hdays
    show (d.entries.put key.text x.2).entries.filter (d.keeps now) = _
    rw [Table.entries_put_of_new _ _ hnew, List.filter_append,
      List.filter_cons_of_pos hx, List.filter_nil]
    rfl
  have hcomparable : Comparable ((d.retained now).entries ++ [x]) := by
    intro e he
    rcases List.mem_append.1 he with he | he
    · exact hes e he
    · exact List.mem_singleton.1 he ▸ hnow
  -- Besides what else there is, this is the one that is too much.
  have hlength : (filled.retained now).size = (d.retained now).size + 1 := by
    rw [Table.size, hentries, List.length_append]
    rfl
  have hone : oldestKeys (filled.retained now)
        (((filled.retained now).size : Int) - d.maxEntries).toNat =
      oldestKeys (filled.retained now) 1 := by
    rw [oldestKeys, oldestKeys]
    have hsorted := (List.mergeSort_perm (filled.retained now).entries
      fun a b => !(b.2.timestamp.lt a.2.timestamp)).length_eq
    rcases Nat.eq_zero_or_pos (d.retained now).size with hnone | hsome
    · have hlength : (filled.retained now).entries.length = 1 := by
        rw [← Table.size, hlength, hnone]
      rw [List.take_of_length_le (by omega), List.take_of_length_le (by omega)]
    · congr 2
      omega
  have hstays : x ∈ (d.holding now key a f i path).entries.entries ↔
      x.1 ∉ oldestKeys (filled.retained now) 1 := by
    show x ∈ ((filled.retained now).keep fun k _ => !(oldestKeys
      (filled.retained now) _).contains k).entries ↔ _
    have hx : x ∈ (filled.retained now).entries := by simp [hentries]
    rw [Table.mem_keep, ← hone, and_iff_right hx, Bool.not_eq_true',
      ← Bool.not_eq_true, List.contains_iff_mem]
  rw [hstays, mem_oldestKeys_one hentries hcomparable]
  simp [x]

/-- What is set stays exactly when there is room for it, or something that
is no later. -/
theorem mem_holding_iff (hnow : now ≠ .nan)
    (hes : Comparable (d.retained now).entries)
    (hsize : d.entries.size ≤ d.maxEntries.toNat) (a : Analysis)
    (f i path : String) :
    (key.text, ⟨a, f, i, now, path, formatVersion⟩) ∈
      (d.holding now key a f i path).entries.entries ↔
        d.Admits now key := by
  by_cases hroom : d.HasRoom now key
  · exact iff_of_true (mem_holding hroom a f i path) (.inl hroom)
  rw [Admits, or_iff_right hroom]
  by_cases hdays : now.lt (d.cutoff now) = false
  swap
  · refine iff_of_false (fun hmem => hdays ?_) fun h => hdays h.1
    have hkept := (Table.mem_keep.1 (Table.mem_keep.1 hmem).1).2
    simpa [cutoff] using hkept
  rw [and_iff_right hdays]
  have hnone : d.maxEntries ≤ ((d.retained now).erase key.text).size :=
    not_lt.1 fun h => hroom ⟨hdays, h⟩
  -- There is no room, so the key is new.
  have hnew : key.text ∉ d.entries.keys := by
    intro hk
    have hle : ((d.retained now).erase key.text).size ≤
        (d.entries.erase key.text).size :=
      (List.filter_sublist.filter _).length_le
    have herase := d.entries.size_erase_of_mem hk
    have hpos := List.length_pos_of_mem hk
    rw [← Table.size_eq_keys] at hpos
    omega
  refine mem_holding_iff_of_full hnow hes hdays hnew
    ((d.entries.size_keep_le _).trans hsize) (hnone.trans ?_) a f i path
  exact Int.ofNat_le.2 ((d.retained now).size_keep_le _)

end DurableTier

namespace Shelf

variable {s s' : Shelf} {now later : Double} {key : MethodKey}
  {a : Analysis} {f i path : String}

/-- Setting that succeeds is setting in the tier that was loaded. -/
theorem load_of_store (h : store now key a f i path s = (.ok (), s')) :
    ∃ loaded, load now s = (.ok (), loaded) ∧
      s' = loaded.rewritten now (loaded.tier.holding now key a f i path) := by
  rcases hl : load now s with ⟨e | u, loaded⟩
  · have hstop : store now key a f i path s = (.error e, loaded) :=
      Action.bind_error hl
    rw [hstop] at h
    cases h
  · rw [store_of_load hl] at h
    exact ⟨loaded, rfl, (Prod.mk.inj h).2.symm⟩

/-- What is set is found exactly when it stays in the tier. -/
theorem lookup_of_store_iff (h : store now key a f i path s = (.ok (), s')) :
    (lookup later key f i s').1 = .ok (some a) ↔
      (key.text, ⟨a, f, i, now, path, formatVersion⟩) ∈
        ((load now s).2.tier.holding now key a f i path).entries.entries := by
  obtain ⟨loaded, hl, rfl⟩ := load_of_store h
  let held := loaded.rewritten now (loaded.tier.holding now key a f i path)
  have hheld : held.tier.loaded = true := (loaded_of_load hl :)
  rw [show lookup later key f i _ = _ from lookup_of_loaded hheld key f i, hl]
  constructor
  · intro hserved
    obtain ⟨e, he, -⟩ := Option.map_eq_some_iff.1 (Except.ok.inj hserved)
    have hmem := Table.mem_of_get? (Option.filter_eq_some_iff.1 he).1
    exact DurableTier.eq_of_mem_holding hmem ▸ hmem
  · intro hmem
    exact congrArg Except.ok (DurableTier.served_of_mem hmem rfl)

/-- After loading there are no more entries than the limit allows, if there
were no more before. -/
theorem size_load_le (hsize : s.tier.loaded = true →
    s.tier.entries.size ≤ s.tier.maxEntries.toNat)
    (h : load now s = (.ok (), s')) :
    s'.tier.entries.size ≤ s'.tier.maxEntries.toNat := by
  rcases hl : s.tier.loaded with _ | _
  · rw [load_of_read hl] at h
    split at h <;> cases h
    exact DurableTier.size_purge_le ..
  · rw [load_of_loaded hl] at h
    cases h
    exact hsize hl

/-- While there is room, what is set is found. -/
theorem lookup_of_store (h : store now key a f i path s = (.ok (), s'))
    (hroom : (load now s).2.tier.HasRoom now key) :
    (lookup later key f i s').1 = .ok (some a) :=
  (lookup_of_store_iff h).2 (DurableTier.mem_holding hroom a f i path)

/-- In a tier that keeps to its limit and whose times can be compared, what
is set is found exactly when it is admitted. -/
theorem lookup_of_store_iff_admits (hnow : now ≠ .nan)
    (hsize : s.tier.loaded = true →
      s.tier.entries.size ≤ s.tier.maxEntries.toNat)
    (hes : DurableTier.Comparable
      ((load now s).2.tier.retained now).entries)
    (h : store now key a f i path s = (.ok (), s')) :
    (lookup later key f i s').1 = .ok (some a) ↔
      (load now s).2.tier.Admits now key := by
  obtain ⟨loaded, hl, -⟩ := load_of_store h
  rw [lookup_of_store_iff h, hl]
  rw [hl] at hes
  exact DurableTier.mem_holding_iff hnow hes (size_load_le hsize hl) a f i path

end Shelf

-- ============================================================= summary

/-- Whatever the file holds, every use of the tier succeeds exactly when
the file was read before or can be, and clearing always does. What a file
that can be read holds is loaded entry by entry, but for what is past
retention or beyond the limit; everything else that it may hold counts for
nothing. What is set on top of that is found afterwards while there is room,
and in a full tier exactly when something that is kept is dated no later
than now. And then the cache does not fail an analysis. -/
theorem durable_tier_total (s : Shelf) (now : Double) :
    (∀ key f i, (∃ found, (Shelf.lookup now key f i s).1 = .ok found) ↔
      s.Loadable) ∧
    (∀ key a f i file, (∃ u, (Shelf.store now key a f i file s).1 = .ok u) ↔
      s.Loadable) ∧
    (∀ typeName methodName,
      (∃ n, (Shelf.invalidate now typeName methodName s).1 = .ok n) ↔
        s.Loadable) ∧
    (Shelf.clear now s).1 = .ok () ∧
    (s.tier.loaded = false → Usable s.files s.tier.path →
      ∃ table : KeptTable,
        (∀ e, e ∈ table.entries ↔ FileHolds s.files s.tier.path now e) ∧
        Shelf.load now s = (.ok (), s.filledWith now table)) ∧
    (∀ key a f i file s' later,
      Shelf.store now key a f i file s = (.ok (), s') →
      let loaded := (Shelf.load now s).2.tier
      (loaded.HasRoom now key →
        (Shelf.lookup later key f i s').1 = .ok (some a)) ∧
      (now ≠ .nan →
        (s.tier.loaded = true →
          s.tier.entries.size ≤ s.tier.maxEntries.toNat) →
        DurableTier.Comparable (loaded.retained now).entries →
        ((Shelf.lookup later key f i s').1 = .ok (some a) ↔
          loaded.Admits now key))) ∧
    (∀ st : Store, st.shelf? = some s → s.Loadable →
      0 < st.session.maxEntries → ∀ clock key f i,
        (∃ found, (Store.lookup clock key f i st).1 = .ok found) ∧
        ∀ a file, ∃ u, (Store.store clock key a f i file st).1 = .ok u) := by
  refine ⟨fun _ _ _ => Shelf.lookup_ok_iff, fun _ _ _ _ _ =>
    Shelf.store_ok_iff, fun _ _ => Shelf.invalidate_ok_iff, rfl, ?_,
    fun _ _ _ _ _ _ _ h => ⟨Shelf.lookup_of_store h, fun hnow hsize hes =>
      Shelf.lookup_of_store_iff_admits hnow hsize hes h⟩, ?_⟩
  · intro hl husable
    obtain ⟨table, htable⟩ := (readEntries_ok_iff now).2 husable
    refine ⟨table, fun e => mem_readEntries htable, ?_⟩
    rw [Shelf.load_of_read hl, htable]
  · intro st hs hload hroom clock key f i
    have hst : st.Serviceable :=
      ⟨hroom, fun shelf hshelf => Option.some.inj (hs.symm.trans hshelf) ▸
        hload⟩
    exact ⟨(hst.lookup clock key f i).1,
      fun a file => (hst.store clock key a f i file).1⟩

-- ========================================================== one that is full

/-- A document of two entries, of which the second cannot be read. The first
is dated five seconds after the epoch. -/
def patchyDocument : Json :=
  .object
    [("version", .text formatVersion),
     ("entries", .object
       [("A#m", .object
         [("analysis", .object
           [("type_name", .text "A"), ("method_name", .text "m"),
            ("status", .text "complete")]),
          ("fingerprint", .text "f"),
          ("oracle_identity", .text "i"),
          ("timestamp", .float (.ofInt 5))]),
        ("B#n", .text "torn")])]

/-- A tier for one entry over the file of that document. -/
def patchyShelf : Shelf where
  tier := { path := "/c", maxEntries := 1 }
  files := (shelfOver (Text.Utf8.encode
    (String.ofList (Json.indented patchyDocument)))).files

/-- The entry that can be read, read at a time. -/
def patchyEntry (now : Double) : Kept :=
  { undatedEntry now with timestamp := .ofInt 5 }

def patchyEntries (now : Double) : KeptTable :=
  ⟨[("A#m", patchyEntry now)], List.nodup_singleton _⟩

theorem legible_patchyDocument :
    Json.Legible Json.maxNesting patchyDocument := by
  show Json.Legible (985 + 4) _
  refine legible_object (by decide) ⟨.text _, legible_object (by decide) ?_⟩
  refine ⟨legible_object (by decide) ⟨?_, .text _, .text _,
    .float (by decide)⟩, .text _⟩
  exact legible_object (by decide) ⟨.text _, .text _, .text _⟩

/-- The entry that cannot be read is passed over. -/
theorem readEntries_patchy (now : Double) :
    readEntries patchyShelf.files patchyShelf.tier.path now =
      .ok (patchyEntries now) :=
  readEntries_indented legible_patchyDocument (read_shelfOver _) now

/-- The tier loads the other one, and is full. -/
theorem load_patchy (now : Double)
    (h : (Double.ofInt 5).lt (patchyShelf.tier.cutoff now) = false) :
    Shelf.load now patchyShelf = (.ok (),
      ⟨patchyShelf.tier.filled (patchyEntries now), patchyShelf.files⟩) := by
  have hpurge : (patchyShelf.tier.filled (patchyEntries now)).purge now =
      patchyShelf.tier.filled (patchyEntries now) := by
    refine DurableTier.purge_of_keeps ?_ ?_ ?_
    · exact fun e he => List.mem_singleton.1 he ▸ rfl
    · exact Nat.le_refl 1
    · exact fun e he => List.mem_singleton.1 he ▸ congrArg not h
  rw [Shelf.load_of_read rfl, readEntries_patchy]
  exact congrArg (fun d => (Except.ok (), Shelf.mk d _)) hpurge

/-- What is not past retention there is the one entry. -/
theorem retained_patchy {now : Double}
    (h : (Double.ofInt 5).lt (patchyShelf.tier.cutoff now) = false) :
    ((Shelf.load now patchyShelf).2.tier.retained now).entries =
      [("A#m", patchyEntry now)] := by
  have hkeeps : (patchyShelf.tier.filled (patchyEntries now)).keeps now
      ("A#m", patchyEntry now) = true := congrArg not h
  rw [load_patchy now h]
  exact List.filter_cons_of_pos hkeeps

/-- So something else is set there exactly from the date of that entry on. -/
theorem admits_patchy_iff {now : Double}
    (h : (Double.ofInt 5).lt (patchyShelf.tier.cutoff now) = false)
    (hnow : now.lt (patchyShelf.tier.cutoff now) = false) :
    ¬(Shelf.load now patchyShelf).2.tier.HasRoom now ⟨"B", "n"⟩ ∧
      ((Shelf.load now patchyShelf).2.tier.Admits now ⟨"B", "n"⟩ ↔
        (Double.ofInt 5).le now = true) := by
  have hfull : ¬(Shelf.load now patchyShelf).2.tier.HasRoom now
      ⟨"B", "n"⟩ := by
    rintro ⟨-, hroom⟩
    have herase : ((Shelf.load now patchyShelf).2.tier.retained now).erase
        (MethodKey.mk "B" "n").text =
          (Shelf.load now patchyShelf).2.tier.retained now := by
      refine Table.eq_of_entries ?_
      show ((Shelf.load now patchyShelf).2.tier.retained now).entries.filter
        _ = _
      have hother : "A#m" ≠ (MethodKey.mk "B" "n").text := by decide
      rw [retained_patchy h]
      exact List.filter_cons_of_pos (decide_eq_true hother)
    rw [herase, Table.size, retained_patchy h, load_patchy now h] at hroom
    exact absurd hroom (lt_irrefl (1 : Int))
  refine ⟨hfull, ?_⟩
  rw [DurableTier.Admits, or_iff_right hfull, retained_patchy h,
    load_patchy now h]
  constructor
  · rintro ⟨-, e, he, hle⟩
    rw [List.mem_singleton.1 he] at hle
    exact hle
  · exact fun hle => ⟨hnow, _, List.mem_singleton_self _, hle⟩

/-- Nine seconds after the epoch the tier over that document loads the entry
that can be read and passes the other one over. It is full, and of what is
set the entry that is kept is no later: so that one goes, and what is set is
found. -/
theorem durable_tier_total_patchy :
    let a : Analysis := ⟨"B", "n", "java", .complete, [], {}, "f", .zero,
      none, none⟩
    let now : Double := .ofInt 9
    let loaded := (Shelf.load now patchyShelf).2.tier
    patchyShelf.tier.loaded = false ∧
    Usable patchyShelf.files patchyShelf.tier.path ∧
    (∃ table : KeptTable,
      (∀ e, e ∈ table.entries ↔
        FileHolds patchyShelf.files patchyShelf.tier.path now e) ∧
      ("A#m", patchyEntry now) ∈ table.entries ∧
      (∀ e, ("B#n", e) ∉ table.entries) ∧
      Shelf.load now patchyShelf =
        (.ok (), patchyShelf.filledWith now table)) ∧
    DurableTier.Comparable (loaded.retained now).entries ∧
    ¬loaded.HasRoom now ⟨"B", "n"⟩ ∧ loaded.Admits now ⟨"B", "n"⟩ ∧
    ∃ s', Shelf.store now ⟨"B", "n"⟩ a "f" "i" "" patchyShelf =
        (.ok (), s') ∧
      (Shelf.lookup now ⟨"B", "n"⟩ "f" "i" s').1 = .ok (some a) := by
  intro a now loaded
  obtain ⟨-, hstore, -, -, hload, hpair, -⟩ :=
    durable_tier_total patchyShelf now
  have husable : Usable patchyShelf.files patchyShelf.tier.path :=
    (readEntries_ok_iff now).1 ⟨_, readEntries_patchy now⟩
  have hdate : (Double.ofInt 5).lt (patchyShelf.tier.cutoff now) = false := by
    decide
  have hadmits := admits_patchy_iff hdate (by decide)
  have hcomparable : DurableTier.Comparable (loaded.retained now).entries := by
    rw [retained_patchy hdate]
    exact fun e he => List.mem_singleton.1 he ▸ Double.noConfusion
  obtain ⟨table, htable, hfilled⟩ := hload rfl husable
  have hholds : ∀ e, e ∈ table.entries ↔ e = ("A#m", patchyEntry now) := by
    intro e
    rw [htable, ← mem_readEntries (readEntries_patchy now)]
    exact List.mem_singleton
  obtain ⟨⟨⟩, hok⟩ := (hstore ⟨"B", "n"⟩ a "f" "i" "").2 (.inr husable)
  refine ⟨rfl, husable, ⟨table, htable, (hholds _).2 rfl,
    fun e he => ?_, hfilled⟩, hcomparable, hadmits.1, hadmits.2.2 (by decide),
    _, Prod.ext hok rfl, ?_⟩
  · have hother : "B#n" ≠ "A#m" := by decide
    exact hother (congrArg Prod.fst ((hholds _).1 he))
  · exact ((hpair _ _ _ _ _ _ now (Prod.ext hok rfl)).2 (by decide)
      Bool.noConfusion hcomparable).2 (hadmits.2.2 (by decide))

/-- A second after the epoch the entry in the file is dated later than now.
What is set then is the older one, so it goes at once, and is not found. -/
theorem later_dated_keeps_out (a : Analysis) :
    ∃ s', Shelf.store (.ofInt 1) ⟨"B", "n"⟩ a "f" "i" "" patchyShelf =
        (.ok (), s') ∧
      ∀ later, (Shelf.lookup later ⟨"B", "n"⟩ "f" "i" s').1 ≠
        .ok (some a) := by
  have hdate : (Double.ofInt 5).lt
      (patchyShelf.tier.cutoff (.ofInt 1)) = false := by decide
  have hadmits := (admits_patchy_iff hdate (by decide)).2
  have hload := load_patchy (.ofInt 1) hdate
  refine ⟨_, Shelf.store_of_load hload .., fun later hfound => ?_⟩
  have hle := hadmits.1 ((Shelf.lookup_of_store_iff_admits (by decide)
    Bool.noConfusion ?_ (Shelf.store_of_load hload ..)).1 hfound)
  · exact absurd hle (by decide)
  · rw [retained_patchy hdate]
    exact fun e he => List.mem_singleton.1 he ▸ Double.noConfusion

/-- A byte that starts no character fails the tier in every use, before
and after something is set. -/
theorem junk_fails : ∃ junk,
    (∀ now key f i, Shelf.lookup now key f i (shelfOver [0xff]) =
      (.error (.undecodable junk), shelfOver [0xff])) ∧
    (∀ now key a f i file, Shelf.store now key a f i file (shelfOver [0xff]) =
      (.error (.undecodable junk), shelfOver [0xff])) ∧
    ∀ now typeName methodName,
      Shelf.invalidate now typeName methodName (shelfOver [0xff]) =
        (.error (.undecodable junk), shelfOver [0xff]) := by
  obtain ⟨junk, hjunk⟩ : ∃ junk,
      Text.Utf8.decode [0xff] = .error junk := ⟨_, rfl⟩
  have hload : ∀ now, Shelf.load now (shelfOver [0xff]) =
      (.error (.undecodable junk), shelfOver [0xff]) := by
    intro now
    rw [Shelf.load_of_read rfl, readEntries, read_shelfOver]
    dsimp only
    rw [hjunk]
  exact ⟨junk, fun now _ _ _ => Action.bind_error (hload now),
    fun now _ _ _ _ _ => Action.bind_error (hload now),
    fun now _ _ => Action.bind_error (hload now)⟩

end CallTrace.Cache
