/-
What the durable tier makes of the file it finds.

The file is read once, when the tier is first used, and whatever is done
first fails exactly when that reading does. Reading takes most of what it
may find in its stride: no file, a folder in its place, text that is no
document, a document of another kind, entries that cannot be read. It
fails for bytes that are no text, for an integer of too many digits and
for lists and objects that are nested too deep, and then every use of the
tier does, until it is cleared. The tier is never loaded then.
-/
import CallTrace.Cache.Store
import CallTrace.Proofs.Cache.Entries
import CallTrace.Proofs.Cache.SessionTier
import CallTrace.Proofs.Json.Proper

namespace CallTrace.Cache

open Json
open Number (Double)

variable {files : Files.Tree} {path : String} {now : Double}

-- ============================================================== files

/-- The bytes are text, and the reader comes upon no integer of too many
digits and not too deep into lists and objects. What else is in the text
does not matter. -/
def Readable (bytes : List UInt8) : Prop :=
  ∃ cs, Text.Utf8.decode bytes = .ok cs ∧
    (∀ n, Json.read cs ≠ .error (.oversized n)) ∧
    ∀ kind, Json.read cs ≠ .error (.tooDeep kind)

/-- Whatever stands at the path, reading it is no failure. -/
def Usable (files : Files.Tree) (path : String) : Prop :=
  match files.read path with
  | .ok bytes => Readable bytes
  | .error fault => fault ≠ .tooLong

/-- The file at the path is a document of the right version, with a field
among its entries that is read as this one. -/
def FileHolds (files : Files.Tree) (path : String) (now : Double)
    (e : String × Kept) : Prop :=
  ∃ bytes cs document fields v, files.read path = .ok bytes ∧
    Text.Utf8.decode bytes = .ok cs ∧ Json.read cs = .ok document ∧
    document.field? "version" = some (.text formatVersion) ∧
    document.field? "entries" = some (.object fields) ∧
    (e.1, v) ∈ fields ∧ Kept.read now v = .good e.2

/-- The file is read exactly when it is usable. -/
theorem readEntries_ok_iff (now : Double) :
    (∃ table, readEntries files path now = .ok table) ↔
      Usable files path := by
  rw [readEntries, Usable]
  rcases files.read path with fault | bytes
  · cases fault <;> simp
  · simp only [Readable]
    rcases Text.Utf8.decode bytes with junk | cs
    · simp
    · rcases hr : Json.read cs with (_ | n | kind) | document <;> simp [hr]

/-- The names under which something is made of the items of a list are
among the names of the items, in their order. -/
theorem names_filterMap_sublist {α β : Type} (l : List (String × α))
    (g : α → Option β) :
    ((l.filterMap fun f => (g f.2).map (f.1, ·)).map (·.1)).Sublist
      (l.map (·.1)) := by
  induction l with
  | nil => exact .slnil
  | cons f l ih =>
    rcases hg : g f.2 with _ | b
    · rw [List.filterMap_cons_none (by rw [hg]; rfl)]
      exact ih.cons _
    · rw [List.filterMap_cons_some (by rw [hg]; rfl)]
      exact ih.cons_cons _

/-- The entries of a document are those of its fields that can be read,
each under the name of its field. -/
theorem mem_entriesOf {document : Json} (hd : document.Proper)
    {e : String × Kept} : e ∈ (entriesOf now document).entries ↔
      ∃ fields v, document.field? "version" = some (.text formatVersion) ∧
        document.field? "entries" = some (.object fields) ∧
        (e.1, v) ∈ fields ∧ Kept.read now v = .good e.2 := by
  have hnone : ∀ {p : Prop}, ¬p → (e ∈ ({} : KeptTable).entries ↔ p) :=
    fun hp => ⟨fun h => absurd h List.not_mem_nil, fun h => absurd h hp⟩
  rw [entriesOf.eq_def]
  split
  · rename_i fs version hversion
    split
    · rename_i fields hentries
      have hnames : (fields.map (·.1)).Nodup := by
        cases hd with
        | object hnames hall =>
          cases hall _ ((field?_eq_some_iff hnames).1 hentries) with
          | object hnames _ => exact hnames
      split
      · rename_i hv
        rw [Table.mem_ofList_iff
          (hnames.sublist (names_filterMap_sublist fields
            fun v => (Kept.read now v).toOption)),
          List.mem_filterMap]
        constructor
        · rintro ⟨f, hf, hread⟩
          rcases hk : Kept.read now f.2 with kept | faults <;>
            rw [hk] at hread
          · obtain rfl := Option.some.inj hread
            exact ⟨fields, f.2, hv ▸ hversion, hentries, hf, hk⟩
          · exact absurd hread (by simp [Reading.toOption])
        · rintro ⟨_, v, -, hsame, hf, hread⟩
          cases hentries.symm.trans hsame
          exact ⟨_, hf, by simp [hread, Reading.toOption]⟩
      · rename_i hv
        refine hnone ?_
        rintro ⟨_, _, h, -⟩
        rw [hversion] at h
        exact hv (by simpa using h)
    · rename_i hentries
      refine hnone ?_
      rintro ⟨fields, _, -, h, -⟩
      exact hentries fields h
  · rename_i hkind
    refine hnone ?_
    rintro ⟨fields, _, hversion, -⟩
    cases hd with
    | object => exact hkind _ _ rfl hversion
    | _ => exact absurd hversion (by simp [field?])

/-- What is read of a file is what the file holds: the entries that cannot
be read are passed over, and no others. -/
theorem mem_readEntries {table : KeptTable}
    (h : readEntries files path now = .ok table) {e : String × Kept} :
    e ∈ table.entries ↔ FileHolds files path now e := by
  have hnone : ∀ {p : Prop}, ¬p → (e ∈ ({} : KeptTable).entries ↔ p) :=
    fun hp => ⟨fun h => absurd h List.not_mem_nil, fun h => absurd h hp⟩
  rw [readEntries.eq_def] at h
  simp only [FileHolds]
  rcases hf : files.read path with fault | bytes <;> rw [hf] at h
  · have hnothing : ({} : KeptTable) = table := by
      cases fault <;> first | exact Except.ok.inj h | cases h
    rw [← hnothing]
    exact hnone (by simp)
  dsimp only at h
  rcases hd : Text.Utf8.decode bytes with junk | cs <;> rw [hd] at h
  · cases h
  dsimp only at h
  rcases hr : Json.read cs with (_ | n | kind) | document <;>
    rw [hr] at h <;> cases h
  · refine hnone ?_
    rintro ⟨_, _, _, _, _, hbytes, hcs, hread, -⟩
    cases hbytes
    cases hd.symm.trans hcs
    exact absurd (hr.symm.trans hread) (by simp)
  · rw [mem_entriesOf (proper_read hr)]
    constructor
    · rintro ⟨fields, v, hversion, hentries, hfield, hread⟩
      exact ⟨bytes, cs, document, fields, v, rfl, hd, hr, hversion,
        hentries, hfield, hread⟩
    · rintro ⟨_, _, _, fields, v, hbytes, hcs, hread, hrest⟩
      cases hbytes
      cases hd.symm.trans hcs
      cases hr.symm.trans hread
      exact ⟨fields, v, hrest⟩

-- =========================================================== the tier

namespace Shelf

variable {s s' : Shelf}

/-- The file was read before, or can be. -/
def Loadable (s : Shelf) : Prop :=
  s.tier.loaded = true ∨ Usable s.files s.tier.path

/-- The tier with these entries, as it is after they were loaded. -/
def filledWith (s : Shelf) (now : Double) (table : KeptTable) : Shelf :=
  { s with
    tier := ({ s.tier with entries := table, loaded := true }).purge now }

theorem load_of_loaded (h : s.tier.loaded = true) :
    load now s = (.ok (), s) := by
  rw [load, Action.bind_ok (Action.get_run s)]
  simp only [h]
  rfl

/-- A tier that was not loaded is filled from the file, or stays empty if
that fails. -/
theorem load_of_read (h : s.tier.loaded = false) :
    load now s =
      match readEntries s.files s.tier.path now with
      | .ok table => (.ok (), s.filledWith now table)
      | .error e => (.error e, s) := by
  rw [load, Action.bind_ok (Action.get_run s)]
  simp only [h]
  rcases hr : readEntries s.files s.tier.path now with e | table
  · exact Action.bind_error (by rw [Action.liftExcept_run])
  · exact Action.bind_ok (by rw [Action.liftExcept_run])

/-- Loading succeeds exactly when the file was read before or can be, and
then the tier is loaded. -/
theorem load_ok_iff (now : Double) : (load now s).1 = .ok () ↔ s.Loadable := by
  rcases hl : s.tier.loaded with _ | _
  · rw [load_of_read hl, Loadable, hl, ← readEntries_ok_iff now]
    rcases readEntries s.files s.tier.path now with e | table <;> simp
  · rw [load_of_loaded hl, Loadable, hl]
    simp

/-- After loading that succeeds the tier counts as loaded. -/
theorem loaded_of_load (h : load now s = (.ok (), s')) :
    s'.tier.loaded = true := by
  rcases hl : s.tier.loaded with _ | _
  · rw [load_of_read hl] at h
    split at h <;> cases h
    rfl
  · rw [load_of_loaded hl] at h
    cases h
    exact hl

/-- What starts with loading and cannot fail after that succeeds exactly
when loading does. -/
theorem load_bind_ok_iff {α : Type} {rest : Action Shelf α}
    (hrest : ∀ s, ∃ x, (rest s).1 = .ok x) :
    (∃ x, ((load now >>= fun _ => rest) s).1 = .ok x) ↔ s.Loadable := by
  rw [← load_ok_iff now]
  rcases hl : load now s with ⟨e | u, s'⟩
  · rw [Action.bind_error hl]
    simp
  · rw [Action.bind_ok hl]
    exact ⟨fun _ => rfl, fun _ => hrest s'⟩

/-- A lookup succeeds exactly if the tier can be loaded. -/
theorem lookup_ok_iff {key : MethodKey} {f i : String} :
    (∃ found, (lookup now key f i s).1 = .ok found) ↔ s.Loadable := by
  refine load_bind_ok_iff fun s' => ?_
  rw [Action.bind_ok (Action.get_run s')]
  rcases s'.tier.entries.get? key.text with _ | e
  · exact ⟨none, rfl⟩
  · dsimp only
    split
    · exact ⟨_, rfl⟩
    · exact ⟨none, rfl⟩

theorem store_ok_iff {key : MethodKey} {a : Analysis} {f i file : String} :
    (∃ u, (store now key a f i file s).1 = .ok u) ↔ s.Loadable :=
  load_bind_ok_iff fun _ => ⟨(), rfl⟩

/-- Dropping entries succeeds exactly if the tier can be loaded. -/
theorem invalidate_ok_iff {typeName : String}
    {methodName : Option String} :
    (∃ n, (invalidate now typeName methodName s).1 = .ok n) ↔
      s.Loadable := by
  refine load_bind_ok_iff fun s' => ?_
  rw [Action.bind_ok (Action.get_run s')]
  cases methodName
  all_goals
    dsimp only
    split <;> exact ⟨_, rfl⟩

/-- After a lookup that succeeds the tier is loaded. -/
theorem loaded_of_lookup (h : s.Loadable) {key : MethodKey}
    {f i : String} : (lookup now key f i s).2.tier.loaded = true := by
  rw [lookup]
  rcases hl : load now s with ⟨e | u, s'⟩
  · have hok := (load_ok_iff now).2 h
    rw [hl] at hok
    cases hok
  have hloaded := loaded_of_load hl
  rw [Action.bind_ok hl, Action.bind_ok (Action.get_run s')]
  rcases s'.tier.entries.get? key.text with _ | e
  · exact hloaded
  · dsimp only
    split <;> exact hloaded

/-- So it is after something was set. -/
theorem loaded_of_store (h : s.Loadable) {key : MethodKey} {a : Analysis}
    {f i file : String} :
    (store now key a f i file s).2.tier.loaded = true := by
  rw [store]
  rcases hl : load now s with ⟨e | u, s'⟩
  · have hok := (load_ok_iff now).2 h
    rw [hl] at hok
    cases hok
  · rw [Action.bind_ok hl]
    exact (loaded_of_load hl :)

end Shelf

-- ========================================================== the store

namespace Store

/-- The session tier may hold something, and the durable tier, if there is
one, can be loaded. -/
structure Serviceable (s : Store) : Prop where
  room : 0 < s.session.maxEntries
  loadable : ∀ shelf, s.shelf? = some shelf → shelf.Loadable

namespace Serviceable

variable {s : Store}

/-- A tier that can serve takes in whatever is held, and can serve
afterwards. -/
theorem hold (h : s.Serviceable) (clock : Clock) (key : MethodKey)
    (a : Analysis) (f i : String) :
    (hold clock key a f i s).1 = .ok () ∧
      (Store.hold clock key a f i s).2.Serviceable := by
  obtain ⟨tier, hset, hmax⟩ :=
    SessionTier.set_ok clock.elapsed key a f i h.room
  have hrun : Store.hold clock key a f i s =
      (.ok (), { s with session := tier }) := by
    simp only [Store.hold, Action.bind_run, Action.get_run,
      Action.liftExcept_run, hset, Action.set_run]
  rw [hrun]
  exact ⟨rfl, ⟨hmax.symm ▸ h.room, h.loadable⟩⟩

/-- What succeeds with the durable tier and leaves it loaded succeeds. -/
theorem onShelf {α : Type} (h : s.Serviceable) (absent : α)
    (act : Action Shelf α)
    (hact : ∀ shelf : Shelf, shelf.Loadable →
      (∃ x, (act shelf).1 = .ok x) ∧ (act shelf).2.tier.loaded = true) :
    (∃ x, (onShelf absent act s).1 = .ok x) ∧
      (Store.onShelf absent act s).2.Serviceable := by
  rw [Store.onShelf]
  rcases hs : s.shelf? with _ | shelf
  · exact ⟨⟨absent, rfl⟩, h⟩
  · obtain ⟨⟨x, hx⟩, hloaded⟩ := hact shelf (h.loadable shelf hs)
    refine ⟨⟨x, hx⟩, ⟨h.room, ?_⟩⟩
    rintro _ ⟨⟩
    exact .inl hloaded

/-- A lookup succeeds. -/
theorem lookup (h : s.Serviceable) (clock : Clock) (key : MethodKey)
    (f i : String) :
    (∃ found, (lookup clock key f i s).1 = .ok found) ∧
      (Store.lookup clock key f i s).2.Serviceable := by
  rcases hg : s.session.get clock.elapsed key (some f) (some i) with
    ⟨found, tier⟩
  have hsession : Store.onSession (·.get clock.elapsed key (some f)
      (some i)) s = (.ok found, { s with session := tier }) := by
    rw [Store.onSession, hg]
  have htier : ({ s with session := tier } : Store).Serviceable := by
    refine ⟨?_, h.loadable⟩
    have hmax := s.session.maxEntries_get clock.elapsed key (some f) (some i)
    rw [hg] at hmax
    exact hmax.symm ▸ h.room
  rw [Store.lookup, Action.bind_ok hsession]
  rcases found with _ | a
  · obtain ⟨⟨found, hfound⟩, hs'⟩ := htier.onShelf none
      (Shelf.lookup clock.timeOfDay key f i) fun shelf hshelf =>
        ⟨Shelf.lookup_ok_iff.2 hshelf, Shelf.loaded_of_lookup hshelf⟩
    rcases hd : Store.onShelf none
      (Shelf.lookup clock.timeOfDay key f i) { s with session := tier }
      with ⟨e | found', s'⟩
    · rw [hd] at hfound
      cases hfound
    rw [hd] at hs'
    dsimp only
    rw [takeOver, Action.bind_ok hd]
    rcases found' with _ | a
    · exact ⟨⟨none, rfl⟩, hs'⟩
    · obtain ⟨hok, hs''⟩ := hs'.hold clock key a f i
      rcases hh : Store.hold clock key a f i s' with ⟨e | u, s''⟩ <;>
        rw [hh] at hok hs''
      · cases hok
      · dsimp only
        rw [Action.bind_ok hh]
        exact ⟨⟨some a, rfl⟩, hs''⟩
  · exact ⟨⟨some a, rfl⟩, htier⟩

/-- Setting an analysis succeeds. -/
theorem store (h : s.Serviceable) (clock : Clock) (key : MethodKey)
    (a : Analysis) (f i file : String) :
    (∃ u, (store clock key a f i file s).1 = .ok u) ∧
      (Store.store clock key a f i file s).2.Serviceable := by
  obtain ⟨hok, hs'⟩ := h.hold clock key a f i
  rw [Store.store]
  rcases hh : Store.hold clock key a f i s with ⟨e | u, s'⟩ <;>
    rw [hh] at hok hs'
  · cases hok
  · rw [Action.bind_ok hh]
    exact hs'.onShelf _ _ fun shelf hshelf =>
      ⟨Shelf.store_ok_iff.2 hshelf, Shelf.loaded_of_store hshelf⟩

end Serviceable

end Store

-- ======================================================= what is found

/-- A tier that was not used yet, and the bytes of its file. -/
def shelfOver (bytes : List UInt8) : Shelf where
  tier := { path := "/c" }
  files := ⟨[(["c"], .file bytes)]⟩

/-- The file over which the shelf stands holds the given bytes. -/
theorem read_shelfOver (bytes : List UInt8) :
    (shelfOver bytes).files.read (shelfOver bytes).tier.path = .ok bytes := by
  have hlocate : (shelfOver bytes).files.locate Files.maxLinks [] ["c"] =
      .ok (["c"], some (.file bytes)) := by
    rw [Files.Tree.locate.eq_def]
    rfl
  have hparts : Files.parts (shelfOver bytes).tier.path = ["c"] := by
    show Files.parts "/c" = ["c"]
    decide
  have hshort : ¬(shelfOver bytes).tier.path.utf8ByteSize >
      Files.maxPath := by
    show ¬"/c".utf8ByteSize > Files.maxPath
    decide
  rw [Files.Tree.read, Files.Tree.find, if_neg hshort, hparts, hlocate]

/-- A file that breaks off after a bracket is taken for empty. -/
theorem readEntries_torn (now : Double) :
    readEntries (shelfOver [0x7b]).files (shelfOver [0x7b]).tier.path now =
      .ok {} := by
  rw [readEntries, read_shelfOver]
  rfl

theorem usable_torn :
    Usable (shelfOver [0x7b]).files (shelfOver [0x7b]).tier.path :=
  (readEntries_ok_iff .zero).1 ⟨_, readEntries_torn .zero⟩

end CallTrace.Cache
