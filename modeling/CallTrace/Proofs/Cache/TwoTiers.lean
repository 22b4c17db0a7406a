/-
The two tiers as one map.

Of the two tiers each may forget what was set, for reasons of its own: age,
want of room, another source or another oracle. What neither does is to
remember what was set anew, dropped or cleared since. So what is found is
what was set last under the key, from the same source and by the same
oracle.

A ledger notes what was set last under each key. Every entry of the session
tier is in the ledger, and so is every entry of the durable tier in memory.
The entries in the file need not be: what is past retention stays there
when it is dropped in memory, as nothing was dropped. But it is not loaded
any more, and that is what the file tells of the memory.

The durable tier files its entries under one word, which tells the key if
the type name has no `#` in it.
-/
import CallTrace.Proofs.Cache.Restart

namespace CallTrace

open Number (Double)

-- =============================================================== keys

namespace MethodKey

/-- The type name has no `#`, so the word of the key tells the key. -/
def HasPlainType (k : MethodKey) : Prop := '#' ∉ k.typeName.toList

/-- A key is read back from its text, if its type has no mark. -/
theorem ofText_text {k : MethodKey} (h : k.HasPlainType) :
    ofText k.text = k := by
  have hcut : Text.cutAt '#' k.text.toList =
      (k.typeName.toList, some k.methodName.toList) := by
    have htext : k.text.toList =
        k.typeName.toList ++ '#' :: k.methodName.toList := by
      simp [text]
    have hspan : k.text.toList.span (· != '#') =
        (k.typeName.toList, '#' :: k.methodName.toList) := by
      rw [htext, List.span_eq_takeWhile_dropWhile,
        List.takeWhile_append_of_pos, List.dropWhile_append_of_pos]
      · simp
      all_goals
        intro c hc
        refine bne_iff_ne.2 fun hmark => h ?_
        rwa [← hmark]
    rw [Text.cutAt, hspan]
  rw [ofText, hcut]
  simp

theorem text_inj_of_plainType {k l : MethodKey} (hk : k.HasPlainType)
    (hl : l.HasPlainType) (h : k.text = l.text) : k = l := by
  rw [← ofText_text hk, h, ofText_text hl]

/-- The method is one of the type, or the one that is named. -/
def isOf (typeName : String) (methodName : Option String)
    (k : MethodKey) : Bool :=
  k.typeName == typeName && methodName.all (k.methodName == ·)

end MethodKey

namespace Cache

variable {t now : Double}

/-- The words that are meant are those of the methods that are. -/
theorem meant_text {k : MethodKey} (hk : k.HasPlainType) {typeName : String}
    {methodName : Option String}
    (h : methodName.isSome → '#' ∉ typeName.toList) :
    meant typeName methodName k.text = k.isOf typeName methodName := by
  cases methodName with
  | none =>
    rw [meant, MethodKey.ofText_text hk, MethodKey.isOf, Option.all_none,
      Bool.and_true]
  | some m =>
    rw [Bool.eq_iff_iff, meant, MethodKey.isOf]
    simp only [beq_iff_eq, Option.all_some, Bool.and_eq_true]
    constructor
    · intro htext
      rw [MethodKey.text_inj_of_plainType (l := ⟨typeName, m⟩) hk (h rfl)
        htext]
      exact ⟨rfl, rfl⟩
    · rintro ⟨rfl, rfl⟩
      rfl

-- ============================================================== ledgers

/-- What was set last under each key, from what source and by what
oracle. -/
abbrev Ledger := MethodKey → Option (Analysis × String × String)

namespace Ledger

/-- What is in the ledger may lie under its key. -/
def rule (M : Ledger) : Rule := fun k a f i => M k = some (a, f, i)

/-- The ledger after a use. -/
def after (M : Ledger) : Use → Ledger
  | .lookup _ _ _ => M
  | .store key a f i _ => fun k => if k = key then some (a, f, i) else M k
  | .invalidate typeName methodName =>
    fun k => if k.isOf typeName methodName then none else M k
  | .clear => fun _ => none

end Ledger

/-- The type names in a use have no `#`, where they are part of a key. -/
def Use.Plain : Use → Prop
  | .lookup key _ _ => key.HasPlainType
  | .store key _ _ _ _ => key.HasPlainType
  | .invalidate typeName methodName =>
    methodName.isSome → '#' ∉ typeName.toList
  | .clear => True

/-- The entry lies under the word of a key, and is in the ledger under that
key. -/
def Kept.Noted (M : Ledger) (e : String × Kept) : Prop :=
  ∃ k : MethodKey, k.HasPlainType ∧ k.text = e.1 ∧
    M.rule k e.2.analysis e.2.fingerprint e.2.identity

variable {M : Ledger} {use : Use} {d : DurableTier}

/-- Every use leaves entries that are in the ledger. -/
theorem noted_of_change? (now : Double) (huse : use.Plain)
    (hd : ∀ e ∈ d.entries.entries, Kept.Noted M e) :
    ∀ e ∈ ((use.change? now d).getD d).entries.entries,
      Kept.Noted (M.after use) e := by
  cases use with
  | lookup key f i =>
    intro e he
    rw [Use.change?] at he
    split at he
    · exact hd e he
    · exact hd e (List.mem_filter.1 he).1
  | store key a f i path =>
    intro e he
    rcases Table.mem_put_of ((DurableTier.purge_sublist _ now).subset he) with
      rfl | ⟨he, hne⟩
    · exact ⟨key, huse, rfl, if_pos rfl⟩
    · obtain ⟨k, hk, htext, hnoted⟩ := hd e he
      refine ⟨k, hk, htext, (if_neg ?_).trans hnoted⟩
      rintro rfl
      exact hne htext.symm
  | invalidate typeName methodName =>
    intro e he
    rw [Use.entries_of_invalidate] at he
    obtain ⟨he, hkept⟩ := List.mem_filter.1 he
    obtain ⟨k, hk, htext, hnoted⟩ := hd e he
    dsimp only at hkept
    rw [← htext, meant_text hk huse] at hkept
    exact ⟨k, hk, htext, (if_neg (by simpa using hkept)).trans hnoted⟩
  | clear => exact fun e he => absurd he List.not_mem_nil

/-- What a lookup finds in the tier is what was set last under the key, from
this source and by this oracle. -/
theorem noted_of_served {key : MethodKey} {f i : String} {a : Analysis}
    (hkey : key.HasPlainType)
    (hd : ∀ e ∈ d.entries.entries, Kept.Noted M e)
    (h : d.served key f i = some a) : M key = some (a, f, i) := by
  obtain ⟨e, he, rfl⟩ := Option.map_eq_some_iff.1 h
  obtain ⟨hget, hfits⟩ := Option.filter_eq_some_iff.1 he
  obtain ⟨k, hk, htext, hnoted⟩ := hd _ (Table.mem_of_get? hget)
  obtain rfl := MethodKey.text_inj_of_plainType hk hkey htext
  simp only [Kept.fits, Bool.and_eq_true, beq_iff_eq] at hfits
  rw [← hfits.1.1, ← hfits.1.2]
  exact hnoted

-- ======================================================== session tier

namespace SessionTier

variable {s s' : SessionTier}

/-- What is set is in the ledger, and what was there under the key is not in
the tier any more. -/
theorem noted_of_set {elapsed : Double} {key : MethodKey} {a : Analysis}
    {f i path : String} (h : s.Obeys M.rule)
    (hset : s.set elapsed key a f i = .ok s') :
    s'.Obeys (M.after (.store key a f i path)).rule := by
  obtain ⟨room, hroom, rfl⟩ := set_cases hset
  have hobeys : room.Obeys M.rule := by
    rcases hroom with ⟨-, rfl⟩ | ⟨-, hroom⟩
    · exact h
    · rw [makeRoom] at hroom
      split at hroom <;> cases hroom
      exact h.evict _
  intro e he
  rcases Table.mem_put_of he with rfl | ⟨he, hne⟩
  · exact if_pos rfl
  · exact (if_neg hne).trans (hobeys e he)

/-- The first tier obeys what the ledger says after entries are dropped. -/
theorem noted_of_invalidate (h : s.Obeys M.rule) (typeName : String)
    (methodName : Option String) :
    (s.invalidate typeName methodName).2.Obeys
      (M.after (.invalidate typeName methodName)).rule := by
  intro e he
  obtain ⟨he, hkept⟩ := List.mem_filter.1 he
  have hother : e.1.isOf typeName methodName = false :=
    (Bool.not_eq_true' _).mp hkept
  exact (if_neg (by simp [hother])).trans (h e he)

end SessionTier

-- ======================================================== durable tier

/-- The tier as it is before its file is read. -/
def DurableTier.unread (d : DurableTier) : DurableTier :=
  { d with entries := {}, loaded := false }

namespace Shelf

variable {s s' : Shelf} {T : KeptTable}

/-- The file tells what is in memory, and that is in the ledger. What was
written gives the time of creation of every analysis, and there is not too
much of it. -/
structure Follows (M : Ledger) (s : Shelf) (t : Double) (T : KeptTable) :
    Prop where
  lasting : s.Lasting t T
  noted : ∀ e ∈ T.entries, Kept.Noted M e
  dated : ∀ e ∈ T.entries, ∀ now,
    redate s.files s.tier.path now e = e
  small : ∀ now E, readEntries s.files s.tier.path now = .ok E →
    Timed E.entries ∧ E.size ≤ s.tier.maxEntries.toNat

namespace Follows

/-- So it is at first, if the file has no entries. -/
theorem start (hnew : s.tier.loaded = false)
    (hempty : ∀ now, readEntries s.files s.tier.path now = .ok {}) :
    s.Follows M t {} where
  lasting := by
    refine ⟨⟨rfl, fun e he => absurd he List.not_mem_nil,
      fun e he => absurd he List.not_mem_nil, Nat.zero_le _⟩,
      fun h => Bool.noConfusion (hnew.symm.trans h),
      fun now _ _ => ⟨{}, hempty now, rfl⟩⟩
  noted e he := absurd he List.not_mem_nil
  dated e he := absurd he List.not_mem_nil
  small now E hE := by
    cases (hempty now).symm.trans hE
    exact ⟨fun e he => absurd he List.not_mem_nil, Nat.zero_le _⟩

/-- So it is for another instance over the same file. -/
theorem reopened (h : s.Follows M t T) :
    (Shelf.mk s.tier.unread s.files).Follows M t T where
  lasting := h.lasting.reopened rfl rfl
  noted := h.noted
  dated := h.dated
  small := h.small

/-- So it is when the file was read: what is loaded of it is what is not
past retention. -/
theorem load (h : s.Follows M t T) (ht : Instant t) (hnow : Instant now)
    (hle : t.le now = true) :
    ∃ s' T', Shelf.load now s = (.ok (), s') ∧ s'.tier = s.tier.filled T' ∧
      s'.Follows M now T' ∧
      (s.tier.loaded = true → T' = s.tier.entries) ∧
      (s.tier.loaded = false → ∃ E,
        readEntries s.files s.tier.path now = .ok E ∧
          T'.entries = E.entries.filter (s.tier.keeps now)) := by
  obtain ⟨s', hload, hfiles, ⟨T', htier, hlasting⟩, hentries⟩ :=
    h.lasting.load ht hnow hle
  have hpath : s'.tier.path = s.tier.path := by
    rw [htier]
    rfl
  have hT' : s'.tier.entries = T' := by
    rw [htier]
    rfl
  rw [hT'] at hentries
  have hsame : s.tier.loaded = true → T' = s.tier.entries := by
    intro hloaded
    rw [load_of_loaded hloaded] at hload
    cases hload
    exact hT'.symm
  have hretained : s.tier.loaded = false →
      T'.entries = ((s.tier.filled T).retained now).entries := by
    intro hnew
    rw [hentries hnew]
    refine (List.map_congr_left fun e he => ?_).trans (List.map_id _)
    exact h.dated e (List.mem_filter.1 he).1 now
  have hsub : ∀ e ∈ T'.entries, e ∈ T.entries := by
    intro e he
    rcases hl : s.tier.loaded with _ | _
    · rw [hretained hl] at he
      exact (List.mem_filter.1 he).1
    · rwa [hsame hl, h.lasting.memory hl] at he
  refine ⟨s', T', hload, htier, ⟨hlasting, fun e he => h.noted e (hsub e he),
    fun e he => ?_, ?_⟩, hsame, fun hnew => ?_⟩
  · rw [hfiles, hpath]
    exact h.dated e (hsub e he)
  · rw [hfiles, hpath, htier]
    exact h.small
  · obtain ⟨E, hE, hpurge⟩ := h.lasting.file now hnow hle
    obtain ⟨htimed, hsize⟩ := h.small now E hE
    refine ⟨E, hE, ?_⟩
    rw [hentries hnew, ← hpurge, DurableTier.purge_of_size htimed hsize]
    rfl

/-- So it is after a use of the loaded tier. -/
theorem changed (h : s.Follows M now T) (htier : s.tier = s.tier.filled T)
    (hnow : Instant now) (hplain : use.Plain) (hwritable : use.Writable)
    (hsaved : ∀ d, use.change? now s.tier = some d →
      (s.rewritten now d).files.read d.path =
        .ok (bytesOf now d.entries)) :
    ∃ T', (s.changed now (use.change? now s.tier)).Follows (M.after use) now
      T' := by
  have hsound := h.lasting.sound
  rw [← htier] at hsound
  have hnoted := noted_of_change? now (d := s.tier) hplain
    (by rw [htier]; exact h.noted)
  rcases hc : use.change? now s.tier with _ | d
  · rw [hc, Option.getD_none, htier] at hnoted
    exact ⟨T, h.lasting, hnoted, h.dated, h.small⟩
  · rw [hc, Option.getD_some] at hnoted
    have hd := Use.sound_of_change? hsound hnow hwritable hc
    have hread := hsaved d hc
    refine ⟨d.entries, .rewritten hd hread, hnoted, fun e _ later =>
      redate_of_written hd.writable hread later e, fun later E hE => ?_⟩
    have hsame := readEntries_of_written hd.writable hread later
    cases hsame.symm.trans hE
    exact ⟨hd.timed, hd.size⟩

/-- What a use loads is in the ledger, and so is what it leaves, if that is
written without a fault. -/
theorem used (h : s.Follows M t T) (ht : Instant t) (hnow : Instant now)
    (hle : t.le now = true) (use : Use) :
    ∃ s' T', Shelf.load now s = (.ok (), s') ∧ s'.tier = s.tier.filled T' ∧
      (∀ e ∈ T'.entries, Kept.Noted M e) ∧
      (s.tier.loaded = true → T' = s.tier.entries) ∧
      (s.tier.loaded = false → ∃ E,
        readEntries s.files s.tier.path now = .ok E ∧
          T'.entries = E.entries.filter (s.tier.keeps now)) ∧
      (use.Plain → use.Writable → s.Saves now use →
        ∃ T'', (s'.changed now (use.change? now s'.tier)).Follows
          (M.after use) now T'') := by
  obtain ⟨s', T', hload, htier, hfollows, hsame, hfile⟩ :=
    h.load ht hnow hle
  refine ⟨s', T', hload, htier, hfollows.noted, hsame, hfile, ?_⟩
  intro hplain hwritable hsaves
  exact hfollows.changed (by rw [htier]; rfl) hnow hplain hwritable
    fun d hc => hsaves s' d hload hc

end Follows

end Shelf

-- ========================================================== both tiers

namespace Store

variable {s s' : Store} {clock : Clock}

/-- The session tier may hold something, and what each tier holds is in the
ledger. -/
structure Follows (M : Ledger) (s : Store) (t : Double) : Prop where
  room : 0 < s.session.maxEntries
  session : s.session.Obeys M.rule
  durable : ∀ shelf, s.shelf? = some shelf → ∃ T, shelf.Follows M t T

/-- Does it with both tiers, whatever comes of it. -/
def run (clock : Clock) : Use → Action Store Unit
  | .lookup key f i => do let _ ← lookup clock key f i
  | .store key a f i path => store clock key a f i path
  | .invalidate typeName methodName => do
    let _ ← invalidate clock typeName methodName
  | .clear => clear clock

/-- The use comes to the durable tier. A lookup does only if the session
tier serves nothing. -/
def Passes (s : Store) (clock : Clock) : Use → Prop
  | .lookup key f i =>
    (s.session.get clock.elapsed key (some f) (some i)).1 = none
  | _ => True

/-- What the use changes in the durable tier is written without a fault. -/
def Saves (s : Store) (clock : Clock) (use : Use) : Prop :=
  s.Passes clock use → ∀ shelf, s.shelf? = some shelf →
    shelf.Saves clock.timeOfDay use

variable {key : MethodKey} {a : Analysis} {f i : String}

/-- A session tier that may hold something takes every analysis. -/
theorem hold_ok (clock : Clock) (key : MethodKey) (a : Analysis)
    (f i : String) (hroom : 0 < s.session.maxEntries) : ∃ tier,
    s.session.set clock.elapsed key a f i = .ok tier ∧
      hold clock key a f i s = (.ok (), { s with session := tier }) ∧
      0 < tier.maxEntries := by
  obtain ⟨tier, hset, hmax⟩ :=
    SessionTier.set_ok clock.elapsed key a f i hroom
  refine ⟨tier, hset, ?_, hmax.symm ▸ hroom⟩
  simp only [hold, Action.bind_run, Action.get_run, Action.liftExcept_run,
    hset, Action.set_run]

theorem onShelf_of_some {α : Type} (absent : α) {x : α} {act : Action Shelf α}
    {shelf shelf' : Shelf} (hs : s.shelf? = some shelf)
    (hact : act shelf = (.ok x, shelf')) :
    onShelf absent act s = (.ok x, s.withShelf shelf') := by
  rw [onShelf, hs]
  dsimp only
  rw [hact]

/-- What is dropped of the session tier, and then of the durable one. -/
theorem invalidate_of_onShelf {typeName : String}
    {methodName : Option String} {n : Nat}
    (h : onShelf 0 (Shelf.invalidate clock.timeOfDay typeName methodName)
      { s with session := (s.session.invalidate typeName methodName).2 } =
        (.ok n, s')) :
    invalidate clock typeName methodName s =
      (.ok ((s.session.invalidate typeName methodName).1 + n), s') := by
  have hsession : onSession (·.invalidate typeName methodName) s =
      (.ok (s.session.invalidate typeName methodName).1,
        { s with
          session := (s.session.invalidate typeName methodName).2 }) := rfl
  rw [invalidate, Action.bind_ok hsession, Action.bind_ok h]
  rfl

section

variable (ht : Instant t) (hnow : Instant clock.timeOfDay)
  (hle : t.le clock.timeOfDay = true)

include ht hnow hle

/-- What is done with the durable tier, if there is one, succeeds, and
what comes of it is made of entries that are in the ledger. -/
theorem onShelf_follows {α : Type} (absent : α) {act : Action Shelf α}
    {out : Shelf → α}
    (hact : ∀ shelf s₁, Shelf.load clock.timeOfDay shelf = (.ok (), s₁) →
      act shelf = (.ok (out s₁),
        s₁.changed clock.timeOfDay (use.change? clock.timeOfDay s₁.tier)))
    (h : ∀ shelf, s.shelf? = some shelf → ∃ T, shelf.Follows M t T) :
    ∃ x s', onShelf absent act s = (.ok x, s') ∧ s'.session = s.session ∧
      (x = absent ∨ ∃ s₁, x = out s₁ ∧
        ∀ e ∈ s₁.tier.entries.entries, Kept.Noted M e) ∧
      (use.Plain → use.Writable →
        (∀ shelf, s.shelf? = some shelf →
          shelf.Saves clock.timeOfDay use) →
        ∀ shelf, s'.shelf? = some shelf →
          ∃ T, shelf.Follows (M.after use) clock.timeOfDay T) := by
  rcases hs : s.shelf? with _ | shelf
  · refine ⟨absent, s, by rw [onShelf, hs], rfl, .inl rfl, ?_⟩
    intro _ _ _ shelf hshelf
    rw [hs] at hshelf
    cases hshelf
  · obtain ⟨T, hT⟩ := h shelf hs
    obtain ⟨s₁, T₁, hload, htier, hnoted, -, -, hfollows⟩ :=
      hT.used ht hnow hle use
    refine ⟨_, _, onShelf_of_some absent hs (hact _ _ hload), rfl,
      .inr ⟨s₁, rfl, by rw [htier]; exact hnoted⟩, ?_⟩
    rintro hplain hwritable hsaves _ ⟨⟩
    exact hfollows hplain hwritable (hsaves shelf rfl)

/-- A lookup finds nothing, or what was set last under the key, from the
same source and by the same oracle. -/
theorem Follows.lookup (h : s.Follows M t) (hkey : key.HasPlainType) :
    ∃ found s', lookup clock key f i s = (.ok found, s') ∧
      (∀ a, found = some a → M key = some (a, f, i)) ∧
      (s.Saves clock (.lookup key f i) → s'.Follows M clock.timeOfDay) := by
  obtain ⟨hget, hfound⟩ := h.session.get clock.elapsed key f i
  have hmax := s.session.maxEntries_get clock.elapsed key (some f) (some i)
  rw [Store.lookup]
  rcases hg : s.session.get clock.elapsed key (some f) (some i) with
    ⟨found, tier⟩
  rw [hg] at hget hfound hmax
  have hsession : onSession (·.get clock.elapsed key (some f) (some i)) s =
      (.ok found, { s with session := tier }) := by
    rw [onSession, hg]
  have hroom : 0 < tier.maxEntries := hmax.symm ▸ h.room
  rw [Action.bind_ok hsession]
  rcases found with _ | a
  · obtain ⟨x, s₁, hshelf, hsame, hout, hfollows⟩ := onShelf_follows
      (s := { s with session := tier }) ht hnow hle none
      (fun _ _ hload => Shelf.lookup_of_load hload key f i) h.durable
    have hdurable : s.Saves clock (.lookup key f i) →
        ∀ shelf, s₁.shelf? = some shelf →
          ∃ T, shelf.Follows M clock.timeOfDay T := fun hsaves =>
      hfollows hkey trivial (hsaves (by rw [Passes, hg]))
    dsimp only
    rw [takeOver, Action.bind_ok hshelf]
    rcases x with _ | a
    · refine ⟨none, s₁, rfl, ?_, fun hsaves =>
        ⟨hsame ▸ hroom, hsame ▸ hget, hdurable hsaves⟩⟩
      rintro _ ⟨⟩
    · have hnoted : M key = some (a, f, i) := by
        rcases hout with hout | ⟨s₂, hserved, hall⟩
        · cases hout
        · exact noted_of_served hkey hall hserved.symm
      obtain ⟨tier', hset, hhold, hroom'⟩ :=
        hold_ok (s := s₁) clock key a f i (hsame ▸ hroom)
      dsimp only
      rw [Action.bind_ok hhold]
      refine ⟨some a, _, rfl, ?_, fun hsaves => ⟨hroom', ?_, hdurable hsaves⟩⟩
      · rintro _ ⟨⟩
        exact hnoted
      · have hsession : s₁.session.Obeys M.rule := hsame ▸ hget
        exact hsession.set hnoted hset
  · refine ⟨some a, _, rfl, ?_, fun _ => ⟨hroom, hget, ?_⟩⟩
    · rintro _ ⟨⟩
      exact hfound a rfl
    · intro shelf hshelf
      obtain ⟨T, hT⟩ := h.durable shelf hshelf
      exact ⟨T, { hT with lasting := hT.lasting.mono ht hnow hle }⟩

/-- To set an analysis succeeds, and it is what was set last from then
on. -/
theorem Follows.store (h : s.Follows M t) {path : String} :
    ∃ s', store clock key a f i path s = (.ok (), s') ∧
      (key.HasPlainType → a.Writable →
        s.Saves clock (.store key a f i path) →
          s'.Follows (M.after (.store key a f i path)) clock.timeOfDay) := by
  obtain ⟨tier, hset, hhold, hroom⟩ :=
    hold_ok clock key a f i h.room
  obtain ⟨x, s', hshelf, hsame, -, hfollows⟩ := onShelf_follows
    (s := { s with session := tier }) ht hnow hle ()
    (fun _ _ hload => Shelf.store_of_load hload key a f i path) h.durable
  refine ⟨s', ?_, fun hkey ha hsaves => ⟨hsame ▸ hroom, ?_,
    hfollows hkey ha (hsaves trivial)⟩⟩
  · rw [Store.store, Action.bind_ok hhold]
    exact hshelf
  · rw [hsame]
    exact SessionTier.noted_of_set h.session hset

/-- To drop what is meant succeeds, and it is in no tier from then on. -/
theorem Follows.invalidate (h : s.Follows M t) {typeName : String}
    {methodName : Option String} :
    ∃ n s', invalidate clock typeName methodName s = (.ok n, s') ∧
      s'.session = (s.session.invalidate typeName methodName).2 ∧
      ((Use.invalidate typeName methodName).Plain →
        s.Saves clock (.invalidate typeName methodName) →
          s'.Follows (M.after (.invalidate typeName methodName))
            clock.timeOfDay) := by
  obtain ⟨x, s', hshelf, hsame, -, hfollows⟩ := onShelf_follows
    (s := { s with
      session := (s.session.invalidate typeName methodName).2 })
    ht hnow hle 0
    (fun _ _ hload => Shelf.invalidate_of_load hload typeName methodName)
    h.durable
  refine ⟨_, s', invalidate_of_onShelf hshelf, hsame,
    fun hplain hsaves => ⟨?_, ?_,
      hfollows hplain trivial (hsaves trivial)⟩⟩
  · rw [hsame]
    exact h.room
  · rw [hsame]
    exact SessionTier.noted_of_invalidate h.session typeName methodName

/-- To clear both tiers succeeds. -/
theorem Follows.clear (h : s.Follows M t) :
    ∃ s', clear clock s = (.ok (), s') ∧
      (s.Saves clock .clear →
        s'.Follows (M.after .clear) clock.timeOfDay) := by
  obtain ⟨x, s', hshelf, hsame, -, hfollows⟩ := onShelf_follows
    (s := { s with session := s.session.clear }) ht hnow hle ()
    (fun _ _ hload => Shelf.clear_of_load hload) h.durable
  refine ⟨s', hshelf, fun hsaves => ⟨?_, ?_,
    hfollows trivial trivial (hsaves trivial)⟩⟩
  · rw [hsame]
    exact h.room
  · rw [hsame]
    exact SessionTier.obeys_empty rfl

/-- Every use succeeds, and the tiers go on following the ledger. -/
theorem Follows.run (h : s.Follows M t) (hplain : use.Plain)
    (hwritable : use.Writable) (hsaves : s.Saves clock use) :
    ∃ s', Store.run clock use s = (.ok (), s') ∧
      s'.Follows (M.after use) clock.timeOfDay := by
  cases use with
  | lookup key f i =>
    obtain ⟨found, s', hrun, -, hfollows⟩ := h.lookup ht hnow hle hplain
    refine ⟨s', ?_, hfollows hsaves⟩
    rw [Store.run, Action.bind_ok hrun]
    rfl
  | store key a f i path =>
    obtain ⟨s', hrun, hfollows⟩ := h.store ht hnow hle
    exact ⟨s', hrun, hfollows hplain hwritable hsaves⟩
  | invalidate typeName methodName =>
    obtain ⟨n, s', hrun, -, hfollows⟩ := h.invalidate ht hnow hle
    refine ⟨s', ?_, hfollows hplain hsaves⟩
    rw [Store.run, Action.bind_ok hrun]
    rfl
  | clear =>
    obtain ⟨s', hrun, hfollows⟩ := h.clear ht hnow hle
    exact ⟨s', hrun, hfollows hsaves⟩

/-- What a drop leaves in the durable tier is exactly what is not meant, of
what was in memory. If the file was not read before, that is what in it is
not past retention. -/
theorem Follows.durable_invalidate (h : s.Follows M t) {typeName : String}
    {methodName : Option String}
    (hplain : methodName.isSome → '#' ∉ typeName.toList) {n : Nat}
    (hrun : Store.invalidate clock typeName methodName s = (.ok n, s'))
    {d : DurableTier} (hd : s.durable = some d) :
    ∃ d' before, s'.durable = some d' ∧ d'.loaded = true ∧
      (d.loaded = true → before = d.entries.entries) ∧
      (d.loaded = false → ∃ E,
        readEntries s.files d.path clock.timeOfDay = .ok E ∧
          before = E.entries.filter (d.keeps clock.timeOfDay)) ∧
      d'.entries.entries = before.filter fun e =>
        !(MethodKey.ofText e.1).isOf typeName methodName := by
  have hs : ({ s with
      session := (s.session.invalidate typeName methodName).2 } :
      Store).shelf? = some ⟨d, s.files⟩ := by
    rw [shelf?, hd]
    rfl
  obtain ⟨T, hT⟩ := h.durable ⟨d, s.files⟩ hs
  let use : Use := .invalidate typeName methodName
  obtain ⟨s₁, T₁, hload, htier, hnoted, hsame, hfile, -⟩ :=
    hT.used ht hnow hle use
  have hloaded : s₁.tier.loaded = true := by
    rw [htier]
    rfl
  have hentries : s₁.tier.entries = T₁ := by
    rw [htier]
    rfl
  have hdurable : s'.durable =
      some ((use.change? clock.timeOfDay s₁.tier).getD s₁.tier) := by
    have hshelf := onShelf_of_some 0 hs
      (Shelf.invalidate_of_load hload typeName methodName)
    cases hrun.symm.trans (invalidate_of_onShelf hshelf)
    rw [withShelf]
    rcases use.change? clock.timeOfDay s₁.tier with _ | d' <;> rfl
  refine ⟨_, T₁.entries, hdurable, ?_, fun hl => by rw [hsame hl], hfile, ?_⟩
  · rcases hc : use.change? clock.timeOfDay s₁.tier with _ | d'
    · exact hloaded
    · rw [Option.getD_some, Use.frame_of_change? hloaded hc]
      rfl
  · rw [Use.entries_of_invalidate, DurableTier.remaining, hentries]
    refine List.filter_congr fun e he => congrArg not ?_
    obtain ⟨k, hk, htext, -⟩ := hnoted e he
    rw [← htext, meant_text hk hplain, MethodKey.ofText_text hk]

end

-- =============================================================== turns

/-- A store as it begins, over a session tier with these limits. -/
def fresh (maxEntries : Int) (ttl : Double) (durable : Option DurableTier)
    (files : Files.Tree) : Store :=
  .over { maxEntries, ttl } durable files

/-- What can happen to a store: it is used, looked at without a trace, or
the program starts again over the same files. -/
inductive Turn where
  | act (use : Use)
  | peek (key : MethodKey)
  | restart (maxEntries : Int) (ttl : Double)

/-- The store as it is when the program starts again. -/
def restarted (maxEntries : Int) (ttl : Double) (s : Store) : Store :=
  fresh maxEntries ttl (s.durable.map (·.unread)) s.files

namespace Turn

def run (clock : Clock) : Turn → Action Store Unit
  | act u => Store.run clock u
  | peek key => do
    let _ := (← get).peek clock key
  | restart maxEntries ttl => modify (restarted maxEntries ttl)

/-- The type names have no `#`, where they are part of a key. -/
def Plain : Turn → Prop
  | act u => u.Plain
  | peek key => key.HasPlainType
  | restart _ _ => True

/-- What is set can be written so that it is read again. -/
def Writable : Turn → Prop
  | act u => u.Writable
  | _ => True

/-- What changes in the durable tier is written without a fault. -/
def Saves (s : Store) (clock : Clock) : Turn → Prop
  | act u => s.Saves clock u
  | _ => True

end Turn

/-- One thing after the other, each at its time. -/
def play : List (Clock × Turn) → Action Store Unit
  | [] => pure ()
  | (clock, turn) :: rest => do
    turn.run clock
    play rest

/-- Every change that is made on the way is written without a fault. -/
def Written : List (Clock × Turn) → Store → Prop
  | [], _ => True
  | (clock, turn) :: rest, s =>
    turn.Saves s clock ∧ Written rest (turn.run clock s).2

/-- The ledger after a turn. -/
def Turn.next (M : Ledger) : Turn → Ledger
  | act u => M.after u
  | _ => M

/-- The ledger after all of this. -/
def ledgerOf (turns : List (Clock × Turn)) : Ledger :=
  turns.foldl (fun M e => e.2.next M) fun _ => none

/-- Whatever limits it is given, an empty session tier is replaced by one
with the usual limits, which has room. -/
theorem room_fresh (maxEntries : Int) (ttl : Double)
    (durable : Option DurableTier) (files : Files.Tree) :
    0 < (fresh maxEntries ttl durable files).session.maxEntries :=
  (by decide : (0 : Int) < 100)

/-- Whatever happens to it, the store goes on following the ledger. -/
theorem Follows.turn (h : s.Follows M t) (ht : Instant t)
    (hnow : Instant clock.timeOfDay) (hle : t.le clock.timeOfDay = true)
    {turn : Turn} (hplain : turn.Plain) (hwritable : turn.Writable)
    (hsaves : turn.Saves s clock) :
    ∃ s', turn.run clock s = (.ok (), s') ∧
      s'.Follows (turn.next M) clock.timeOfDay := by
  have hlater : s.Follows M clock.timeOfDay := by
    refine { h with durable := fun shelf hs => ?_ }
    obtain ⟨T, hT⟩ := h.durable shelf hs
    exact ⟨T, { hT with lasting := hT.lasting.mono ht hnow hle }⟩
  cases turn with
  | act u => exact h.run ht hnow hle hplain hwritable hsaves
  | peek key => exact ⟨s, rfl, hlater⟩
  | restart maxEntries ttl =>
    refine ⟨s.restarted maxEntries ttl, rfl, room_fresh maxEntries ttl _ _,
      SessionTier.obeys_empty rfl, ?_⟩
    intro shelf hs
    obtain ⟨d', hd', rfl⟩ := Option.map_eq_some_iff.1 hs
    obtain ⟨d, hd, rfl⟩ := Option.map_eq_some_iff.1 hd'
    obtain ⟨T, hT⟩ := hlater.durable ⟨d, s.files⟩ (by rw [shelf?, hd]; rfl)
    exact ⟨T, hT.reopened⟩

/-- The two tiers follow the ledger over any sequence of uses at ascending
times. -/
theorem Follows.play (turns : List (Clock × Turn)) :
    ∀ {s : Store} {M : Ledger} {t : Double}, s.Follows M t →
      Ascending (t :: (turns.map (·.1.timeOfDay) ++ [now])) →
      (∀ e ∈ turns, e.2.Plain) → (∀ e ∈ turns, e.2.Writable) →
      Written turns s → ∃ s', Store.play turns s = (.ok (), s') ∧
        s'.Follows (turns.foldl (fun M e => e.2.next M) M) now := by
  induction turns with
  | nil =>
    intro s M t h hclock _ _ _
    obtain ⟨ht, hnow, hle, -⟩ := hclock.cons
    refine ⟨s, rfl, { h with durable := fun shelf hs => ?_ }⟩
    obtain ⟨T, hT⟩ := h.durable shelf hs
    exact ⟨T, { hT with lasting := hT.lasting.mono ht hnow hle }⟩
  | cons e turns ih =>
    intro s M t h hclock hplain hwritable hwritten
    obtain ⟨clock, turn⟩ := e
    obtain ⟨ht, htime, hle, hclock⟩ := hclock.cons
    obtain ⟨hturn, hplain⟩ := List.forall_mem_cons.1 hplain
    obtain ⟨hset, hwritable⟩ := List.forall_mem_cons.1 hwritable
    obtain ⟨hsaves, hwritten⟩ := hwritten
    obtain ⟨s₁, hrun, hfollows⟩ := h.turn ht htime hle hturn hset hsaves
    rw [hrun] at hwritten
    obtain ⟨s', hplay, hlast⟩ :=
      ih hfollows hclock hplain hwritable hwritten
    refine ⟨s', ?_, hlast⟩
    rw [Store.play, Action.bind_ok hrun]
    exact hplay

/-- What can be seen without a trace was set last under the key. -/
theorem Follows.peek (h : s.Follows M t) {key : MethodKey} {a : Analysis}
    (hpeek : s.peek clock key = some a) :
    ∃ f i, M key = some (a, f, i) := by
  obtain ⟨e, he, rfl⟩ := Option.map_eq_some_iff.1 hpeek
  obtain ⟨hget, -⟩ := Option.filter_eq_some_iff.1 he
  exact ⟨_, _, h.session _ (Table.mem_of_get? hget)⟩

end Store

-- ============================================================= summary

/-- The two tiers are one map that may forget. After whatever has happened
to a store that began with empty tiers, a lookup finds nothing, or what was
set last under the key, provided that was from the same source and by the
same oracle, and was not dropped or cleared since; nothing else can be
looked at either. A drop takes from each tier exactly what is meant. -/
theorem store_refines_ledger (maxEntries : Int) (ttl : Double)
    (durable : Option DurableTier) (files : Files.Tree)
    (turns : List (Clock × Store.Turn)) (clock : Clock)
    (hnew : ∀ d, durable = some d → d.loaded = false)
    (hempty : ∀ d, durable = some d → ∀ now,
      readEntries files d.path now = .ok {})
    (hclock : Ascending (turns.map (·.1.timeOfDay) ++ [clock.timeOfDay]))
    (hplain : ∀ e ∈ turns, e.2.Plain)
    (hwritable : ∀ e ∈ turns, e.2.Writable)
    (hwritten : Store.Written turns (.fresh maxEntries ttl durable files)) :
    ∃ s, Store.play turns (.fresh maxEntries ttl durable files) =
        (.ok (), s) ∧
      (∀ key f i, key.HasPlainType → ∃ found s',
        Store.lookup clock key f i s = (.ok found, s') ∧
          ∀ a, found = some a →
            Store.ledgerOf turns key = some (a, f, i)) ∧
      (∀ key a, s.peek clock key = some a →
        ∃ f i, Store.ledgerOf turns key = some (a, f, i)) ∧
      ∀ typeName methodName,
        (methodName.isSome → '#' ∉ typeName.toList) → ∃ n s',
          Store.invalidate clock typeName methodName s = (.ok n, s') ∧
          s'.session.entries = s.session.entries.keep
            (fun k _ => !k.isOf typeName methodName) ∧
          ∀ d, s.durable = some d → ∃ d' before,
            s'.durable = some d' ∧ d'.loaded = true ∧
            (d.loaded = true → before = d.entries.entries) ∧
            (d.loaded = false → ∃ E,
              readEntries s.files d.path clock.timeOfDay = .ok E ∧
                before = E.entries.filter (d.keeps clock.timeOfDay)) ∧
            d'.entries.entries = before.filter fun e =>
              !(MethodKey.ofText e.1).isOf typeName methodName := by
  obtain ⟨first, times, htimes⟩ : ∃ first times,
      turns.map (·.1.timeOfDay) ++ [clock.timeOfDay] = first :: times :=
    List.exists_cons_of_ne_nil (by simp)
  have hstart : (Store.fresh maxEntries ttl durable files).Follows
      (fun _ => none) first := by
    refine ⟨Store.room_fresh maxEntries ttl _ _, SessionTier.obeys_empty rfl,
      fun shelf hs => ?_⟩
    obtain ⟨d, hd, rfl⟩ := Option.map_eq_some_iff.1 hs
    exact ⟨{}, .start (hnew d hd) (hempty d hd)⟩
  have hnow := (hclock.1 clock.timeOfDay (by simp) :
    Instant clock.timeOfDay)
  rw [htimes] at hclock
  have hagain := hclock.again
  rw [← htimes] at hagain
  obtain ⟨s, hplay, hfollows⟩ :=
    hstart.play turns hagain hplain hwritable hwritten
  refine ⟨s, hplay, fun key f i hkey => ?_, fun key a hpeek =>
    hfollows.peek hpeek, fun typeName methodName hmeant => ?_⟩
  · obtain ⟨found, s', hlookup, hfound, -⟩ :=
      hfollows.lookup hnow hnow hnow.le_refl hkey
    exact ⟨found, s', hlookup, hfound⟩
  · obtain ⟨n, s', hrun, hsession, -⟩ :=
      hfollows.invalidate hnow hnow hnow.le_refl
    refine ⟨n, s', hrun, by rw [hsession]; rfl, fun d hd => ?_⟩
    exact hfollows.durable_invalidate hnow hnow hnow.le_refl hmeant hrun hd

/-- The file breaks off after a bracket; an analysis is set, and the program
starts again with other limits. -/
theorem store_refines_ledger_restarted :
    let key : MethodKey := ⟨"A", "m"⟩
    let a : Analysis := ⟨"A", "m", "java", .complete, [], {}, "f", .zero,
      none, none⟩
    let turns : List (Clock × Store.Turn) :=
      [(⟨.zero, .zero⟩, .act (.store key a "f" "i" "")),
       (⟨.zero, .ofInt 1⟩, .restart 2 (.ofInt 5))]
    let start : Store := .fresh 1 (.ofInt 5)
      (some (shelfOver [0x7b]).tier) (shelfOver [0x7b]).files
    Ascending (turns.map (·.1.timeOfDay) ++
      [(⟨.zero, .ofInt 2⟩ : Clock).timeOfDay]) ∧
    Store.Written turns start ∧
    ∃ s, Store.play turns start = (.ok (), s) ∧
      ∃ found s', Store.lookup ⟨.zero, .ofInt 2⟩ key "f" "i" s =
        (.ok found, s') ∧ ∀ b, found = some b →
          Store.ledgerOf turns key = some (b, "f", "i") := by
  intro key a turns start
  have hclock : Ascending (turns.map (·.1.timeOfDay) ++
      [(⟨.zero, .ofInt 2⟩ : Clock).timeOfDay]) := by decide
  have ha : a.Writable := .of_no_calls rfl rfl (by decide)
  have hkey : key.HasPlainType := by
    show '#' ∉ "A".toList
    decide
  have hwritten : Store.Written turns start := by
    refine ⟨fun _ shelf hs => ?_, trivial, trivial⟩
    obtain rfl := Option.some.inj hs
    exact (Shelf.written_of_savable
      [((⟨.zero, .zero⟩ : Clock).timeOfDay, .store key a "f" "i" "")]
      (.inr usable_torn) (savable_shelfOver _)).1
  obtain ⟨s, hplay, hlookup, -⟩ := store_refines_ledger 1 (.ofInt 5)
    (some (shelfOver [0x7b]).tier) (shelfOver [0x7b]).files turns
    ⟨.zero, .ofInt 2⟩ (by rintro _ ⟨⟩; rfl) (by rintro _ ⟨⟩; exact readEntries_torn)
    hclock (by simpa [turns, Store.Turn.Plain, Use.Plain] using hkey)
    (by simpa [turns, Store.Turn.Writable, Use.Writable] using ha) hwritten
  exact ⟨hclock, hwritten, s, hplay, hlookup key "f" "i" hkey⟩

end Cache

end CallTrace
