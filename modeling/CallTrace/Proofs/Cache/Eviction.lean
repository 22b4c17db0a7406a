/-
What the session tier drops to make room, and what it counts.

Whatever was done with a tier, each of its entries is what was set last
under its key, and there are never more of them than it may hold. So a new
key pushes out one entry at most, and only where the tier is full. The
entry that goes is one that was set no later than any other. It is then no
younger than any other whenever ages are taken, and no entry that may still
be served goes while there is one that may not.

The counts are told by what was done since the tier was last cleared: the
lookups, served or not, and the entries that setting other keys pushed
out.
-/
import CallTrace.Proofs.Cache.SessionTier
import CallTrace.Proofs.Number.Rounding

namespace CallTrace.Cache.SessionTier

open Number (Double)

variable {s s' : SessionTier} {now : Double} {key : MethodKey} {a : Analysis}

-- ===================================================== the oldest entry

/-- The entry was set no later than any other. -/
def IsOldest (s : SessionTier) (e : MethodKey × Held) : Prop :=
  e ∈ s.entries.entries ∧
    ∀ f ∈ s.entries.entries, e.2.insertedAt.le f.2.insertedAt = true

/-- The times at which the entries were set are finite. -/
def Timed (s : SessionTier) : Prop :=
  ∀ e ∈ s.entries.entries, e.2.insertedAt.isFinite = true

/-- Of two entries the one that was set earlier, or else the first. -/
def earlier (e f : MethodKey × Held) : MethodKey × Held :=
  if f.2.insertedAt.lt e.2.insertedAt then f else e

/-- What is found on going through entries with finite times is one of
them, and no later than any. -/
theorem foldl_earlier (es : List (MethodKey × Held)) :
    ∀ e, (∀ f ∈ e :: es, f.2.insertedAt.isFinite = true) →
      es.foldl earlier e ∈ e :: es ∧
      ∀ f ∈ e :: es, (es.foldl earlier e).2.insertedAt.value ≤
        f.2.insertedAt.value := by
  induction es with
  | nil => simp
  | cons g es ih =>
    intro e hfinite
    obtain ⟨he, hrest⟩ := List.forall_mem_cons.1 hfinite
    obtain ⟨hg, hes⟩ := List.forall_mem_cons.1 hrest
    rw [List.foldl_cons, earlier]
    by_cases hlt : g.2.insertedAt.lt e.2.insertedAt = true
    · rw [if_pos hlt]
      obtain ⟨hmem, hle⟩ := ih g hrest
      refine ⟨List.mem_cons_of_mem _ hmem,
        List.forall_mem_cons.2 ⟨?_, hle⟩⟩
      exact (hle g (List.mem_cons_self ..)).trans
        ((Double.lt_iff hg he).1 hlt).le
    · rw [if_neg hlt]
      obtain ⟨hmem, hle⟩ := ih e (List.forall_mem_cons.2 ⟨he, hes⟩)
      have hfirst := hle e (List.mem_cons_self ..)
      refine ⟨?_, List.forall_mem_cons.2 ⟨hfirst,
        List.forall_mem_cons.2 ⟨hfirst.trans ?_, fun f hf =>
          hle f (List.mem_cons_of_mem _ hf)⟩⟩⟩
      · rcases List.mem_cons.1 hmem with hmem | hmem
        · rw [hmem]
          exact List.mem_cons_self ..
        · exact List.mem_cons_of_mem _ (List.mem_cons_of_mem _ hmem)
      · rwa [Double.lt_iff hg he, not_lt] at hlt

/-- Of entries with finite times one that no other precedes is found. -/
theorem oldest?_spec {es : List (MethodKey × Held)} {k : MethodKey}
    (hes : ∀ e ∈ es, e.2.insertedAt.isFinite = true)
    (h : oldest? es = some k) :
    ∃ e ∈ es, e.1 = k ∧
      ∀ f ∈ es, e.2.insertedAt.le f.2.insertedAt = true := by
  cases es with
  | nil => cases h
  | cons e rest =>
    obtain ⟨hmem, hle⟩ := foldl_earlier rest e hes
    refine ⟨_, hmem, Option.some.inj h, fun f hf => ?_⟩
    exact (Double.le_iff (hes _ hmem) (hes f hf)).2 (hle f hf)

/-- One eviction drops an oldest entry and counts it. -/
theorem evictOldest_spec (h : s.Timed) (hsize : 0 < s.entries.size) :
    ∃ e, s.IsOldest e ∧
      s.evictOldest = { s with
        entries := s.entries.erase e.1, evictions := s.evictions + 1 } := by
  rcases ho : oldest? s.entries.entries with _ | k
  · rcases he : s.entries.entries with _ | ⟨e, rest⟩
    · rw [Table.size, he] at hsize
      exact absurd hsize (Nat.lt_irrefl 0)
    · rw [he] at ho
      cases ho
  · obtain ⟨e, hmem, rfl, hle⟩ := oldest?_spec h ho
    exact ⟨e, ⟨hmem, hle⟩, by rw [evictOldest, ho]⟩

/-- An oldest entry is past its age whenever some entry is. -/
theorem IsOldest.expired {e : MethodKey × Held} (he : s.IsOldest e)
    (h : s.Timed) (hnow : now.isFinite = true)
    (hsome : ∃ f ∈ s.entries.entries, s.expired now f.2 = true) :
    s.expired now e.2 = true := by
  obtain ⟨f, hf, hexpired⟩ := hsome
  exact Double.lt_sub_anti hnow (h e he.1) (h f hf) (he.2 f hf) hexpired

-- ============================================================== setting

/-- Setting drops nothing if the key is there or the tier is not full.
Otherwise it drops one entry, an oldest one. -/
theorem set_spec (h : s.Timed) (hpos : 1 ≤ s.maxEntries)
    (hsize : s.entries.size ≤ s.maxEntries) (now : Double) (key : MethodKey)
    (a : Analysis) (f i : String) :
    (s.entries.contains key = true ∨ s.entries.size < s.maxEntries →
      s.set now key a f i = .ok { s with
        entries := s.entries.put key ⟨a, now, f, i, 0⟩ }) ∧
    (s.entries.contains key = false → ¬s.entries.size < s.maxEntries →
      ∃ e, s.IsOldest e ∧ s.set now key a f i = .ok { s with
        entries := (s.entries.erase e.1).put key ⟨a, now, f, i, 0⟩
        evictions := s.evictions + 1 }) := by
  have hroom : ∀ {n}, s.entries.size + 1 - s.maxEntries.toNat = n →
      s.makeRoom = .ok (s.evict n) := by
    intro n hn
    rw [makeRoom, if_neg (by omega), hn]
  constructor
  · intro hno
    rw [set]
    rcases hk : s.entries.contains key with _ | _
    · have hlt := hno.resolve_left (by simp [hk])
      rw [hroom (n := 0) (by omega)]
      rfl
    · rfl
  · intro hk hfull
    obtain ⟨e, he, hevict⟩ := evictOldest_spec h (by omega)
    refine ⟨e, he, ?_⟩
    rw [set, hk, hroom (n := 1) (by omega), evict, evict, hevict]
    rfl

-- ============================================================== getting

/-- The entry may be served: it is young enough, and fits what is given of
the source and the oracle. -/
structure Served (s : SessionTier) (now : Double)
    (fingerprint identity : Option String) (h : Held) : Prop where
  young : (now - h.insertedAt).le s.ttl = true
  fingerprint : ∀ f ∈ fingerprint, h.fingerprint = f
  identity : ∀ i ∈ identity, h.identity = i

/-- For finite times an entry is served just when it has not expired and
fits what is asked for. -/
theorem served_iff {h : Held} {f i : Option String} (httl : s.ttl ≠ .nan)
    (hnow : now.isFinite = true) (hh : h.insertedAt.isFinite = true) :
    s.Served now f i h ↔
      (s.expired now h || !h.fits f i) = false := by
  have hyoung : s.expired now h = false ↔
      (now - h.insertedAt).le s.ttl = true :=
    Double.lt_eq_false_iff httl (Double.sub_ne_nan hnow hh)
  rw [Bool.or_eq_false_iff, hyoung, Bool.not_eq_false', Held.fits,
    Bool.and_eq_true, Option.all_eq_true, Option.all_eq_true]
  simp only [beq_iff_eq]
  exact ⟨fun h => ⟨h.young, h.fingerprint, h.identity⟩,
    fun h => ⟨h.1, h.2.1, h.2.2⟩⟩

/-- A lookup finds the entry under its key if that may be served, and
otherwise leaves none there. -/
theorem get_spec (h : s.Timed) (httl : s.ttl ≠ .nan)
    (hnow : now.isFinite = true) (key : MethodKey) (f i : Option String) :
    (∀ a, (s.get now key f i).1 = some a ↔ ∃ e, s.entries.get? key = some e ∧
      s.Served now f i e ∧ e.analysis = a) ∧
    ((s.get now key f i).1 = none →
      (s.get now key f i).2.entries.get? key = none) := by
  have hmiss : (s.miss key).entries.get? key = none := by
    rcases hg : (s.miss key).entries.get? key with _ | e
    · rfl
    · have hmem := Table.mem_keep.1 (Table.mem_of_get? hg)
      simp at hmem
  rcases hk : s.entries.get? key with _ | e
  · simp only [get, hk]
    exact ⟨fun a => by simp, fun _ => hmiss⟩
  · have hserved := served_iff (f := f) (i := i) httl hnow
      (h _ (Table.mem_of_get? hk))
    simp only [get, hk, Option.some.injEq, exists_eq_left']
    rcases hbad : s.expired now e || !e.fits f i with _ | _
    · rw [hbad] at hserved
      simp [hserved]
    · rw [hbad] at hserved
      simp [hserved, hmiss]

-- ============================================================== history

/-- What can be done with the tier. -/
inductive Use where
  | get (key : MethodKey) (fingerprint identity : Option String)
  | peek (key : MethodKey)
  | set (key : MethodKey) (a : Analysis) (fingerprint identity : String)
  | invalidate (typeName : String) (methodName : Option String)
  | cleanup
  | clear
  | recordTime (ms : Double)

/-- The tier after a use. -/
def Use.perform (now : Double) (s : SessionTier) :
    Use → Except Failure SessionTier
  | get key f i => .ok (s.get now key f i).2
  | peek _ => .ok s
  | set key a f i => s.set now key a f i
  | invalidate typeName methodName => .ok (s.invalidate typeName methodName).2
  | cleanup => .ok (s.cleanup now).2
  | clear => .ok s.clear
  | recordTime ms => .ok (s.recordTime ms)

/-- What was done with a tier and when, the last first. -/
abbrev History := List (Double × Use)

/-- The tier after all that was done with it. -/
def after (s : SessionTier) : History → Except Failure SessionTier
  | [] => .ok s
  | (now, use) :: past => do use.perform now (← s.after past)

/-- The keys in the tier after all that was done with it. -/
def keysAfter (s : SessionTier) (past : History) : List MethodKey :=
  match s.after past with
  | .ok s' => s'.entries.keys
  | .error _ => []

namespace History

/-- The entry that was set last under a key. -/
def lastSet (key : MethodKey) : History → Option Held
  | [] => none
  | (now, .set k a f i) :: past =>
    if k = key then some ⟨a, now, f, i, 0⟩ else lastSet key past
  | _ :: past => lastSet key past

/-- The lookups since the tier was last cleared. -/
def lookups : History → Nat
  | [] => 0
  | (_, .clear) :: _ => 0
  | (_, .get ..) :: past => lookups past + 1
  | _ :: past => lookups past

/-- The keys that setting other keys pushed out of the tier since it was
last cleared. -/
def pushedOut (s : SessionTier) : History → Nat
  | [] => 0
  | (_, .clear) :: _ => 0
  | (now, .set key a f i) :: past =>
    pushedOut s past + ((s.keysAfter past).filter
      (· ∉ s.keysAfter ((now, .set key a f i) :: past))).length
  | _ :: past => pushedOut s past

end History

/-- A tier with its limits that holds nothing. -/
def fresh (maxEntries : Int) (ttl : Double) : SessionTier :=
  { maxEntries := maxEntries, ttl := ttl }

/-- The tier keeps to its limits, its entries are the last that were set,
and its counts are those of its history. -/
structure Recorded (maxEntries : Int) (ttl : Double) (past : History)
    (s : SessionTier) : Prop where
  after : (fresh maxEntries ttl).after past = .ok s
  bounded : s.Bounded maxEntries ttl fun _ _ time => time.isFinite = true
  last : ∀ e ∈ s.entries.entries,
    past.lastSet e.1 = some { e.2 with uses := 0 }
  lookups : s.hits + s.misses = past.lookups
  evictions : s.evictions = past.pushedOut (fresh maxEntries ttl)

namespace Recorded

variable {maxEntries : Int} {ttl : Double} {past : History}

theorem timed (h : Recorded maxEntries ttl past s) : s.Timed :=
  h.bounded.dated

theorem keysAfter (h : Recorded maxEntries ttl past s) :
    (fresh maxEntries ttl).keysAfter past = s.entries.keys := by
  rw [SessionTier.keysAfter, h.after]

theorem fresh (hmax : 1 ≤ maxEntries) (ttl : Double) :
    Recorded maxEntries ttl [] (fresh maxEntries ttl) where
  after := rfl
  bounded := ⟨rfl, rfl, show (0 : Int) ≤ maxEntries by omega,
    fun e he => absurd he List.not_mem_nil⟩
  last e he := absurd he List.not_mem_nil
  lookups := rfl
  evictions := rfl

theorem after_cons (h : Recorded maxEntries ttl past s) (use : Use) :
    (SessionTier.fresh maxEntries ttl).after ((now, use) :: past) =
      use.perform now s := by
  rw [SessionTier.after, h.after]
  rfl

/-- A use that drops entries and changes no count. -/
theorem keep (h : Recorded maxEntries ttl past s) {use : Use}
    (p : MethodKey → Held → Bool)
    (hs' : use.perform now s = .ok { s with entries := s.entries.keep p })
    (hlast : ∀ key, History.lastSet key ((now, use) :: past) =
      past.lastSet key)
    (hlookups : History.lookups ((now, use) :: past) = past.lookups)
    (hpushed : History.pushedOut (.fresh maxEntries ttl)
      ((now, use) :: past) = past.pushedOut (.fresh maxEntries ttl)) :
    Recorded maxEntries ttl ((now, use) :: past)
      { s with entries := s.entries.keep p } where
  after := h.after_cons use ▸ hs'
  bounded := h.bounded.keep p
  last e he := hlast e.1 ▸ h.last e (Table.mem_keep.1 he).1
  lookups := hlookups ▸ h.lookups
  evictions := hpushed ▸ h.evictions

/-- A lookup is counted, and at most counted in the entry that it finds. -/
theorem get (h : Recorded maxEntries ttl past s) (now : Double)
    (key : MethodKey) (f i : Option String) :
    Recorded maxEntries ttl ((now, .get key f i) :: past)
      (s.get now key f i).2 := by
  have hmiss : ∀ e ∈ (s.miss key).entries.entries,
      past.lastSet e.1 = some { e.2 with uses := 0 } := fun e he =>
    h.last e (Table.mem_keep.1 he).1
  refine ⟨h.after_cons _, h.bounded.get now key f i, fun e he => ?_, ?_, ?_⟩
  · show past.lastSet e.1 = _
    rw [SessionTier.get] at he
    split at he
    · rename_i g hg
      split at he
      · exact hmiss e he
      · rcases Table.mem_put he with rfl | he
        · exact h.last (key, g) (Table.mem_of_get? hg)
        · exact h.last e he
    · exact hmiss e he
  · have hcount := h.lookups
    show _ = past.lookups + 1
    rw [SessionTier.get]
    split
    · split
      · simp only [miss]
        omega
      · simp only [hit]
        omega
    · simp only [miss]
      omega
  · show _ = past.pushedOut _
    rw [← h.evictions, SessionTier.get]
    split
    · split <;> rfl
    · rfl

/-- Setting an analysis counts what it pushes out. -/
theorem set (h : Recorded maxEntries ttl past s) (hmax : 1 ≤ maxEntries)
    (hnow : now.isFinite = true) (key : MethodKey) (a : Analysis)
    (f i : String) :
    ∃ s', s.set now key a f i = .ok s' ∧
      Recorded maxEntries ttl ((now, .set key a f i) :: past) s' := by
  have hlimit := h.bounded.maxEntries
  have hspec := set_spec h.timed (hlimit ▸ hmax) (hlimit ▸ h.bounded.size)
    now key a f i
  -- What is left of the entries has a new one under the key.
  have hlast : ∀ {T : Table MethodKey Held}, (∀ e ∈ T.entries,
        e ∈ s.entries.entries) →
      ∀ e ∈ (T.put key ⟨a, now, f, i, 0⟩).entries,
        History.lastSet e.1 ((now, .set key a f i) :: past) =
          some { e.2 with uses := 0 } := by
    intro T hT e he
    rw [History.lastSet]
    rcases Table.mem_put_of he with rfl | ⟨he, hne⟩
    · rw [if_pos rfl]
    · rw [if_neg (Ne.symm hne), h.last e (hT e he)]
  have hrecorded : ∀ {s' : SessionTier}, s.set now key a f i = .ok s' →
      (∀ e ∈ s'.entries.entries,
        History.lastSet e.1 ((now, .set key a f i) :: past) =
          some { e.2 with uses := 0 }) →
      s'.hits = s.hits → s'.misses = s.misses →
      s'.evictions = s.evictions +
        (s.entries.keys.filter (· ∉ s'.entries.keys)).length →
      Recorded maxEntries ttl ((now, .set key a f i) :: past) s' := by
    intro s' hs' hentries hhits hmisses hevictions
    have hafter : (SessionTier.fresh maxEntries ttl).after
        ((now, .set key a f i) :: past) = .ok s' := (h.after_cons _).trans hs'
    refine ⟨hafter, h.bounded.set hnow hs', hentries, ?_, ?_⟩
    · rw [hhits, hmisses]
      exact h.lookups
    · rw [History.pushedOut, hevictions, h.evictions, h.keysAfter,
        SessionTier.keysAfter, hafter]
  by_cases hno : s.entries.contains key = true ∨
      s.entries.size < s.maxEntries
  · refine ⟨_, hspec.1 hno, hrecorded (hspec.1 hno)
      (hlast fun e he => he) rfl rfl ?_⟩
    have hnone : s.entries.keys.filter (· ∉
        (s.entries.put key ⟨a, now, f, i, 0⟩).keys) = [] := by
      refine List.filter_eq_nil_iff.2 fun k hk => ?_
      simp [Table.mem_keys_put, hk]
    simp only [hnone, List.length_nil, Nat.add_zero]
  · obtain ⟨hk, hfull⟩ := not_or.1 hno
    have hk : s.entries.contains key = false := by simpa using hk
    obtain ⟨e, he, hs'⟩ := hspec.2 hk hfull
    refine ⟨_, hs', hrecorded hs'
      (hlast fun g hg => (Table.mem_keep.1 hg).1) rfl rfl ?_⟩
    have hkey : key ∉ s.entries.keys := fun hmem => by
      rw [Table.contains, List.contains_iff_mem.2 hmem] at hk
      cases hk
    have hnodup : s.entries.keys.Nodup := s.entries.nodup
    have hone : s.entries.keys.filter (· ∉
        ((s.entries.erase e.1).put key ⟨a, now, f, i, 0⟩).keys) =
          s.entries.keys.filter (· == e.1) := by
      refine List.filter_congr fun k hk => ?_
      have hne : k ≠ key := fun heq => hkey (heq ▸ hk)
      simp [Table.mem_keys_put, Table.keys_erase, hnodup.mem_erase_iff, hne,
        hk, Bool.beq_eq_decide_eq]
    simp only [hone, ← List.count_eq_length_filter,
      List.count_eq_one_of_mem hnodup (List.mem_map_of_mem he.1)]

/-- Every use keeps a tier recorded, and none fails. -/
theorem perform (h : Recorded maxEntries ttl past s) (hmax : 1 ≤ maxEntries)
    (hnow : now.isFinite = true) (use : Use) :
    ∃ s', use.perform now s = .ok s' ∧
      Recorded maxEntries ttl ((now, use) :: past) s' := by
  cases use with
  | get key f i => exact ⟨_, rfl, h.get now key f i⟩
  | peek key => exact ⟨s, rfl, { h with after := h.after_cons _ }⟩
  | set key a f i => exact h.set hmax hnow key a f i
  | invalidate typeName methodName =>
    exact ⟨_, rfl, h.keep _ rfl (fun _ => rfl) rfl rfl⟩
  | cleanup => exact ⟨_, rfl, h.keep _ rfl (fun _ => rfl) rfl rfl⟩
  | clear =>
    exact ⟨s.clear, rfl, h.after_cons _, h.bounded.clear,
      fun e he => absurd he List.not_mem_nil, rfl, rfl⟩
  | recordTime ms =>
    exact ⟨_, rfl, h.after_cons _, { h.bounded with }, h.last, h.lookups,
      h.evictions⟩

end Recorded

/-- Whatever was done with a tier, it is recorded. -/
theorem recorded_after {maxEntries : Int} (hmax : 1 ≤ maxEntries)
    (ttl : Double) (past : History)
    (htimes : ∀ e ∈ past, e.1.isFinite = true) :
    ∃ s, Recorded maxEntries ttl past s := by
  induction past with
  | nil => exact ⟨_, .fresh hmax ttl⟩
  | cons e past ih =>
    obtain ⟨htime, hrest⟩ := List.forall_mem_cons.1 htimes
    obtain ⟨s, hs⟩ := ih hrest
    obtain ⟨s', -, hs'⟩ := hs.perform hmax htime e.2
    exact ⟨s', hs'⟩

/-- Whatever is done with a tier that may hold something, at finite times
and for an age that is a number: it never holds more than it may, each
entry is what was set last under its key, and the counts are those of its
history since it was last cleared. Setting drops nothing unless the key is
new and the tier full, and then one entry, an oldest one, which is past its
age whenever some entry is. A lookup finds an entry that may be served, and
otherwise leaves none under its key. -/
theorem session_tier_kept {maxEntries : Int} (hmax : 1 ≤ maxEntries)
    {ttl : Double} (httl : ttl ≠ .nan) (past : History)
    (htimes : ∀ e ∈ past, e.1.isFinite = true) :
    ∃ s, (fresh maxEntries ttl).after past = .ok s ∧
      s.entries.size ≤ maxEntries ∧
      (∀ e ∈ s.entries.entries,
        past.lastSet e.1 = some { e.2 with uses := 0 }) ∧
      s.hits + s.misses = past.lookups ∧
      s.evictions = past.pushedOut (fresh maxEntries ttl) ∧
      (∀ now key a f i,
        (s.entries.contains key = true ∨ s.entries.size < maxEntries →
          s.set now key a f i = .ok { s with
            entries := s.entries.put key ⟨a, now, f, i, 0⟩ }) ∧
        (s.entries.contains key = false → ¬s.entries.size < maxEntries →
          ∃ e, s.IsOldest e ∧
            s.set now key a f i = .ok { s with
              entries := (s.entries.erase e.1).put key ⟨a, now, f, i, 0⟩
              evictions := s.evictions + 1 } ∧
            ∀ time, time.isFinite = true →
              (∃ g ∈ s.entries.entries, s.expired time g.2 = true) →
              s.expired time e.2 = true)) ∧
      ∀ now, now.isFinite = true → ∀ key f i,
        (∀ a, (s.get now key f i).1 = some a ↔
          ∃ e, s.entries.get? key = some e ∧ s.Served now f i e ∧
            e.analysis = a) ∧
        ((s.get now key f i).1 = none →
          (s.get now key f i).2.entries.get? key = none) := by
  obtain ⟨s, hs⟩ := recorded_after hmax ttl past htimes
  have hlimit := hs.bounded.maxEntries
  refine ⟨s, hs.after, hs.bounded.size, hs.last, hs.lookups, hs.evictions,
    fun now key a f i => ?_, fun now hnow key f i =>
      get_spec hs.timed (hs.bounded.ttl ▸ httl) hnow key f i⟩
  have hspec := set_spec hs.timed (hlimit ▸ hmax) (hlimit ▸ hs.bounded.size)
    now key a f i
  refine ⟨fun hno => hspec.1 (hlimit.symm ▸ hno), fun hk hfull => ?_⟩
  obtain ⟨e, he, hset⟩ := hspec.2 hk (hlimit.symm ▸ hfull)
  exact ⟨e, he, hset, fun time htime => he.expired hs.timed htime⟩

/-- A tier for one entry: an analysis is set, served, and pushed out by that
of another method. -/
theorem session_tier_kept_full :
    let a : Analysis := ⟨"A", "m", "java", .complete, [], {}, "f", .zero,
      none, none⟩
    let past : History :=
      [(.ofInt 2, .set ⟨"B", "n"⟩ a "f" "i"),
       (.ofInt 1, .get ⟨"A", "m"⟩ none none),
       (.zero, .set ⟨"A", "m"⟩ a "f" "i")]
    (1 : Int) ≤ 1 ∧ Double.ofInt 300 ≠ .nan ∧
    (∀ e ∈ past, e.1.isFinite = true) ∧
    ∃ s, (fresh 1 (.ofInt 300)).after past = .ok s ∧
      s.entries.size ≤ (1 : Int) ∧ s.hits + s.misses = 1 ∧
      s.evictions = 1 := by
  intro a past
  have htimes : ∀ e ∈ past, e.1.isFinite = true := by decide
  obtain ⟨s, hafter, hsize, -, hlookups, hevictions, -⟩ :=
    session_tier_kept (show (1 : Int) ≤ 1 by decide)
      (show Double.ofInt 300 ≠ .nan by decide) past htimes
  have hpushed : past.pushedOut (fresh 1 (.ofInt 300)) = 1 := by
    decide +kernel
  exact ⟨by decide, by decide, htimes, s, hafter, hsize, hlookups,
    hevictions.trans hpushed⟩

end CallTrace.Cache.SessionTier
