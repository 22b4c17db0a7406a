/-
What the session tier holds, and how much of it.

An analysis is held from the moment it is set, and so is one that was
served. The durable tier has no part in this: what is done there leaves
the session tier as it is, except that an analysis found there is set here.

Nothing but setting an analysis adds an entry, and then room is made first.
So the tier never holds more than it may, and the time in an entry is the
time at which its analysis was set, however often it was served since.
-/
import CallTrace.Cache.Store
import CallTrace.Proofs.Action
import CallTrace.Proofs.Cache.Table

namespace CallTrace.Cache

open Number (Double)

variable {key : MethodKey} {a : Analysis} {f i : String}

namespace SessionTier

variable {s s' : SessionTier} {now : Double}

/-- What setting an analysis does: a key that is there gets a new entry in
its place, and for a new key room is made first. -/
theorem set_cases (h : s.set now key a f i = .ok s') :
    ∃ room : SessionTier,
      (s.entries.contains key = true ∧ room = s ∨
        s.entries.contains key = false ∧ s.makeRoom = .ok room) ∧
      s' = { room with entries := room.entries.put key ⟨a, now, f, i, 0⟩ } := by
  rw [set] at h
  rcases hk : s.entries.contains key with _ | _ <;> rw [hk] at h
  · rcases hr : s.makeRoom with e | room <;> rw [hr] at h
    · exact absurd h (by simp [bind, Except.bind])
    · cases h
      exact ⟨room, .inr ⟨rfl, rfl⟩, rfl⟩
  · cases h
    exact ⟨s, .inl ⟨rfl, rfl⟩, rfl⟩

/-- A tier that may hold something takes every analysis. -/
theorem set_ok (now : Double) (key : MethodKey) (a : Analysis)
    (f i : String) (h : 0 < s.maxEntries) :
    ∃ s', s.set now key a f i = .ok s' ∧ s'.maxEntries = s.maxEntries := by
  have hevict : ∀ n, (s.evict n).maxEntries = s.maxEntries := by
    intro n
    induction n generalizing s with
    | zero => rfl
    | succ n ih =>
      have hone : s.evictOldest.maxEntries = s.maxEntries := by
        rw [evictOldest]
        split <;> rfl
      exact (ih (hone.symm ▸ h)).trans hone
  rcases hk : s.entries.contains key with _ | _
  · have hroom : s.makeRoom =
        .ok (s.evict (s.entries.size + 1 - s.maxEntries.toNat)) := by
      rw [makeRoom, if_neg (by omega)]
    refine ⟨{ s.evict (s.entries.size + 1 - s.maxEntries.toNat) with
      entries := (s.evict (s.entries.size + 1 - s.maxEntries.toNat)).entries.put
        key ⟨a, now, f, i, 0⟩ }, ?_, hevict _⟩
    rw [set, hk, hroom]
    rfl
  · refine ⟨{ s with entries := s.entries.put key ⟨a, now, f, i, 0⟩ }, ?_,
      rfl⟩
    rw [set, hk]
    rfl

theorem maxEntries_get (s : SessionTier) (now : Double) (key : MethodKey)
    (f i : Option String) : (s.get now key f i).2.maxEntries = s.maxEntries := by
  rw [get]
  split
  · split <;> rfl
  · rfl

/-- What is served is in an entry that is young enough and fits, which is
counted and stays where it is. -/
theorem get_cases (h : (s.get now key (some f) (some i)).1 = some a) :
    ∃ e : Held, s.entries.get? key = some e ∧ e.analysis = a ∧
      s.expired now e = false ∧ e.fingerprint = f ∧ e.identity = i ∧
      (s.get now key (some f) (some i)).2 = s.hit key e := by
  rcases hk : s.entries.get? key with _ | e
  · rw [get, hk] at h
    exact absurd h (by simp)
  by_cases hbad : (s.expired now e || !e.fits (some f) (some i)) = true
  · simp only [get, hk, if_pos hbad] at h
    exact absurd h (by simp)
  · have hrun : s.get now key (some f) (some i) =
        (some e.analysis, s.hit key e) := by
      simp only [get, hk, if_neg hbad]
    rw [hrun] at h ⊢
    simp only [Bool.or_eq_true, not_or, Held.fits, Option.all_some,
      Bool.not_eq_true', Bool.not_eq_false, Bool.and_eq_true,
      beq_iff_eq] at hbad
    exact ⟨e, rfl, Option.some.inj h, by simpa using hbad.1, hbad.2.1,
      hbad.2.2, rfl⟩

/-- An entry that is young enough can be seen. -/
theorem peek_eq_some {e : Held} (h : s.entries.get? key = some e)
    (hfresh : s.expired now e = false) :
    s.peek now key = some e.analysis := by
  rw [peek, h, Option.filter_some, if_pos (by rw [hfresh]; rfl),
    Option.map_some]

/-- The tier holds the analysis under the key, as made from the source of
the fingerprint by the oracle of the identity. -/
def Holds (s : SessionTier) (key : MethodKey) (a : Analysis)
    (fingerprint identity : String) : Prop :=
  ∃ h : Held, (key, h) ∈ s.entries.entries ∧ h.analysis = a ∧
    h.fingerprint = fingerprint ∧ h.identity = identity

/-- What is set is held. -/
theorem Holds.of_set (h : s.set now key a f i = .ok s') :
    s'.Holds key a f i := by
  obtain ⟨room, -, rfl⟩ := set_cases h
  exact ⟨_, Table.mem_put_self _ _ _, rfl, rfl, rfl⟩

/-- What is served is held. -/
theorem Holds.of_get (h : (s.get now key (some f) (some i)).1 = some a) :
    (s.get now key (some f) (some i)).2.Holds key a f i := by
  obtain ⟨e, -, ha, -, hf, hi, hrun⟩ := get_cases h
  rw [hrun]
  exact ⟨_, Table.mem_put_self _ _ _, ha, hf, hi⟩

-- ============================================================= limits

/-- The oldest entry is an entry. -/
theorem oldest?_mem {es : List (MethodKey × Held)} {k : MethodKey}
    (h : oldest? es = some k) : k ∈ es.map (·.1) := by
  cases es with
  | nil => exact absurd h (by simp [oldest?])
  | cons e rest =>
    have hmem : ∀ (es : List (MethodKey × Held)) (best : MethodKey × Held),
        es.foldl (fun best f =>
          if f.2.insertedAt.lt best.2.insertedAt then f else best) best ∈
          best :: es := by
      intro es
      induction es with
      | nil => exact fun best => List.mem_cons_self ..
      | cons f es ih =>
        intro best
        rw [List.foldl_cons]
        split
        · exact List.mem_cons_of_mem _ (ih f)
        · rcases List.mem_cons.1 (ih best) with h | h
          · rw [h]
            exact List.mem_cons_self ..
          · exact List.mem_cons_of_mem _ (List.mem_cons_of_mem _ h)
    rw [← Option.some.inj h]
    exact List.mem_map_of_mem (hmem rest e)

/-- Dropping the oldest entry leaves one entry less, if there was one. -/
theorem size_evictOldest (s : SessionTier) :
    s.evictOldest.entries.size = s.entries.size - 1 := by
  rw [evictOldest]
  split
  · rename_i k hk
    exact Table.size_erase_of_mem _ (oldest?_mem hk)
  · rename_i hnone
    rcases he : s.entries.entries with _ | ⟨e, rest⟩
    · rw [Table.size, he]
      rfl
    · rw [he] at hnone
      exact absurd hnone (by simp [oldest?])

/-- Each eviction drops one entry, as long as there is one. -/
theorem size_evict (s : SessionTier) (n : Nat) :
    (s.evict n).entries.size = s.entries.size - n := by
  induction n generalizing s with
  | zero => rfl
  | succ n ih =>
    rw [evict, ih, size_evictOldest]
    omega

/-- The tier has the given limits and keeps to its capacity, and of every
entry `Q` tells under which key and when its analysis was set. -/
structure Bounded (capacity : Int) (ttl : Double)
    (Q : MethodKey → Analysis → Double → Prop) (s : SessionTier) : Prop where
  maxEntries : s.maxEntries = capacity
  ttl : s.ttl = ttl
  size : s.entries.size ≤ capacity
  dated : ∀ e ∈ s.entries.entries, Q e.1 e.2.analysis e.2.insertedAt

namespace Bounded

variable {capacity : Int} {ttl : Double}
  {Q Q' : MethodKey → Analysis → Double → Prop}

theorem mono (h : s.Bounded capacity ttl Q)
    (hQ : ∀ k a time, Q k a time → Q' k a time) :
    s.Bounded capacity ttl Q' :=
  { h with dated := fun e he => hQ _ _ _ (h.dated e he) }

/-- Keeping some of the entries keeps the bound. -/
theorem keep (h : s.Bounded capacity ttl Q)
    (p : MethodKey → Held → Bool) :
    { s with entries := s.entries.keep p }.Bounded capacity ttl Q where
  maxEntries := h.maxEntries
  ttl := h.ttl
  size := by
    have hle := s.entries.size_keep_le p
    have hsize := h.size
    show ((s.entries.keep p).size : Int) ≤ capacity
    omega
  dated e he := h.dated e (Table.mem_keep.1 he).1

/-- An empty tier keeps to every bound. -/
theorem clear (h : s.Bounded capacity ttl Q) :
    s.clear.Bounded capacity ttl Q where
  maxEntries := h.maxEntries
  ttl := h.ttl
  size := by
    have hsize := h.size
    show ((0 : Nat) : Int) ≤ capacity
    omega
  dated e he := absurd he List.not_mem_nil

/-- A lookup adds no entry and leaves the times as they are. -/
theorem get (h : s.Bounded capacity ttl Q) (now : Double)
    (key : MethodKey) (f i : Option String) :
    (s.get now key f i).2.Bounded capacity ttl Q := by
  rw [SessionTier.get]
  split
  · rename_i e he
    have hmem := Table.mem_of_get? he
    split
    · exact { h.keep fun k _ => k ≠ key with }
    · refine ⟨h.maxEntries, h.ttl, ?_, fun g hg => ?_⟩
      · have hk : s.entries.contains key = true :=
          List.contains_iff_mem.2 (List.mem_map_of_mem hmem)
        show (((s.entries.put key _).size : Nat) : Int) ≤ capacity
        rw [Table.size_put_of_contains _ _ hk]
        exact h.size
      · rcases Table.mem_put hg with rfl | hg
        · exact h.dated (key, e) hmem
        · exact h.dated g hg
  · exact { h.keep fun k _ => k ≠ key with }

/-- Dropping the oldest entries keeps the bound. -/
theorem evict (h : s.Bounded capacity ttl Q) (n : Nat) :
    (s.evict n).Bounded capacity ttl Q := by
  induction n generalizing s with
  | zero => exact h
  | succ n ih =>
    refine ih ?_
    rw [evictOldest]
    split
    · exact { h.keep fun k _ => k ≠ _ with }
    · exact h

/-- Setting an analysis keeps to the capacity. -/
theorem set (h : s.Bounded capacity ttl Q) (ha : Q key a now)
    (hs : s.set now key a f i = .ok s') : s'.Bounded capacity ttl Q := by
  obtain ⟨room, hroom, rfl⟩ := set_cases hs
  have hput : ∀ {r : SessionTier}, r.Bounded capacity ttl Q →
      ((r.entries.put key ⟨a, now, f, i, 0⟩).size : Int) ≤ capacity →
      { r with entries := r.entries.put key ⟨a, now, f, i, 0⟩ }.Bounded
        capacity ttl Q := by
    intro r hr hsize
    refine ⟨hr.maxEntries, hr.ttl, hsize, fun e he => ?_⟩
    rcases Table.mem_put he with rfl | he
    · exact ha
    · exact hr.dated e he
  rcases hroom with ⟨hk, rfl⟩ | ⟨-, hroom⟩
  · refine hput h ?_
    rw [Table.size_put_of_contains _ _ hk]
    exact h.size
  · rw [makeRoom] at hroom
    split at hroom
    · exact absurd hroom (by simp)
    · rename_i hpos
      cases hroom
      refine hput (h.evict _) ?_
      have hle : ((s.evict (s.entries.size + 1 - s.maxEntries.toNat)).entries.put
          key ⟨a, now, f, i, 0⟩).size ≤
          (s.evict (s.entries.size + 1 - s.maxEntries.toNat)).entries.size + 1 := by
        rcases hk : (s.evict _).entries.contains key with _ | _
        · exact Nat.le_of_eq (Table.size_put_of_new _ _ hk)
        · rw [Table.size_put_of_contains _ _ hk]
          exact Nat.le_succ _
      rw [size_evict] at hle
      have := h.maxEntries
      omega

end Bounded

end SessionTier

namespace Store

variable {s s' : Store} {clock : Clock}

/-- What is set in the session tier is all that changes. -/
theorem hold_cases (h : hold clock key a f i s = (.ok (), s')) :
    ∃ tier, s.session.set clock.elapsed key a f i = .ok tier ∧
      s' = { s with session := tier } := by
  simp only [hold, Action.bind_run, Action.get_run, Action.liftExcept_run,
    Action.set_run] at h
  rcases hs : s.session.set clock.elapsed key a f i with e | tier <;>
    rw [hs] at h <;> cases h
  exact ⟨tier, rfl, rfl⟩

/-- An analysis that cannot be set changes nothing. -/
theorem hold_error {e : Failure}
    (h : hold clock key a f i s = (.error e, s')) : s' = s := by
  simp only [hold, Action.bind_run, Action.get_run, Action.liftExcept_run,
    Action.set_run] at h
  rcases hs : s.session.set clock.elapsed key a f i with e | tier <;>
    rw [hs] at h <;> cases h
  rfl

/-- Without a durable tier there is nothing to be done with it. -/
theorem onShelf_undurable {α : Type} {absent : α} {act : Action Shelf α}
    (h : s.durable = none) : onShelf absent act s = (.ok absent, s) := by
  rw [onShelf, shelf?, h]
  rfl

/-- What the durable tier does leaves the session tier as it is. -/
theorem session_onShelf {α : Type} (absent : α) (act : Action Shelf α)
    (s : Store) : (onShelf absent act s).2.session = s.session := by
  rw [onShelf]
  split <;> rfl

/-- What a lookup finds, the session tier holds from then on. -/
theorem holds_lookup (h : (lookup clock key f i s).1 = .ok (some a)) :
    (lookup clock key f i s).2.session.Holds key a f i := by
  rw [lookup] at h ⊢
  rcases hg : s.session.get clock.elapsed key (some f) (some i) with
    ⟨found, tier⟩
  have hsession : onSession (·.get clock.elapsed key (some f)
      (some i)) s = (.ok found, { s with session := tier }) := by
    rw [onSession, hg]
  rw [Action.bind_ok hsession] at h ⊢
  rcases found with _ | b
  · simp only [takeOver] at h ⊢
    rcases hd : onShelf none (Shelf.lookup clock.timeOfDay key f i)
      { s with session := tier } with ⟨e | found, s'⟩
    · rw [Action.bind_error hd] at h
      exact absurd h (by simp)
    rw [Action.bind_ok hd] at h ⊢
    rcases found with _ | b
    · exact absurd h (by simp [Action.pure_run])
    rcases hh : hold clock key b f i s' with ⟨e | u, s''⟩
    · simp only [Action.bind_error hh] at h
      exact absurd h (by simp)
    · simp only [Action.bind_ok hh] at h ⊢
      cases h
      obtain ⟨tier', hset, rfl⟩ := hold_cases hh
      exact .of_set hset
  · cases h
    have hserved : (s.session.get clock.elapsed key (some f) (some i)).1 =
        some a := by rw [hg]
    have hheld := SessionTier.Holds.of_get hserved
    rw [hg] at hheld
    exact hheld

/-- What is filed, the session tier holds from then on. -/
theorem holds_store {path : String}
    (h : store clock key a f i path s = (.ok (), s')) :
    s'.session.Holds key a f i := by
  rw [store] at h
  rcases hh : hold clock key a f i s with ⟨e | u, s''⟩
  · rw [Action.bind_error hh] at h
    cases h
  · rw [Action.bind_ok hh] at h
    have hsession := session_onShelf () (Shelf.store clock.timeOfDay
      key a f i path) s''
    rw [h] at hsession
    obtain ⟨tier, hset, rfl⟩ := hold_cases hh
    exact hsession ▸ .of_set hset

end Store

end CallTrace.Cache
