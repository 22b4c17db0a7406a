/-
What the session tier goes on holding.

A tier in which nothing grows too old gives up an analysis only for one of
two reasons: it is looked up by somebody who means another source or
another oracle, or another key pushes it out. Here every key is looked up
and set for one source and one oracle. So whatever is held is held on, as
long as nothing is pushed out and no key is set that is held already; and
it is served to everybody who asks for it.

What was pushed out is counted. As the count never goes down, one look at
it in the end tells whether anything was lost on the way.
-/
import CallTrace.Proofs.Cache.SessionTier

namespace CallTrace.Cache

open Number (Double)

variable {key : MethodKey} {a : Analysis} {i : String}

namespace SessionTier

variable {s s' s'' : SessionTier} {now : Double}

-- ============================================================== ageless

/-- The tier with no limit of age. -/
def ageless (s : SessionTier) : SessionTier :=
  { s with ttl := .infinite false }

theorem expired_of_infinite (h : s.ttl = .infinite false) (now : Double)
    (e : Held) : s.expired now e = false := by
  rw [expired, h]
  cases now - e.insertedAt with
  | nan => rfl
  | infinite negative => rfl
  | finite negative m e => rfl

-- ============================================================== holding

/-- The tier has nothing under the key. -/
def Lacks (s : SessionTier) (key : MethodKey) : Prop :=
  s.entries.get? key = none

theorem Lacks.not_holds {f : String} (h : s.Lacks key) :
    ¬s.Holds key a f i := by
  intro hheld
  obtain ⟨e, he, -⟩ := hheld
  rw [Lacks, Table.get?_eq_some_iff _ |>.2 he] at h
  exact absurd h (by simp)

theorem lacks_erase (s : SessionTier) (key : MethodKey) :
    (s.entries.erase key).get? key = none := by
  cases h : (s.entries.erase key).get? key with
  | none => rfl
  | some e =>
    have hkeep := (Table.mem_keep.1 (Table.mem_of_get? h)).2
    exact absurd hkeep (by simp)

/-- What is held is served. -/
theorem get_of_holds {f : String} (hs : s.ttl = .infinite false)
    (h : s.Holds key a f i) :
    ∃ e, s.get now key (some f) (some i) = (some a, s.hit key e) := by
  obtain ⟨e, he, rfl, rfl, rfl⟩ := h
  have hget := (Table.get?_eq_some_iff _).2 he
  refine ⟨e, ?_⟩
  rw [get, hget]
  simp [expired_of_infinite hs, Held.fits]

/-- What is not served is not there any more. -/
theorem lacks_of_get {f i : Option String}
    (h : (s.get now key f i).1 = none) : (s.get now key f i).2.Lacks key := by
  rw [get] at h ⊢
  split at h
  · split at h
    · rename_i hbad
      rw [if_pos hbad]
      exact lacks_erase s key
    · exact absurd h (by simp)
  · exact lacks_erase s key

-- ============================================================== lasting

/-- From the first tier to the second whatever is held under a key that
satisfies `P`, as made from the source `F` tells and by the oracle `i`, is
held on, unless something was pushed out. -/
structure Lasts (F : MethodKey → String) (i : String)
    (P : MethodKey → Prop) (s s' : SessionTier) : Prop where
  ttl : s'.ttl = s.ttl
  evictions : s.evictions ≤ s'.evictions
  holds : s'.evictions = s.evictions → ∀ key a, P key →
    s.Holds key a (F key) i → s'.Holds key a (F key) i

variable {F : MethodKey → String} {P Q : MethodKey → Prop}

namespace Lasts

theorem refl (s : SessionTier) : Lasts F i P s s :=
  ⟨rfl, Nat.le_refl _, fun _ _ _ _ h => h⟩

/-- What lasts over two stretches lasts over both. -/
theorem trans (h : Lasts F i P s s') (h' : Lasts F i P s' s'') :
    Lasts F i P s s'' where
  ttl := h'.ttl.trans h.ttl
  evictions := Nat.le_trans h.evictions h'.evictions
  holds heq key a hkey hheld := by
    have := h.evictions
    have := h'.evictions
    have hfirst : s'.evictions = s.evictions := by omega
    have hsecond : s''.evictions = s'.evictions := by omega
    exact h'.holds hsecond key a hkey (h.holds hfirst key a hkey hheld)

/-- A tier with the same entries and counts goes on like the other. -/
theorem of_eq (hentries : s'.entries = s.entries) (httl : s'.ttl = s.ttl)
    (hevictions : s'.evictions = s.evictions) : Lasts F i P s s' where
  ttl := httl
  evictions := Nat.le_of_eq hevictions.symm
  holds _ key a _ hheld := by
    rw [Holds, hentries]
    exact hheld

/-- A key under which nothing is held need not be left out. -/
theorem widen (h : Lasts F i (fun k => P k ∧ k ≠ key) s s')
    (hnone : P key → ∀ a, ¬s.Holds key a (F key) i) : Lasts F i P s s' where
  ttl := h.ttl
  evictions := h.evictions
  holds heq k a hk hheld := by
    by_cases hkey : k = key
    · subst hkey
      exact absurd hheld (hnone hk a)
    · exact h.holds heq k a ⟨hk, hkey⟩ hheld

end Lasts

/-- Looking a key up for its own source takes nothing away. -/
theorem lasts_get (hs : s.ttl = .infinite false) (now : Double)
    (key : MethodKey) :
    Lasts F i P s (s.get now key (some (F key)) (some i)).2 := by
  have hother : ∀ {k : MethodKey} {e : Held}, k ≠ key →
      (k, e) ∈ s.entries.entries → (k, e) ∈ (s.entries.erase key).entries :=
    fun hne he => Table.mem_keep.2 ⟨he, by simpa using hne⟩
  cases hget : (s.get now key (some (F key)) (some i)).1 with
  | some a =>
    obtain ⟨e, hk, ha, -, hf, hi, hrun⟩ := get_cases hget
    rw [hrun]
    refine ⟨rfl, Nat.le_refl _, fun _ k b _ hheld => ?_⟩
    obtain ⟨g, hg, hrest⟩ := hheld
    by_cases hkey : k = key
    · subst hkey
      have hge : g = e :=
        Option.some.inj (((Table.get?_eq_some_iff _).2 hg).symm.trans hk)
      subst hge
      exact ⟨_, Table.mem_put_self _ _ _, hrest⟩
    · exact ⟨g, Table.mem_put_of_ne _ _ hkey hg, hrest⟩
  | none =>
    have hmiss : (s.get now key (some (F key)) (some i)).2 = s.miss key := by
      rw [get] at hget ⊢
      split at hget
      · split at hget
        · rename_i hbad
          rw [if_pos hbad]
        · exact absurd hget (by simp)
      · rfl
    rw [hmiss]
    refine ⟨rfl, Nat.le_refl _, fun _ k b _ hheld => ?_⟩
    by_cases hkey : k = key
    · subst hkey
      have hsome : ∃ e, s.get now k (some (F k)) (some i) =
          (some b, s.hit k e) := get_of_holds hs hheld
      obtain ⟨e, hserved⟩ := hsome
      rw [hserved] at hget
      exact absurd hget (by simp)
    · obtain ⟨g, hg, hrest⟩ := hheld
      exact ⟨g, hother hkey hg, hrest⟩

/-- Where nothing was pushed out, nothing has changed. -/
theorem evict_cases (s : SessionTier) (n : Nat) :
    s.evict n = s ∨
      s.evictions < (s.evict n).evictions ∧ (s.evict n).ttl = s.ttl := by
  induction n generalizing s with
  | zero => exact .inl rfl
  | succ n ih =>
    rw [evict]
    cases h : oldest? s.entries.entries with
    | none =>
      have hsame : s.evictOldest = s := by
        rw [evictOldest, h]
      rw [hsame]
      exact ih s
    | some k =>
      have hone : s.evictOldest.evictions = s.evictions + 1 ∧
          s.evictOldest.ttl = s.ttl := by
        rw [evictOldest, h]
        exact ⟨rfl, rfl⟩
      rcases ih s.evictOldest with hrest | ⟨hmore, httl⟩
      · rw [hrest]
        exact .inr ⟨by omega, hone.2⟩
      · exact .inr ⟨by omega, httl.trans hone.2⟩

/-- Setting a key under which nothing is held takes nothing away. -/
theorem lasts_set {f : String} (h : s.set now key a f i = .ok s')
    (hnone : P key → ∀ a, ¬s.Holds key a (F key) i) : Lasts F i P s s' := by
  obtain ⟨room, hroom, rfl⟩ := set_cases h
  have hput : Lasts F i (fun k => P k ∧ k ≠ key) room
      { room with entries := room.entries.put key ⟨a, now, f, i, 0⟩ } := by
    refine ⟨rfl, Nat.le_refl _, fun _ k b hk hheld => ?_⟩
    obtain ⟨e, he, hrest⟩ := hheld
    exact ⟨e, Table.mem_put_of_ne _ _ hk.2 he, hrest⟩
  rcases hroom with ⟨-, rfl⟩ | ⟨-, hroom⟩
  · exact hput.widen hnone
  · rw [makeRoom] at hroom
    split at hroom
    · exact absurd hroom (by simp)
    · obtain rfl := Except.ok.inj hroom
      rcases s.evict_cases (s.entries.size + 1 - s.maxEntries.toNat) with
        hsame | ⟨hmore, httl⟩
      · rw [hsame] at hput ⊢
        exact hput.widen hnone
      · refine ⟨httl, Nat.le_of_lt hmore, fun heq => ?_⟩
        exact absurd heq (Nat.ne_of_gt hmore)

end SessionTier

namespace Store

open SessionTier (Lasts)

variable {s s' : Store} {clock : Clock} {F : MethodKey → String}
  {P : MethodKey → Prop}

-- ========================================================== both tiers

/-- Setting an analysis in the session tier, under a key under which
nothing is held. -/
theorem lasts_hold {f : String}
    (hnone : P key → ∀ a, ¬s.session.Holds key a (F key) i) :
    Lasts F i P s.session (hold clock key a f i s).2.session := by
  rcases h : hold clock key a f i s with ⟨e | u, s'⟩
  · rw [hold_error h]
    exact .refl _
  · obtain ⟨tier, hset, rfl⟩ := hold_cases h
    exact SessionTier.lasts_set hset hnone

/-- What is held lasts from the one store to the other. -/
abbrev Outlasts (F : MethodKey → String) (i : String)
    (P : MethodKey → Prop) (s s' : Store) : Prop :=
  Lasts F i P s.session s'.session

theorem outlasts_trans (s s' s'' : Store) (h : Outlasts F i P s s')
    (h' : Outlasts F i P s' s'') : Outlasts F i P s s'' := Lasts.trans h h'

/-- A key that is not there may be taken over from the durable tier. -/
theorem takeOver_leads (h : s.session.Lacks key) :
    Action.Leads (Outlasts F i P) (takeOver clock key (F key) i) s
      fun result s' => result = .ok none → s'.session.Lacks key := by
  have hshelf := session_onShelf none
    (Shelf.lookup clock.timeOfDay key (F key) i) s
  rw [takeOver]
  refine .bind outlasts_trans
    (Q := fun _ s' => s'.session = s.session) ⟨?_, hshelf⟩ ?_
    fun e s' _ _ he => absurd he (by simp)
  · show Lasts F i P s.session _
    rw [hshelf]
    exact .refl _
  intro found s' _ hsession
  have hlacks : s'.session.Lacks key := hsession ▸ h
  cases found with
  | none => exact .pure (fun s => .refl _) fun _ => hlacks
  | some a =>
    refine .bind outlasts_trans (Q := fun _ _ => True)
      ⟨lasts_hold fun _ a => hlacks.not_holds, trivial⟩
      (fun _ s'' _ _ => .pure (fun s => .refl _) fun he => ?_)
      fun e s'' _ _ he => ?_
    · exact absurd he (by simp)
    · exact absurd he (by simp)

/-- To look a key up for its own source takes nothing away; and when it is
not found, it is not there. -/
theorem lookup_leads (hs : s.session.ttl = .infinite false) :
    Action.Leads (Outlasts F i P) (lookup clock key (F key) i) s
      fun result s' => result = .ok none → s'.session.Lacks key := by
  rw [lookup]
  have hrun : onSession (·.get clock.elapsed key (some (F key)) (some i)) s =
      (.ok (s.session.get clock.elapsed key (some (F key)) (some i)).1,
        { s with session :=
          (s.session.get clock.elapsed key (some (F key)) (some i)).2 }) :=
    rfl
  refine .step outlasts_trans hrun (SessionTier.lasts_get hs _ _) ?_
  cases hget : (s.session.get clock.elapsed key (some (F key)) (some i)).1 with
  | some a =>
    exact .pure (fun s => .refl _) fun he => absurd he (by simp)
  | none => exact takeOver_leads (SessionTier.lacks_of_get hget)

/-- What is held is served, and stays. -/
theorem lookup_of_holds {f : String} (hs : s.session.ttl = .infinite false)
    (h : s.session.Holds key a f i) :
    ∃ e, lookup clock key f i s =
      (.ok (some a), { s with session := s.session.hit key e }) := by
  have hsome : ∃ e, s.session.get clock.elapsed key (some f) (some i) =
      (some a, s.session.hit key e) := SessionTier.get_of_holds hs h
  obtain ⟨e, hget⟩ := hsome
  refine ⟨e, ?_⟩
  have hsession : onSession (·.get clock.elapsed key (some f) (some i)) s =
      (.ok (some a), { s with session := s.session.hit key e }) := by
    rw [onSession, hget]
  rw [lookup, Action.bind_ok hsession]
  rfl

/-- To file an analysis under a key under which nothing is held takes
nothing away. -/
theorem outlasts_store {f path : String}
    (hnone : P key → ∀ a, ¬s.session.Holds key a (F key) i) :
    Outlasts F i P s (store clock key a f i path s).2 := by
  have h : Action.Leads (Outlasts F i P) (store clock key a f i path) s
      fun _ _ => True := by
    rw [store]
    refine .bind outlasts_trans (Q := fun _ _ => True)
      ⟨lasts_hold hnone, trivial⟩ (fun _ s' _ _ => ⟨?_, trivial⟩)
      fun _ _ _ _ => trivial
    show Lasts F i P s'.session _
    rw [session_onShelf]
    exact .refl _
  exact h.related

end Store

end CallTrace.Cache
