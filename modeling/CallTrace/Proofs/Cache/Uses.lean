/-
What a use of the durable tier does.

Whatever is done with the tier, the file is read first unless that was done
before; what follows is decided by the entries in memory alone. Either it
leaves them as they are, and then nothing is written, or it changes them,
and then all of them are written. Clearing does not read the file, but what
it leaves would be the same if it did.

The uses are made one after the other, each at its time.
-/
import CallTrace.Proofs.Cache.Loading

namespace CallTrace.Cache

open Number (Double)

-- =========================================================== one use

/-- What can be done with the tier. -/
inductive Use where
  | lookup (key : MethodKey) (fingerprint identity : String)
  | store (key : MethodKey) (a : Analysis)
      (fingerprint identity sourcePath : String)
  | invalidate (typeName : String) (methodName : Option String)
  | clear

/-- The word is that of a method of the type, or of the one that is
named. -/
def meant (typeName : String) : Option String → String → Bool
  | some m, k => k == (MethodKey.mk typeName m).text
  | none, k => (MethodKey.ofText k).typeName == typeName

namespace DurableTier

/-- The tier with these entries, loaded. -/
def filled (d : DurableTier) (T : KeptTable) : DurableTier :=
  { d with entries := T, loaded := true }

theorem filled_entries {d : DurableTier} (h : d.loaded = true) :
    d.filled d.entries = d := by
  cases d
  cases h
  rfl

@[simp] theorem filled_filled (d : DurableTier) (T T' : KeptTable) :
    (d.filled T).filled T' = d.filled T' := rfl

/-- The analysis that a lookup in a loaded tier finds. -/
def served (d : DurableTier) (key : MethodKey)
    (fingerprint identity : String) : Option Analysis :=
  ((d.entries.get? key.text).filter (·.fits fingerprint identity)).map
    (·.analysis)

/-- The tier with an analysis set. -/
def holding (d : DurableTier) (now : Double) (key : MethodKey)
    (a : Analysis) (fingerprint identity sourcePath : String) :
    DurableTier :=
  let e : Kept := ⟨a, fingerprint, identity, now, sourcePath, formatVersion⟩
  ({ d with entries := d.entries.put key.text e }).purge now

/-- The entries that invalidation leaves. -/
def remaining (d : DurableTier) (typeName : String)
    (methodName : Option String) : KeptTable :=
  d.entries.keep fun k _ => !meant typeName methodName k

end DurableTier

namespace Use

/-- What a use makes of a loaded tier and writes to the file, if it changes
anything. -/
def change? (now : Double) (d : DurableTier) : Use → Option DurableTier
  | lookup key f i =>
    if (d.entries.get? key.text).all (·.fits f i) then none
    else some { d with entries := d.entries.erase key.text }
  | store key a f i path => some (d.holding now key a f i path)
  | invalidate typeName methodName =>
    if d.entries.size - (d.remaining typeName methodName).size > 0 then
      some { d with entries := d.remaining typeName methodName }
    else none
  | clear => some { d with entries := {}, loaded := true }

/-- Does it, whatever comes of it. -/
def run (now : Double) : Use → Action Shelf Unit
  | lookup key f i => do let _ ← Shelf.lookup now key f i
  | store key a f i path => Shelf.store now key a f i path
  | invalidate typeName methodName => do
    let _ ← Shelf.invalidate now typeName methodName
  | clear => Shelf.clear now

/-- Invalidation leaves the entries that are not meant, whether or not there
are others. -/
theorem entries_of_invalidate (now : Double) (d : DurableTier)
    (typeName : String) (methodName : Option String) :
    (((invalidate typeName methodName).change? now d).getD d).entries =
      d.remaining typeName methodName := by
  rw [change?]
  split
  · rfl
  · rename_i hnone
    have hle := d.entries.size_keep_le fun k _ => !meant typeName methodName k
    have hlength : (d.remaining typeName methodName).entries.length =
        d.entries.entries.length := by
      rw [DurableTier.remaining] at hnone ⊢
      simp only [Table.size] at hnone hle
      omega
    exact (Table.eq_of_entries
      (List.filter_sublist.eq_of_length hlength)).symm

/-- What changes a loaded tier changes its entries only. -/
theorem frame_of_change? {use : Use} {now : Double} {d d' : DurableTier}
    (hd : d.loaded = true) (h : use.change? now d = some d') :
    d' = d.filled d'.entries := by
  have hfilled : ∀ T : KeptTable, ({ d with entries := T } : DurableTier) =
      d.filled T := by
    intro T
    rw [DurableTier.filled, ← hd]
  cases use with
  | lookup | invalidate =>
    simp only [change?] at h
    split at h <;> cases h
    exact hfilled _
  | store =>
    cases h
    exact hfilled _
  | clear =>
    cases h
    rfl

end Use

namespace Shelf

variable {s s' : Shelf} {now : Double}

/-- The shelf after a change of its tier, if there is one. -/
def changed (s : Shelf) (now : Double) : Option DurableTier → Shelf
  | none => s
  | some d => s.rewritten now d

/-- In a tier that was loaded a lookup serves the entry, or drops one that
does not fit. -/
theorem lookup_of_loaded (h : s.tier.loaded = true) (key : MethodKey)
    (f i : String) : lookup now key f i s =
      (.ok (s.tier.served key f i),
        s.changed now ((Use.lookup key f i).change? now s.tier)) := by
  rw [lookup, Action.bind_ok (load_of_loaded h),
    Action.bind_ok (Action.get_run s), DurableTier.served, Use.change?]
  rcases s.tier.entries.get? key.text with _ | e
  · rfl
  rcases hfits : e.fits f i with _ | _
  · simp only [hfits, Option.all_some, Option.filter_some,
      Bool.false_eq_true, if_false]
    rw [Action.bind_ok (change_run ..)]
    rfl
  · simp only [hfits, Option.all_some, Option.filter_some, if_true]
    rfl

theorem store_of_loaded (h : s.tier.loaded = true) (key : MethodKey)
    (a : Analysis) (f i path : String) : store now key a f i path s =
      (.ok (), s.rewritten now (s.tier.holding now key a f i path)) := by
  rw [store, Action.bind_ok (load_of_loaded h)]
  rfl

/-- In a tier that was loaded, dropping entries tells how many there were.
-/
theorem invalidate_of_loaded (h : s.tier.loaded = true) (typeName : String)
    (methodName : Option String) : invalidate now typeName methodName s =
      (.ok (s.tier.entries.size -
          (s.tier.remaining typeName methodName).size),
        s.changed now
          ((Use.invalidate typeName methodName).change? now s.tier)) := by
  rw [invalidate, Action.bind_ok (load_of_loaded h),
    Action.bind_ok (Action.get_run s), Use.change?]
  by_cases hn : s.tier.entries.size -
      (s.tier.remaining typeName methodName).size > 0
  · rw [if_pos hn]
    cases methodName
    all_goals
      dsimp only
      split
      · rw [Action.bind_ok (change_run ..)]
        rfl
      · exact absurd hn (by assumption)
  · rw [if_neg hn]
    cases methodName
    all_goals
      dsimp only
      split
      · exact absurd (by assumption) hn
      · rfl

/-- Loading leaves the files and the limits as they are. -/
theorem frame_of_load (h : load now s = (.ok (), s')) :
    s'.files = s.files ∧ s'.tier.path = s.tier.path ∧
      s'.tier.retentionDays = s.tier.retentionDays ∧
      s'.tier.maxEntries = s.tier.maxEntries := by
  rcases hl : s.tier.loaded with _ | _
  · rw [load_of_read hl] at h
    split at h <;> cases h
    exact ⟨rfl, rfl, rfl, rfl⟩
  · rw [load_of_loaded hl] at h
    cases h
    exact ⟨rfl, rfl, rfl, rfl⟩

/-- What begins with loading goes on as in the tier that was loaded. -/
theorem load_bind {α : Type} {rest : Unit → Action Shelf α}
    (h : load now s = (.ok (), s')) :
    (load now >>= rest) s = (load now >>= rest) s' := by
  rw [Action.bind_ok h, Action.bind_ok (load_of_loaded (loaded_of_load h))]

section

variable (h : load now s = (.ok (), s'))

include h

theorem lookup_of_load (key : MethodKey) (f i : String) :
    lookup now key f i s = (.ok (s'.tier.served key f i),
      s'.changed now ((Use.lookup key f i).change? now s'.tier)) :=
  (load_bind h).trans (lookup_of_loaded (loaded_of_load h) key f i)

theorem store_of_load (key : MethodKey) (a : Analysis)
    (f i path : String) : store now key a f i path s = (.ok (),
      s'.changed now ((Use.store key a f i path).change? now s'.tier)) :=
  (load_bind h).trans (store_of_loaded (loaded_of_load h) key a f i path)

theorem invalidate_of_load (typeName : String)
    (methodName : Option String) : invalidate now typeName methodName s =
      (.ok (s'.tier.entries.size -
          (s'.tier.remaining typeName methodName).size),
        s'.changed now
          ((Use.invalidate typeName methodName).change? now s'.tier)) :=
  (load_bind h).trans
    (invalidate_of_loaded (loaded_of_load h) typeName methodName)

theorem clear_of_load : clear now s =
    (.ok (), s'.changed now (Use.clear.change? now s'.tier)) := by
  obtain ⟨hfiles, hpath, hdays, hmax⟩ := frame_of_load h
  show (_, s.rewritten now { s.tier with entries := {}, loaded := true }) =
    (_, s'.rewritten now { s'.tier with entries := {}, loaded := true })
  simp only [Shelf.rewritten, hfiles, hpath, hdays, hmax]

/-- Every use leaves what it leaves of the loaded tier. -/
theorem run_of_load (use : Use) :
    use.run now s = (.ok (), s'.changed now (use.change? now s'.tier)) := by
  cases use with
  | lookup key f i =>
    rw [Use.run, Action.bind_ok (lookup_of_load h key f i)]
    rfl
  | store key a f i path => exact store_of_load h key a f i path
  | invalidate typeName methodName =>
    rw [Use.run, Action.bind_ok (invalidate_of_load h ..)]
    rfl
  | clear => exact clear_of_load h

end

-- ========================================================== many uses

/-- The uses one after the other, each at its time. -/
def perform : List (Double × Use) → Action Shelf Unit
  | [] => pure ()
  | (now, use) :: rest => do
    use.run now
    perform rest

end Shelf

end CallTrace.Cache
