/-
How the cache can fail.

A lookup fails when the file of the durable tier cannot be read, and
setting an analysis also when the session tier may hold nothing. These are
failures of the machine, and never one that the analysis reports itself: so
whoever goes on after a failure of the analysis does not go on after one of
the cache.
-/
import CallTrace.Proofs.Action
import CallTrace.Cache.Store

namespace CallTrace.Cache

open CallTrace.Action
open Number (Double)

/-- The failure is not one of the analysis. -/
def Alien (e : Failure) : Prop := e.isOwn = false

/-- Reading the file fails only for reasons that are none of a run's own.
-/
theorem alien_readEntries {files : Files.Tree} {path : String}
    {now : Double} {e : Failure}
    (h : readEntries files path now = .error e) : Alien e := by
  rw [readEntries] at h
  split at h
  · cases h
    rfl
  · cases h
  · split at h
    · cases h
      rfl
    · split at h <;> cases h <;> rfl

/-- Setting fails only for reasons that are none of a run's own. -/
theorem SessionTier.alien_set {s : SessionTier} {now : Double}
    {key : MethodKey} {a : Analysis} {f i : String} {e : Failure}
    (h : s.set now key a f i = .error e) : Alien e := by
  rw [SessionTier.set] at h
  rcases hk : s.entries.contains key with _ | _ <;> rw [hk] at h
  · rcases hr : s.makeRoom with fault | room <;> rw [hr] at h
    · cases h
      rw [makeRoom] at hr
      split at hr <;> cases hr
      rfl
    · cases h
  · cases h

namespace Shelf

theorem alien_load (now : Double) : FailsWith Alien (load now) := by
  refine failsWith_get fun s => ?_
  dsimp only
  split
  · exact failsWith_pure _
  · exact failsWith_bind
      (failsWith_liftExcept fun e => alien_readEntries) fun _ _ _ h =>
        absurd h (by simp [set_run])

theorem alien_change (now : Double) (f : DurableTier → DurableTier) :
    FailsWith Alien (change now f) :=
  failsWith_bind (failsWith_modify _) fun _ => failsWith_modify _

theorem alien_lookup (now : Double) (key : MethodKey) (f i : String) :
    FailsWith Alien (lookup now key f i) := by
  refine failsWith_bind (alien_load now) fun _ => failsWith_get fun s => ?_
  split
  · exact failsWith_pure _
  · split
    · exact failsWith_pure _
    · exact failsWith_bind (alien_change now _) fun _ => failsWith_pure _

theorem alien_store (now : Double) (key : MethodKey) (a : Analysis)
    (f i path : String) : FailsWith Alien (store now key a f i path) :=
  failsWith_bind (alien_load now) fun _ => alien_change now _

end Shelf

namespace Store

theorem alien_onShelf {α : Type} (absent : α) {act : Action Shelf α}
    (hact : FailsWith Alien act) : FailsWith Alien (onShelf absent act) := by
  intro s e h
  rw [onShelf] at h
  split at h
  · cases h
  · exact hact _ e h

theorem alien_hold (clock : Clock) (key : MethodKey) (a : Analysis)
    (f i : String) : FailsWith Alien (hold clock key a f i) :=
  failsWith_get fun _ => failsWith_bind
    (failsWith_liftExcept fun _ => SessionTier.alien_set) fun _ _ _ h =>
      absurd h (by simp [set_run])

/-- A lookup fails in no other way. -/
theorem alien_lookup (clock : Clock) (key : MethodKey) (f i : String) :
    FailsWith Alien (lookup clock key f i) := by
  refine failsWith_bind (fun _ _ h => absurd h (by simp [onSession]))
    fun found => ?_
  rcases found with _ | a
  · refine failsWith_bind
      (alien_onShelf none (Shelf.alien_lookup _ key f i)) fun found => ?_
    rcases found with _ | a
    · exact failsWith_pure _
    · exact failsWith_bind (alien_hold clock key a f i) fun _ =>
        failsWith_pure _
  · exact failsWith_pure _

/-- Nor does setting an analysis. -/
theorem alien_store (clock : Clock) (key : MethodKey) (a : Analysis)
    (f i path : String) : FailsWith Alien (store clock key a f i path) :=
  failsWith_bind (alien_hold clock key a f i) fun _ =>
    alien_onShelf () (Shelf.alien_store _ key a f i path)

end Store

end CallTrace.Cache
