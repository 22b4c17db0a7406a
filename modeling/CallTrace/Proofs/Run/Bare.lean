/-
Descriptions before anything is known about the methods they call.

What an oracle says of a method says nothing about how the analyses of the
called methods ended; that is filled in as they are traced, in a copy. A
description is filed as the oracle gave it, so what is found in the cache
is bare as well, and is about the method that was asked for. Both are one
rule for the entries of the cache.
-/
import CallTrace.Proofs.Cache.Entries
import CallTrace.Proofs.Reply.Outcome
import CallTrace.Run.Describe

namespace CallTrace

open Number (Double)

/-- Nothing is known yet about the called method. -/
def CallSite.Bare (c : CallSite) : Prop :=
  c.innerStatus = none ∧ c.innerNote = none

namespace Analysis

/-- A description of the method, complete, with nothing known yet about
the methods it calls. -/
structure Bare (key : MethodKey) (a : Analysis) : Prop where
  key : a.key = key
  status : a.status = .complete
  calls : ∀ c ∈ a.calls, c.Bare

end Analysis

-- ============================================================= replies

namespace Reply

/-- What a reply says of calls says nothing about what becomes of them. -/
theorem bare_parse (owner text : String) :
    ∀ c ∈ (parse owner text).calls, c.Bare := by
  intro c hc
  obtain ⟨-, -, x, n, -, rfl⟩ := exists_kept_of_mem_calls hc
  exact ⟨rfl, rfl⟩

end Reply

-- ========================================================= the cache

namespace Cache

/-- What the tracer files: bare descriptions of the methods they are filed
under. -/
def bareRule : Rule := fun key a _ _ => a.Bare key

theorem bareRule_timeless : bareRule.Timeless :=
  fun _ _ _ _ _ h => ⟨h.key, h.status, h.calls⟩

end Cache

open Run.Tracer in
/-- The description of one method serves as that of another. -/
theorem Analysis.Bare.readdress {key other : MethodKey} {a : Analysis}
    (h : a.Bare other) (definer : String) :
    (readdress key a definer).Bare key where
  key := rfl
  status := h.status
  calls := h.calls

namespace Run.Tracer

open Source (Resolved)

theorem bare_describe (key : MethodKey) (r : Resolved) (owner text : String)
    (now : Double) : (describe key r (Reply.parse owner text) now).Bare key where
  key := rfl
  status := rfl
  calls := Reply.bare_parse owner text

end Run.Tracer

end CallTrace
