/-
The tier of the cache that lives as long as the program.

An entry is served as long as it is young enough and was made from the
same source by the same oracle as is asked for; otherwise it is dropped
when it is asked for. A new key at full capacity pushes out the entry that
was set the longest time ago.
-/
import CallTrace.Cache.Table
import CallTrace.Failure
import CallTrace.Method.Analysis
import CallTrace.Slice

namespace CallTrace.Cache

open Number (Double)

/-- An analysis in the session tier, and what it was made from. -/
structure Held where
  analysis : Analysis
  insertedAt : Double
  fingerprint : String
  identity : String
  uses : Nat := 0
deriving DecidableEq

/-- The entry was made from this source by this oracle, as far as either
is given. -/
def Held.fits (h : Held) (fingerprint identity : Option String) : Bool :=
  fingerprint.all (h.fingerprint == ·) && identity.all (h.identity == ·)

/-- The session tier with its limits and counts. Times are in seconds,
`timed` in milliseconds. -/
structure SessionTier where
  maxEntries : Int := 100
  ttl : Double := .ofInt 300
  entries : Table MethodKey Held := {}
  hits : Nat := 0
  misses : Nat := 0
  evictions : Nat := 0
  timed : Double := .zero
  timings : Nat := 0
deriving DecidableEq

namespace SessionTier

-- ======================================================== reading

/-- The entry is older than the tier allows. -/
def expired (s : SessionTier) (now : Double) (h : Held) : Bool :=
  s.ttl.lt (now - h.insertedAt)

/-- The tier after a lookup that found nothing, without the key. -/
def miss (s : SessionTier) (key : MethodKey) : SessionTier :=
  { s with entries := s.entries.erase key, misses := s.misses + 1 }

/-- The tier after a lookup that was served. -/
def hit (s : SessionTier) (key : MethodKey) (h : Held) : SessionTier :=
  { s with
    entries := s.entries.put key { h with uses := h.uses + 1 }
    hits := s.hits + 1 }

/-- Looks an analysis up; an entry that must not be served is dropped. -/
def get (s : SessionTier) (now : Double) (key : MethodKey)
    (fingerprint identity : Option String) :
    Option Analysis × SessionTier :=
  match s.entries.get? key with
  | some h =>
    if s.expired now h || !h.fits fingerprint identity then
      (none, s.miss key)
    else (some h.analysis, s.hit key h)
  | none => (none, s.miss key)

/-- Looks an analysis up without any check but its age, and without a
trace. -/
def peek (s : SessionTier) (now : Double) (key : MethodKey) :
    Option Analysis :=
  ((s.entries.get? key).filter fun h => !s.expired now h).map (·.analysis)

-- ======================================================== writing

/-- The key of the entry that was set first; of several the one that
stands first. -/
def oldest? : List (MethodKey × Held) → Option MethodKey
  | [] => none
  | e :: es =>
    some (es.foldl (fun best f =>
      if f.2.insertedAt.lt best.2.insertedAt then f else best) e).1

/-- The tier without its oldest entry. -/
def evictOldest (s : SessionTier) : SessionTier :=
  match oldest? s.entries.entries with
  | some key =>
    { s with
      entries := s.entries.erase key, evictions := s.evictions + 1 }
  | none => s

/-- The tier without its `n` oldest entries. -/
def evict (s : SessionTier) : Nat → SessionTier
  | 0 => s
  | n + 1 => evict s.evictOldest n

/-- The tier with room for one more entry. A tier that may hold nothing
has no room to make. -/
def makeRoom (s : SessionTier) : Except Failure SessionTier :=
  if s.maxEntries ≤ 0 then .error .nothingToDrop
  else .ok (s.evict (s.entries.size + 1 - s.maxEntries.toNat))

/-- Sets an analysis. -/
def set (s : SessionTier) (now : Double) (key : MethodKey) (a : Analysis)
    (fingerprint identity : String) : Except Failure SessionTier := do
  let s ← if s.entries.contains key then pure s else s.makeRoom
  pure { s with
    entries := s.entries.put key ⟨a, now, fingerprint, identity, 0⟩ }

/-- The tier without the entries that satisfy `p`, and how many they
were. -/
def dropWhere (s : SessionTier) (p : MethodKey → Held → Bool) :
    Nat × SessionTier :=
  let kept := s.entries.keep fun k h => !p k h
  (s.entries.size - kept.size, { s with entries := kept })

/-- Drops one method of a type, or all of them. -/
def invalidate (s : SessionTier) (typeName : String)
    (methodName : Option String) : Nat × SessionTier :=
  s.dropWhere fun k _ =>
    k.typeName == typeName && methodName.all (k.methodName == ·)

/-- Drops what is too old. -/
def cleanup (s : SessionTier) (now : Double) : Nat × SessionTier :=
  s.dropWhere fun _ h => s.expired now h

/-- Drops everything, the counts included. -/
def clear (s : SessionTier) : SessionTier :=
  { maxEntries := s.maxEntries, ttl := s.ttl }

/-- Notes how long an analysis took, in milliseconds. -/
def recordTime (s : SessionTier) (ms : Double) : SessionTier :=
  { s with timed := s.timed + ms, timings := s.timings + 1 }

-- ====================================================== statistics

/-- The part of the lookups that was served. -/
def hitRate (s : SessionTier) : Double :=
  if s.hits + s.misses = 0 then .zero
  else .ofQuotient s.hits (s.hits + s.misses)

/-- How long an analysis took on average, in milliseconds. -/
def averageMs (s : SessionTier) : Double :=
  if s.timings = 0 then .zero else s.timed / .ofInt s.timings

/-- The counts as fields of a document. -/
def countFields (s : SessionTier) : List (String × Json) :=
  [("total_entries", .int s.entries.size),
   ("hit_count", .int s.hits),
   ("miss_count", .int s.misses),
   ("eviction_count", .int s.evictions),
   ("hit_rate", .float (s.hitRate.roundTo 4)),
   ("average_analysis_ms", .float (s.averageMs.roundTo 1))]

/-- How full the tier is. Of a tier that may hold nothing there is no
such number. -/
def sizeInfo (s : SessionTier) : Except Failure Json :=
  if s.maxEntries = 0 then .error .noCapacity
  else
    let share := .ofInt s.entries.size / .ofInt s.maxEntries
    .ok (.object
      [("entries", .int s.entries.size),
       ("max_entries", .int s.maxEntries),
       ("utilization_percent", .float (share * .ofInt 100))])

/-- The entries that were served most often; of several that were served
equally often the one that stands first comes first. -/
def mostUsed (s : SessionTier) (limit : Int) : List (MethodKey × Held) :=
  firstItems limit
    (s.entries.entries.mergeSort fun a b => b.2.uses ≤ a.2.uses)

/-- The entries that were served most often, as a document. -/
def topMethods (s : SessionTier) (limit : Int) : Json :=
  .list ((s.mostUsed limit).map fun e => .object
    [("key", .text e.1.text),
     ("access_count", .int e.2.uses),
     ("status", .text e.2.analysis.status.name)])

end SessionTier

end CallTrace.Cache
