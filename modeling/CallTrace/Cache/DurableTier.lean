/-
The tier of the cache that outlives the program.

The entries lie in one document in a file. The file is read when the tier
is first used; one that holds no document of this kind counts as empty,
and entries that cannot be read are passed over one by one. After every
change the whole document is written to a file beside it, which is then
moved into place. A file that cannot be written is no failure: the tier
goes on with what it has in memory.

Entries that are past retention are dropped, and of what is left the
oldest that exceed the limit, after the file is read and after an entry is
set.
-/
import CallTrace.Cache.Table
import CallTrace.Clock
import CallTrace.Failure
import CallTrace.Files.Tree
import CallTrace.Json.Reader
import CallTrace.Json.Writer
import CallTrace.Method.Record

namespace CallTrace.Cache

open Json
open Number (Double)

/-- The version of the format. -/
def formatVersion : String := "1.0.0"

/-- An analysis in the durable tier, and what it was made from. -/
structure Kept where
  analysis : Analysis
  fingerprint : String
  identity : String
  timestamp : Double
  sourcePath : String := ""
  version : String := formatVersion
deriving DecidableEq

namespace Kept

def toJson (e : Kept) : Json :=
  .object
    [("analysis", e.analysis.toJson),
     ("fingerprint", .text e.fingerprint),
     ("oracle_identity", .text e.identity),
     ("timestamp", .float e.timestamp),
     ("source_path", .text e.sourcePath),
     ("version", .text e.version)]

/-- Reads an entry at the time `now`. -/
def read (now : Double) : Reader Kept := readObject fun v =>
  Kept.mk
    <$> required "analysis" (Analysis.read now) v
    <*> required "fingerprint" readText v
    <*> required "oracle_identity" readText v
    <*> required "timestamp" readDouble v
    <*> withDefault "source_path" "" readText v
    <*> withDefault "version" formatVersion readText v

/-- The entry was made from this source by this oracle, in this format. -/
def fits (e : Kept) (fingerprint identity : String) : Bool :=
  e.fingerprint == fingerprint && e.identity == identity &&
    e.version == formatVersion

end Kept

/-- The entries of the tier, under the keys of their methods. -/
abbrev KeptTable := Table String Kept

-- ========================================================== documents

/-- The document of all entries, written at the time `now`. -/
def documentOf (now : Double) (entries : KeptTable) : Json :=
  .object
    [("version", .text formatVersion),
     ("last_saved", .text (Time.text now)),
     ("entries",
       .object (entries.entries.map fun e => (e.1, e.2.toJson)))]

/-- The entries of a document. What is no document of this version has
none. -/
def entriesOf (now : Double) (document : Json) : KeptTable :=
  match document, document.field? "version" with
  | .object _, some (.text version) =>
    match document.field? "entries" with
    | some (.object fields) =>
      if version = formatVersion then
        Table.ofList (fields.filterMap fun f =>
          (Kept.read now f.2).toOption.map (f.1, ·))
      else {}
    | _ => {}
  | _, _ => {}

/-- The failure of the reader of documents to go any deeper. -/
def stackSpent (kind : String) : Failure :=
  .foreign "RecursionError"
    ("maximum recursion depth exceeded while decoding a JSON " ++ kind ++
      " from a unicode string")

/-- The entries in a file. A file that is not there, cannot be read or
holds no document has none. What remains a failure is a name that is too
long, bytes that are no text, an integer of too many digits, and lists and
objects that are nested too deep. -/
def readEntries (files : Files.Tree) (path : String) (now : Double) :
    Except Failure KeptTable :=
  match files.read path with
  | .error .tooLong => .error (.nameTooLong path)
  | .error _ => .ok {}
  | .ok bytes =>
    match Text.Utf8.decode bytes with
    | .error junk => .error (.undecodable junk)
    | .ok cs =>
      match Json.read cs with
      | .ok document => .ok (entriesOf now document)
      | .error .malformed => .ok {}
      | .error (.oversized n) => .error (.oversized n)
      | .error (.tooDeep kind) => .error (stackSpent kind)

/-- The tree with the entries written to a file. What has been done before
a fault stays done. -/
def writeEntries (files : Files.Tree) (path : String) (now : Double)
    (entries : KeptTable) : Files.Tree :=
  let folder := (Files.Tree.splitLast path).1
  let aside := path ++ ".tmp"
  let bytes := Text.Utf8.encode
    (String.ofList (indented (documentOf now entries)))
  let (files, made) := files.makeFolders [] (Files.parts folder)
  match made with
  | .error _ => files
  | .ok () =>
    match files.write aside bytes with
    | .error _ => files
    | .ok files =>
      match files.move aside path with
      | .error _ => files
      | .ok files => files

-- =========================================================== the tier

/-- The durable tier with its limits, and the entries once the file was
read. -/
structure DurableTier where
  path : String
  retentionDays : Int := 30
  maxEntries : Int := 1000
  entries : KeptTable := {}
  loaded : Bool := false
deriving DecidableEq

/-- The durable tier and the files it lies in. -/
structure Shelf where
  tier : DurableTier
  files : Files.Tree

namespace DurableTier

/-- The time before which entries are past retention. -/
def cutoff (d : DurableTier) (now : Double) : Double :=
  now - .ofInt (d.retentionDays * 86400)

/-- The entries that are not past retention. -/
def retained (d : DurableTier) (now : Double) : KeptTable :=
  d.entries.keep fun _ e => !(e.timestamp.lt (d.cutoff now))

/-- The keys of the oldest entries, `n` of them; of several of one age the
one that stands first is the older. -/
def oldestKeys (entries : KeptTable) (n : Nat) : List String :=
  ((entries.entries.mergeSort fun a b =>
    !(b.2.timestamp.lt a.2.timestamp)).take n).map (·.1)

/-- The tier without what is past retention and without the oldest that
exceed the limit. -/
def purge (d : DurableTier) (now : Double) : DurableTier :=
  let kept := d.retained now
  let surplus := ((kept.size : Int) - d.maxEntries).toNat
  let dropped := oldestKeys kept surplus
  { d with entries := kept.keep fun k _ => !dropped.contains k }

end DurableTier

namespace Shelf

/-- Reads the file, unless this was done before. -/
def load (now : Double) : Action Shelf Unit := do
  let s ← get
  unless s.tier.loaded do
    let entries ← readEntries s.files s.tier.path now
    let tier := { s.tier with entries := entries, loaded := true }
    set { s with tier := tier.purge now }

/-- Writes the file. -/
def save (now : Double) : Action Shelf Unit := modify fun s =>
  { s with files := writeEntries s.files s.tier.path now s.tier.entries }

/-- Changes the entries and writes the file. -/
def change (now : Double) (f : DurableTier → DurableTier) :
    Action Shelf Unit := do
  modify fun s => { s with tier := f s.tier }
  save now

/-- Looks an analysis up; an entry that must not be served is dropped. -/
def lookup (now : Double) (key : MethodKey) (fingerprint identity : String) :
    Action Shelf (Option Analysis) := do
  load now
  match (← get).tier.entries.get? key.text with
  | none => pure none
  | some e =>
    if e.fits fingerprint identity then pure (some e.analysis)
    else do
      change now fun d => { d with entries := d.entries.erase key.text }
      pure none

/-- Sets an analysis. -/
def store (now : Double) (key : MethodKey) (a : Analysis)
    (fingerprint identity sourcePath : String) : Action Shelf Unit := do
  load now
  let e : Kept := ⟨a, fingerprint, identity, now, sourcePath, formatVersion⟩
  change now fun d =>
    ({ d with entries := d.entries.put key.text e }).purge now

/-- Drops one method of a type, or all of them; gives their number. -/
def invalidate (now : Double) (typeName : String)
    (methodName : Option String) : Action Shelf Nat := do
  load now
  let entries := (← get).tier.entries
  let dropped (k : String) : Bool :=
    match methodName with
    | some m => k == (MethodKey.mk typeName m).text
    | none => (MethodKey.ofText k).typeName == typeName
  let kept := entries.keep fun k _ => !dropped k
  let n := entries.size - kept.size
  if n > 0 then change now fun d => { d with entries := kept }
  pure n

/-- Drops everything. The file need not be read for that. -/
def clear (now : Double) : Action Shelf Unit :=
  change now fun d => { d with entries := {}, loaded := true }

/-- The size of the file in units of 1024 bytes. -/
def sizeKb (s : Shelf) : Double :=
  match s.files.size s.tier.path with
  | .ok n => (Double.ofQuotient n 1024).roundTo 2
  | .error _ => .zero

/-- What is told about the tier. Only entries in memory are counted. -/
def stats (s : Shelf) : Json :=
  .object
    [("entries", .int s.tier.entries.size),
     ("file_path", .text s.tier.path),
     ("size_kb", .float s.sizeKb),
     ("version", .text formatVersion)]

end Shelf

end CallTrace.Cache
