import NexirMvcc.Engine

/- Garbage collection (`plan_key_gc`, `gc_incremental` and `gc` of `engine.rs`).
   A plan names the versions of one key to remove, at most a page of them. One
   step scans keys from a cursor, at most `max_keys` of them, and removes at most
   `max_versions` versions; where it runs out of versions it returns the key it
   stopped at as the next cursor. The full collection repeats the step.

   `usize` arithmetic is that of a release build on a 64-bit target: the look-ahead
   limits `max_keys + 1` and `limit + 1` wrap around, and so would a subtraction
   below zero. The step is written for any `Build`, which says how it subtracts;
   `gcIncremental` is the step of a release build. -/
namespace NexirMvcc

/-! Plans for one key. -/

/-- Whether a plan may collapse the keeper: the caller opted in, the keeper is a
tombstone and the latest version, and the key has no intent. -/
def planCollapse (options : KeyGcOptions) (key : Key) (keeper : CommittedVersion) :
    Engine GcError Bool :=
  if options.collapseFinalTombstones ∧ keeper.value.isNone then do
    let intent ← backend (.getIntent key) GcError.backend
    if intent.isNone then do
      let latest ← backend (.getLatestCommitTs key) GcError.backend
      pure (latest = some keeper.commitTs)
    else pure false
  else pure false

def planKeyGc (key : Key) (safePointTs : Timestamp) (options : KeyGcOptions) :
    Engine GcError KeyGcPlan :=
  if options.maxVersionsExamined = 0 then throw .invalidKeyGcBudget
  else do
    match ← backend (.getVisibleCommitted key safePointTs) GcError.backend with
    | none => pure ⟨key, [], none, 0, true⟩
    | some keeper =>
      let collapseFinalTombstone ← planCollapse options key keeper
      let versionsToRemove ← backend (.getCommittedTimestampsBefore key keeper.commitTs
        options.maxVersionsExamined.val) GcError.backend
      let complete : Bool := versionsToRemove.length < options.maxVersionsExamined.val
      let versionsToRemove := versionsToRemove.take options.maxVersionsExamined.val
      pure {
        key := key
        versionsToRemove := versionsToRemove
        collapseTombstone :=
          (if collapseFinalTombstone then some keeper.commitTs else none).filter fun _ => complete
        versionsExamined := versionsToRemove.length
        complete := complete }

/-! Steps over the keyspace. -/

/-- `usize::MAX`. -/
def maxUsize : Usize := Fin.last _

/-- `a + 1` in a release build. -/
def lookAhead (a : Nat) : Nat := (a + 1) % 2 ^ 64

/-- `a - b` in a release build: below zero it wraps around. -/
def wrappingSub (a b : Nat) : Nat := if b ≤ a then a - b else a + 2 ^ 64 - b

/-- A build of the step: what its errors are returned as, and how it subtracts. -/
structure Build (ε : Type) where
  error : GcError → ε
  sub : Nat → Nat → Engine ε Nat

/-- The error of a failed backend call. -/
def Build.failed {ε : Type} (build : Build ε) (msg : String) : ε := build.error (.backend msg)

def release : Build GcError := ⟨id, fun a b => pure (wrappingSub a b)⟩

/-- The variables of the loop over the keys. The source leaves the loop exactly
where it sets `exhausted_versions`. -/
structure GcScan where
  keysScanned : Nat := 0
  versionsScanned : Nat := 0
  versionsRemoved : Nat := 0
  intentsPreserved : Nat := 0
  nextCursorKey : Option Key := none
  exhaustedVersions : Bool := false
  deriving DecidableEq, Repr

/-- Count a key of the loop, and its intent if it has one. -/
def GcScan.visit (scan : GcScan) (hasIntent : Bool) : GcScan :=
  { scan with
    keysScanned := scan.keysScanned + 1
    intentsPreserved := if hasIntent then scan.intentsPreserved + 1 else scan.intentsPreserved }

/-- Leave the loop at `key`, to be revisited by the next step. -/
def GcScan.stopAt (scan : GcScan) (key : Key) : GcScan :=
  { scan with nextCursorKey := some key, exhaustedVersions := true }

section Step
variable {ε : Type} (build : Build ε)

/-- Whether the keeper of `key` is a final tombstone that the options allow to
collapse: the latest version, with no intent on the key. -/
def isFinalTombstone (options : GcOptions) (key : Key) (keeper : CommittedVersion)
    (hasIntent : Bool) : Engine ε Bool :=
  if options.collapseFinalTombstones ∧ keeper.value.isNone ∧ !hasIntent then do
    let latest ← backend (.getLatestCommitTs key) build.failed
    pure (latest = some keeper.commitTs)
  else pure false

/-- Remove the listed versions one by one. -/
def removeVersions (key : Key) : List Timestamp → GcScan → Engine ε GcScan
  | [], scan => pure scan
  | ts :: rest, scan => do
    let _ ← backend (.removeCommittedVersion key ts) build.failed
    removeVersions key rest { scan with versionsRemoved := scan.versionsRemoved + 1 }

/-- No budget left: stop here if the key still has something to remove. -/
def gcKeyExhausted (options : GcOptions) (key : Key) (keeper : CommittedVersion)
    (hasIntent : Bool) (scan : GcScan) : Engine ε GcScan := do
  let checkMore ← backend (.getCommittedTimestampsBefore key keeper.commitTs 1) build.failed
  if !checkMore.isEmpty then pure (scan.stopAt key)
  else do
    let final ← isFinalTombstone build options key keeper hasIntent
    if final then pure (scan.stopAt key) else pure scan

/-- A final tombstone: collapse it with its whole older history if that fits the
remaining budget, otherwise remove older versions only and stop. -/
def gcKeyFinal (key : Key) (keeper : CommittedVersion) (limit : Nat) (scan : GcScan) :
    Engine ε GcScan := do
  let olderVersions ← backend
    (.getCommittedTimestampsBefore key keeper.commitTs (lookAhead limit)) build.failed
  let scan := { scan with versionsScanned := scan.versionsScanned + olderVersions.length }
  if olderVersions.length > limit then do
    let versionsScanned ← build.sub scan.versionsScanned 1
    let scan := { scan with versionsScanned }
    let scan ← removeVersions build key olderVersions.dropLast scan
    pure (scan.stopAt key)
  else if olderVersions.length < limit then do
    let _ ← backend (.collapseTombstone key keeper.commitTs olderVersions) build.failed
    pure { scan with versionsRemoved := scan.versionsRemoved + (olderVersions.length + 1) }
  else do
    let scan ← removeVersions build key olderVersions scan
    pure (scan.stopAt key)

/-- Any other key: remove versions older than the keeper, and stop if some are left. -/
def gcKeyNormal (key : Key) (keeper : CommittedVersion) (limit : Nat) (scan : GcScan) :
    Engine ε GcScan := do
  let toRemove ← backend
    (.getCommittedTimestampsBefore key keeper.commitTs (lookAhead limit)) build.failed
  let scan := { scan with versionsScanned := scan.versionsScanned + toRemove.length }
  if toRemove.length > limit then do
    let versionsScanned ← build.sub scan.versionsScanned 1
    let scan := { scan with versionsScanned }
    let scan ← removeVersions build key toRemove.dropLast scan
    pure (scan.stopAt key)
  else removeVersions build key toRemove scan

/-- A key with a keeper: what is done depends on the budget left. -/
def gcKeyKeeper (options : GcOptions) (key : Key) (keeper : CommittedVersion) (hasIntent : Bool)
    (scan : GcScan) : Engine ε GcScan := do
  let limit ← build.sub options.budget.maxVersions.val scan.versionsRemoved
  if limit = 0 then gcKeyExhausted build options key keeper hasIntent scan
  else do
    let final ← isFinalTombstone build options key keeper hasIntent
    if final then gcKeyFinal build key keeper limit scan
    else gcKeyNormal build key keeper limit scan

/-- The body of the loop over the keys. -/
def gcKey (safePointTs : Timestamp) (options : GcOptions) (key : Key) (scan : GcScan) :
    Engine ε GcScan := do
  let intent ← backend (.getIntent key) build.failed
  let scan := scan.visit intent.isSome
  match ← backend (.getVisibleCommitted key safePointTs) build.failed with
  | none => pure scan
  | some keeper =>
    gcKeyKeeper build options key keeper intent.isSome
      { scan with versionsScanned := scan.versionsScanned + 1 }

/-- The loop over the keys. -/
def gcKeys (safePointTs : Timestamp) (options : GcOptions) :
    List Key → GcScan → Engine ε GcScan
  | [], scan => pure scan
  | key :: keys, scan => do
    let scan ← gcKey build safePointTs options key scan
    if scan.exhaustedVersions then pure scan else gcKeys safePointTs options keys scan

/-- `gc_incremental` in a build. -/
def Build.gcIncremental (safePointTs : Timestamp) (cursor : Option IncrementalGcCursor)
    (options : GcOptions) : Engine ε IncrementalGcResult :=
  if options.budget.maxKeys = 0 ∨ options.budget.maxVersions = 0 then
    throw (build.error .invalidGcBudget)
  else do
    let startKey := cursor.bind (·.nextKey)
    let keys ← backend (.keysFrom startKey (lookAhead options.budget.maxKeys.val)) build.failed
    let scan ← gcKeys build safePointTs options (keys.take options.budget.maxKeys.val) {}
    -- the cursor goes to the first key not scanned, when the scan ran to its end
    let next := if scan.exhaustedVersions then scan.nextCursorKey
      else keys[options.budget.maxKeys.val]?
    pure {
      cursor := ⟨next⟩
      done := !scan.exhaustedVersions && keys.length ≤ options.budget.maxKeys.val
      keysScanned := scan.keysScanned
      versionsScanned := scan.versionsScanned
      versionsRemoved := scan.versionsRemoved
      intentsPreserved := scan.intentsPreserved }

end Step

def gcIncremental (safePointTs : Timestamp) (cursor : Option IncrementalGcCursor)
    (options : GcOptions) : Engine GcError IncrementalGcResult :=
  release.gcIncremental safePointTs cursor options

/-- The loop of `gc`, for at most `fuel` steps: the number of versions removed,
or `none` where the loop is still running. -/
def gcLoop (safePointTs : Timestamp) (options : GcOptions) :
    Nat → Option IncrementalGcCursor → Nat → Engine GcError (Option Nat)
  | 0, _, _ => pure none
  | fuel + 1, cursor, total => do
    let res ← gcIncremental safePointTs cursor options
    let total := total + res.versionsRemoved
    if res.done then pure (some total)
    else gcLoop safePointTs options fuel (some res.cursor) total

/-- The intents found on the listed keys. -/
def countIntents : List Key → Nat → Engine GcError Nat
  | [], total => pure total
  | key :: keys, total => do
    let intent ← backend (.getIntent key) GcError.backend
    countIntents keys (if intent.isSome then total + 1 else total)

/-- The full collection, for at most `fuel` steps of its loop. -/
def gc (fuel : Nat) (safePointTs : Timestamp) (options : GcOptions) :
    Engine GcError (Option GcStats) := do
  match ← gcLoop safePointTs options fuel none 0 with
  | none => pure none
  | some total =>
    let keys ← backend .allKeys GcError.backend
    let intents ← countIntents keys 0
    pure (some ⟨total, intents⟩)

end NexirMvcc
