import Mathlib

/- The core data types (`types.rs`, `error.rs`) and the option and result records
   of the engine (`engine.rs`).

   Correspondence (Rust ↔ Lean):
     `u8`, `Vec<u8>`        ↔ `Byte`, `List Byte`
     `Timestamp(u128)`      ↔ `Timestamp`, the numbers below 2^128 in their order
     `TxnId(u64)`           ↔ `TxnId`
     `usize` (64-bit)       ↔ `Usize` for the budgets a caller passes; lengths and
                              counters of in-memory lists are `Nat`
     `Option<T>`            ↔ `Option`
     `Result<T, E>`         ↔ `Except`
   Keys compare as byte strings, lexicographically. -/
namespace NexirMvcc

abbrev Byte := Fin (2 ^ 8)
/-- A monotonic logical timestamp. -/
abbrev Timestamp := Fin (2 ^ 128)
/-- A transaction identifier. -/
abbrev TxnId := Fin (2 ^ 64)
/-- A physical key. -/
abbrev Key := List Byte
/-- A physical value. -/
abbrev Value := List Byte
abbrev Usize := Fin (2 ^ 64)

/-! Facts about these types that literals, lookups and membership tests rest on, named
once for all modules. -/

instance byteNeZero : NeZero (2 ^ 8) := inferInstance
instance usizeNeZero : NeZero (2 ^ 64) := inferInstance
instance timestampNeZero : NeZero (2 ^ 128) := inferInstance
instance keyLawfulBEq : LawfulBEq Key := inferInstance
instance keyTransCmp : @Std.TransCmp Key (@compare Key LinearOrder.toOrd) := inferInstance
instance keyTimestampTransCmp :
    @Std.TransCmp (Key ×ₗ Timestamp) (@compare (Key ×ₗ Timestamp) LinearOrder.toOrd) := inferInstance

/-- A logical mutation to a key. -/
inductive Mutation where
  | put (v : Value)
  | delete
  deriving DecidableEq, Repr

/-- The value a mutation leaves; a delete leaves none. -/
def Mutation.value : Mutation → Option Value
  | .put v => some v
  | .delete => none

/-- The mutation of a physical write: `Some(v)` puts, `None` deletes. -/
def Mutation.ofValue : Option Value → Mutation
  | some v => .put v
  | none => .delete

@[simp] theorem Mutation.value_ofValue (v : Option Value) : (Mutation.ofValue v).value = v := by
  cases v <;> rfl

theorem Mutation.ofValue_value (m : Mutation) : Mutation.ofValue m.value = m := by
  cases m <;> rfl

/-- A provisional lock: an uncommitted transactional write. -/
structure Intent where
  key : Key
  txnId : TxnId
  startTs : Timestamp
  mutation : Mutation
  minCommitTs : Option Timestamp
  deriving DecidableEq, Repr

/-- A committed version of a key; value `none` is a tombstone. -/
structure CommittedVersion where
  key : Key
  commitTs : Timestamp
  value : Option Value
  deriving DecidableEq, Repr

/-- A raw write of a direct, guarded or prewrite batch; value `none` deletes. -/
structure PhysicalWrite where
  key : Key
  value : Option Value
  deriving DecidableEq, Repr

/-- A precondition of a guarded batch. -/
inductive ReadGuard where
  | expectedVersion (key : Key) (readTs : Timestamp) (expectedCommitTs : Option Timestamp)
  | expectedValue (key : Key) (readTs : Timestamp) (expectedValue : Option Value)
  deriving DecidableEq, Repr

def ReadGuard.key : ReadGuard → Key
  | .expectedVersion key _ _ => key
  | .expectedValue key _ _ => key

def ReadGuard.readTs : ReadGuard → Timestamp
  | .expectedVersion _ readTs _ => readTs
  | .expectedValue _ readTs _ => readTs

/-- Guards on the value rather than the version. -/
def ReadGuard.isExpectedValue : ReadGuard → Bool
  | .expectedVersion _ _ _ => false
  | .expectedValue _ _ _ => true

/-! Errors. -/

inductive ReadError where
  | backend (msg : String)
  deriving DecidableEq, Repr

inductive PrewriteError where
  | keyLocked (txnId : TxnId)
  | writeConflict
  | backend (msg : String)
  | intentAlreadyExists
  deriving DecidableEq, Repr

inductive CommitError where
  | intentNotFound
  | txnIdMismatch
  | startTsMismatch
  | invalidCommitTimestamp (startTs commitTs : Timestamp)
  | duplicateCommitTimestamp (commitTs : Timestamp)
  | commitTsTooOld (commitTs latestCommitTs : Timestamp)
  | commitTsTooEarly (commitTs minCommitTs : Timestamp)
  | backend (msg : String)
  deriving DecidableEq, Repr

inductive AbortError where
  | backend (msg : String)
  deriving DecidableEq, Repr

inductive GcError where
  | backend (msg : String)
  | invalidGcBudget
  | invalidKeyGcBudget
  deriving DecidableEq, Repr

inductive CodecError where
  | encode (msg : String)
  | decode (msg : String)
  deriving DecidableEq, Repr

inductive BatchError where
  | emptyBatch
  | invalidCommitTimestamp (readTs commitTs : Timestamp)
  | commitTsTooOld (key : Key) (commitTs latestCommitTs : Timestamp)
  | noReadGuards
  | duplicateKeyInBatch (key : Key)
  | keyLocked (key : Key) (txnId : TxnId)
  | guardFailedNewerVersion (key : Key) (readTs actualCommitTs : Timestamp)
  | guardFailedVersionMismatch (key : Key) (expected actual : Option Timestamp)
  | guardFailedValueMismatch (key : Key)
  | backend (msg : String)
  deriving DecidableEq, Repr

inductive BatchPrewriteError where
  | emptyBatch
  | duplicateKeyInBatch (key : Key)
  | keyLocked (key : Key) (txnId : TxnId)
  | writeConflict (key : Key)
  | intentAlreadyExists (key : Key)
  | partialBatchReplay
  | backend (msg : String)
  deriving DecidableEq, Repr

inductive BatchCommitError where
  | emptyBatch
  | duplicateKeyInBatch (key : Key)
  | intentNotFound (key : Key)
  | txnIdMismatch (key : Key)
  | startTsMismatch (key : Key)
  | invalidCommitTimestamp (startTs commitTs : Timestamp)
  | commitTsTooEarly (key : Key) (commitTs minCommitTs : Timestamp)
  | commitTsTooOld (key : Key) (commitTs latestCommitTs : Timestamp)
  | backend (msg : String)
  deriving DecidableEq, Repr

inductive BatchAbortError where
  | duplicateKeyInBatch (key : Key)
  | backend (msg : String)
  deriving DecidableEq, Repr

/-! Garbage-collection options and results. -/

structure GcStats where
  versionsRemoved : Nat
  intentsPreserved : Nat
  deriving DecidableEq, Repr

structure GcBudget where
  maxKeys : Usize
  maxVersions : Usize
  deriving DecidableEq, Repr

structure GcOptions where
  budget : GcBudget
  collapseFinalTombstones : Bool
  deriving DecidableEq, Repr

structure IncrementalGcCursor where
  nextKey : Option Key
  deriving DecidableEq, Repr

structure IncrementalGcResult where
  cursor : IncrementalGcCursor
  done : Bool
  keysScanned : Nat
  versionsScanned : Nat
  versionsRemoved : Nat
  intentsPreserved : Nat
  deriving DecidableEq, Repr

/-- Options of a plan for one key. -/
structure KeyGcOptions where
  maxVersionsExamined : Usize
  collapseFinalTombstones : Bool
  deriving DecidableEq, Repr

/-- What to remove from one key; `complete` if nothing is left unplanned. -/
structure KeyGcPlan where
  key : Key
  versionsToRemove : List Timestamp
  collapseTombstone : Option Timestamp
  versionsExamined : Nat
  complete : Bool
  deriving DecidableEq, Repr

end NexirMvcc
