import NexirMvcc.Types
import NexirMvcc.Foundation.CallTree
import NexirMvcc.Foundation.OrderedMap

/- The storage backend (`backend.rs`). The `Backend` trait is the signature of
   the calls an engine operation can make: `BackendCall` lists the methods the
   engine uses and `BackendCall.Reply` what each returns when it does not fail.
   `InMemoryBackend` is the reference implementation; its methods below stand
   under the source's names and never fail, but for `keys_from_prefix`, which
   refuses some arguments. The engine does not call that one, and it is no
   `BackendCall`.

   The `HashMap` of intents is an ordered map: the source only looks up, inserts
   and removes in it, so its order is never seen. -/
namespace NexirMvcc

/-- The calls the engine makes on a backend. -/
inductive BackendCall where
  | getVisibleCommitted (key : Key) (readTs : Timestamp)
  | getLatestCommitTs (key : Key)
  | getIntent (key : Key)
  | putIntent (intent : Intent)
  | removeIntent (key : Key) (txnId : TxnId) (startTs : Timestamp)
  | putCommittedBatch (versions : List CommittedVersion)
  | removeCommittedVersion (key : Key) (commitTs : Timestamp)
  | allKeys
  | putIntentsBatch (intents : List Intent)
  | commitIntentsBatch (commits : List CommittedVersion)
      (removedIntents : List (Key × TxnId × Timestamp))
  | removeIntentsBatch (intents : List (Key × TxnId × Timestamp))
  | keysFrom (start : Option Key) (limit : Nat)
  | getCommittedTimestampsBefore (key : Key) (beforeTs : Timestamp) (limit : Nat)
  | collapseTombstone (key : Key) (tombstoneTs : Timestamp) (olderTs : List Timestamp)

/-- What a call returns when it succeeds. -/
abbrev BackendCall.Reply : BackendCall → Type
  | .getVisibleCommitted _ _ => Option CommittedVersion
  | .getLatestCommitTs _ => Option Timestamp
  | .getIntent _ => Option Intent
  | .removeIntent _ _ _ => Bool
  | .allKeys => List Key
  | .keysFrom _ _ => List Key
  | .getCommittedTimestampsBefore _ _ _ => List Timestamp
  | _ => Unit

/-- The methods that take `&mut self`. -/
def BackendCall.mutates : BackendCall → Bool
  | .putIntent _ => true
  | .removeIntent _ _ _ => true
  | .putCommittedBatch _ => true
  | .removeCommittedVersion _ _ => true
  | .putIntentsBatch _ => true
  | .commitIntentsBatch _ _ => true
  | .removeIntentsBatch _ => true
  | .collapseTombstone _ _ _ => true
  | _ => false

/-- An engine operation failing with `ε`: a tree of backend calls. A failed call
carries a message. -/
abbrev Engine (ε α : Type) := CallTree BackendCall.Reply String ε α

structure InMemoryBackend where
  committed : OrderedMap (Key ×ₗ Timestamp) (Option Value)
  intents : OrderedMap Key Intent
  allKeysSet : OrderedSet Key

namespace InMemoryBackend

/-- An empty backend. -/
def new : InMemoryBackend := ⟨∅, ∅, ∅⟩

variable (b : InMemoryBackend)

/-! Lookups. -/

/-- The first `(key, ts)` entry in the order of the map. -/
def lowest (key : Key) : Key ×ₗ Timestamp := toLex (key, 0)

/-- `Timestamp(u128::MAX)`. -/
def maxTs : Timestamp := Fin.last _

/-- The entry of a range's end, if it belongs to `key`. -/
def versionOf (key : Key) : Option ((Key ×ₗ Timestamp) × Option Value) → Option CommittedVersion
  | some (kts, value) =>
    if (ofLex kts).1 = key then some ⟨(ofLex kts).1, (ofLex kts).2, value⟩ else none
  | none => none

def getCommittedVersions (key : Key) : List CommittedVersion :=
  ((b.committed.rangeFrom (lowest key)).takeWhile (fun e => (ofLex e.1).1 = key)).map
    fun e => ⟨(ofLex e.1).1, (ofLex e.1).2, e.2⟩

def getLatestCommitted (key : Key) : Option CommittedVersion :=
  versionOf key (b.committed.rangeIncl (lowest key) (toLex (key, maxTs))).getLast?

def getVisibleCommitted (key : Key) (readTs : Timestamp) : Option CommittedVersion :=
  versionOf key (b.committed.rangeIncl (lowest key) (toLex (key, readTs))).getLast?

def getLatestCommitTs (key : Key) : Option Timestamp :=
  (versionOf key (b.committed.rangeIncl (lowest key) (toLex (key, maxTs))).getLast?).map (·.commitTs)

def getIntent (key : Key) : Option Intent := b.intents[key]?

def allKeys : List Key := b.allKeysSet.toList

def keysFrom (start : Option Key) (limit : Nat) : List Key :=
  match start with
  | some s => (b.allKeysSet.rangeFrom s).take limit
  | none => b.allKeysSet.toList.take limit

/-- The loop of `keys_from_prefix`, with the result so far. -/
def scanPrefix (pfx : Key) (limit : Nat) :
    List Key → List ((Key ×ₗ Timestamp) × Option Value) → List Key
  | result, [] => result
  | result, (kts, _) :: rest =>
    let k := (ofLex kts).1
    if ¬ pfx <+: k then result
    else if result.getLast? ≠ some k then
      if (result ++ [k]).length = limit then result ++ [k]
      else scanPrefix pfx limit (result ++ [k]) rest
    else scanPrefix pfx limit result rest

def keysFromPrefix (pfx : Key) (start : Option Key) (limit : Nat) : Except String (List Key) :=
  if limit = 0 then .ok []
  else if pfx.isEmpty then .error "Prefix cannot be empty"
  else if start.any (fun s => ¬ pfx <+: s) then .error "Start cursor must start with the prefix"
  else .ok (scanPrefix pfx limit [] (b.committed.rangeFrom (lowest (start.getD pfx))))

/-- Newest first; the range ends before `(key, beforeTs)`. -/
def getCommittedTimestampsBefore (key : Key) (beforeTs : Timestamp) (limit : Nat) :
    List Timestamp :=
  (((b.committed.rangeExcl (lowest key) (toLex (key, beforeTs))).reverse.take limit).filter
    (fun e => (ofLex e.1).1 = key)).map (fun e => (ofLex e.1).2)

/-! Updates. -/

/-- Forget a key that has neither an intent nor a version left. -/
def maybeRemoveFromKeys (key : Key) : InMemoryBackend :=
  if b.intents.contains key then b
  else if (b.committed.rangeIncl (lowest key) (toLex (key, maxTs))).head?.isNone then
    { b with allKeysSet := b.allKeysSet.erase key }
  else b

def putIntent (intent : Intent) : InMemoryBackend :=
  { b with
    allKeysSet := b.allKeysSet.insert intent.key
    intents := b.intents.insert intent.key intent }

/-- Remove the intent of `(txnId, startTs)` on `key`; `true` if there was one. -/
def removeIntent (key : Key) (txnId : TxnId) (startTs : Timestamp) : Bool × InMemoryBackend :=
  match b.intents[key]? with
  | some intent =>
    if intent.txnId = txnId ∧ intent.startTs = startTs then
      (true, { b with intents := b.intents.erase key }.maybeRemoveFromKeys key)
    else (false, b)
  | none => (false, b)

def putCommitted (version : CommittedVersion) : InMemoryBackend :=
  { b with
    allKeysSet := b.allKeysSet.insert version.key
    committed := b.committed.insert (toLex (version.key, version.commitTs)) version.value }

def putCommittedBatch (versions : List CommittedVersion) : InMemoryBackend :=
  versions.foldl putCommitted b

def removeCommittedVersion (key : Key) (commitTs : Timestamp) : InMemoryBackend :=
  { b with committed := b.committed.erase (toLex (key, commitTs)) }.maybeRemoveFromKeys key

def putIntentsBatch (intents : List Intent) : InMemoryBackend :=
  intents.foldl putIntent b

def removeIntentsBatch (intents : List (Key × TxnId × Timestamp)) : InMemoryBackend :=
  intents.foldl (fun b i => (b.removeIntent i.1 i.2.1 i.2.2).2) b

def commitIntentsBatch (commits : List CommittedVersion)
    (removedIntents : List (Key × TxnId × Timestamp)) : InMemoryBackend :=
  (b.putCommittedBatch commits).removeIntentsBatch removedIntents

def collapseTombstone (key : Key) (tombstoneTs : Timestamp) (olderTs : List Timestamp) :
    InMemoryBackend :=
  { b with
    committed := olderTs.foldl (fun m ts => m.erase (toLex (key, ts)))
      (b.committed.erase (toLex (key, tombstoneTs))) }.maybeRemoveFromKeys key

end InMemoryBackend

/-- `impl Backend for InMemoryBackend`. -/
def memCall : CallTree.Handler BackendCall.Reply String InMemoryBackend
  | .getVisibleCommitted key readTs, b => (.ok (b.getVisibleCommitted key readTs), b)
  | .getLatestCommitTs key, b => (.ok (b.getLatestCommitTs key), b)
  | .getIntent key, b => (.ok (b.getIntent key), b)
  | .putIntent intent, b => (.ok (), b.putIntent intent)
  | .removeIntent key txnId startTs, b =>
    (.ok (b.removeIntent key txnId startTs).1, (b.removeIntent key txnId startTs).2)
  | .putCommittedBatch versions, b => (.ok (), b.putCommittedBatch versions)
  | .removeCommittedVersion key commitTs, b => (.ok (), b.removeCommittedVersion key commitTs)
  | .allKeys, b => (.ok b.allKeys, b)
  | .putIntentsBatch intents, b => (.ok (), b.putIntentsBatch intents)
  | .commitIntentsBatch commits removedIntents, b =>
    (.ok (), b.commitIntentsBatch commits removedIntents)
  | .removeIntentsBatch intents, b => (.ok (), b.removeIntentsBatch intents)
  | .keysFrom start limit, b => (.ok (b.keysFrom start limit), b)
  | .getCommittedTimestampsBefore key beforeTs limit, b =>
    (.ok (b.getCommittedTimestampsBefore key beforeTs limit), b)
  | .collapseTombstone key tombstoneTs olderTs, b =>
    (.ok (), b.collapseTombstone key tombstoneTs olderTs)

/-- An engine operation on the in-memory backend. -/
def Engine.run {ε α : Type} (p : Engine ε α) (b : InMemoryBackend) : Except ε α × InMemoryBackend :=
  CallTree.eval memCall p b

end NexirMvcc
