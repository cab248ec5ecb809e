import NexirMvcc.Backend

/- The operations of `MvccEngine` (`engine.rs`): reads, single-key transactions,
   intent batches, direct and guarded batches. Each is a tree of backend calls;
   `backend c wrap` is `self.backend.c(..).map_err(wrap)?`. A loop of the source
   over the keys of a batch is a recursion over the list, under its own name. -/
namespace NexirMvcc

section
variable {ε α : Type}

/-- One backend call; a failure is wrapped and returned. -/
def backend (c : BackendCall) (wrap : String → ε) : Engine ε c.Reply := CallTree.ask c wrap

def throw (e : ε) : Engine ε α := CallTree.throw e

end

/-! Reads. -/

def read (key : Key) (readTs : Timestamp) : Engine ReadError (Option Value) := do
  let version ← backend (.getVisibleCommitted key readTs) .backend
  pure (version.bind (·.value))

def readWithVersion (key : Key) (readTs : Timestamp) :
    Engine ReadError (Option (Timestamp × Option Value)) := do
  let version ← backend (.getVisibleCommitted key readTs) .backend
  pure (version.map fun v => (v.commitTs, v.value))

def readOwnWrite (key : Key) (txnId : TxnId) (startTs readTs : Timestamp) :
    Engine ReadError (Option Value) := do
  match ← backend (.getIntent key) ReadError.backend with
  | some intent =>
    if intent.txnId = txnId ∧ intent.startTs = startTs then pure intent.mutation.value
    else read key readTs
  | none => read key readTs

/-! Single-key transactions. -/

def prewrite (txnId : TxnId) (startTs : Timestamp) (key : Key) (mutation : Mutation) :
    Engine PrewriteError Unit := do
  match ← backend (.getIntent key) PrewriteError.backend with
  | some intent =>
    if intent.txnId ≠ txnId then throw (.keyLocked intent.txnId)
    else if intent.startTs ≠ startTs then throw .intentAlreadyExists
    else if intent.mutation ≠ mutation then throw .intentAlreadyExists
    else pure ()
  | none =>
    let latest ← backend (.getLatestCommitTs key) PrewriteError.backend
    if latest.any (startTs < ·) then throw .writeConflict
    else do
      let _ ← backend (.putIntent ⟨key, txnId, startTs, mutation, none⟩) PrewriteError.backend
      pure ()

def commit (txnId : TxnId) (key : Key) (startTs commitTs : Timestamp) :
    Engine CommitError Unit := do
  match ← backend (.getIntent key) CommitError.backend with
  | none => throw .intentNotFound
  | some intent =>
    if intent.txnId ≠ txnId then throw .txnIdMismatch
    else if intent.startTs ≠ startTs then throw .startTsMismatch
    else if commitTs ≤ startTs then throw (.invalidCommitTimestamp startTs commitTs)
    else match intent.minCommitTs.filter (commitTs < ·) with
    | some minTs => throw (.commitTsTooEarly commitTs minTs)
    | none =>
      let latest ← backend (.getLatestCommitTs key) CommitError.backend
      match latest.filter (commitTs ≤ ·) with
      | some latestTs =>
        if commitTs = latestTs then throw (.duplicateCommitTimestamp commitTs)
        else throw (.commitTsTooOld commitTs latestTs)
      | none =>
        let _ ← backend (.commitIntentsBatch [⟨key, commitTs, intent.mutation.value⟩]
          [(key, txnId, startTs)]) CommitError.backend
        pure ()

def abort (txnId : TxnId) (key : Key) (startTs : Timestamp) : Engine AbortError Unit := do
  let _ ← backend (.removeIntent key txnId startTs) AbortError.backend
  pure ()

/-! Batches. -/

/-- The first key that the `HashSet` of the keys seen so far already holds. -/
def firstDuplicate : List Key → List Key → Option Key
  | _, [] => none
  | seen, key :: keys => if key ∈ seen then some key else firstDuplicate (key :: seen) keys

/-- The duplicate check every batch operation makes before it looks at the backend. -/
def rejectDuplicates {ε α : Type} (keys : List Key) (e : Key → ε) (p : Engine ε α) : Engine ε α :=
  match firstDuplicate [] keys with
  | some key => throw (e key)
  | none => p

/-- The validation loop of `prewrite_batch`: how many keys already hold the
intent the batch would create. -/
def countExisting (txnId : TxnId) (startTs : Timestamp) :
    List PhysicalWrite → Nat → Engine BatchPrewriteError Nat
  | [], existing => pure existing
  | w :: ws, existing => do
    match ← backend (.getIntent w.key) BatchPrewriteError.backend with
    | some intent =>
      if intent.txnId ≠ txnId then throw (.keyLocked w.key intent.txnId)
      else if intent.startTs ≠ startTs ∨ intent.mutation ≠ Mutation.ofValue w.value then
        throw (.intentAlreadyExists w.key)
      else countExisting txnId startTs ws (existing + 1)
    | none =>
      let latest ← backend (.getLatestCommitTs w.key) BatchPrewriteError.backend
      if latest.any (startTs < ·) then throw (.writeConflict w.key)
      else countExisting txnId startTs ws existing

def prewriteBatch (txnId : TxnId) (startTs : Timestamp) (writes : List PhysicalWrite) :
    Engine BatchPrewriteError Unit :=
  if writes.isEmpty then throw .emptyBatch
  else rejectDuplicates (writes.map (·.key)) .duplicateKeyInBatch do
    let existing ← countExisting txnId startTs writes 0
    if existing = writes.length then pure ()
    else if existing > 0 then throw .partialBatchReplay
    else do
      let _ ← backend (.putIntentsBatch (writes.map fun w =>
        ⟨w.key, txnId, startTs, Mutation.ofValue w.value, none⟩)) BatchPrewriteError.backend
      pure ()

/-- The validation loop of `commit_batch`: the versions to create, in the order
of the keys. -/
def collectCommits (txnId : TxnId) (startTs commitTs : Timestamp) :
    List Key → Engine BatchCommitError (List CommittedVersion)
  | [] => pure []
  | key :: keys => do
    match ← backend (.getIntent key) BatchCommitError.backend with
    | none => throw (.intentNotFound key)
    | some intent =>
      if intent.txnId ≠ txnId then throw (.txnIdMismatch key)
      else if intent.startTs ≠ startTs then throw (.startTsMismatch key)
      else match intent.minCommitTs.filter (commitTs < ·) with
      | some minTs => throw (.commitTsTooEarly key commitTs minTs)
      | none =>
        let latest ← backend (.getLatestCommitTs key) BatchCommitError.backend
        match latest.filter (commitTs ≤ ·) with
        | some latestTs => throw (.commitTsTooOld key commitTs latestTs)
        | none =>
          let commits ← collectCommits txnId startTs commitTs keys
          pure (⟨key, commitTs, intent.mutation.value⟩ :: commits)

def commitBatch (txnId : TxnId) (startTs commitTs : Timestamp) (keys : List Key) :
    Engine BatchCommitError Unit :=
  if keys.isEmpty then throw .emptyBatch
  else rejectDuplicates keys .duplicateKeyInBatch <|
    if commitTs ≤ startTs then throw (.invalidCommitTimestamp startTs commitTs)
    else do
      let commits ← collectCommits txnId startTs commitTs keys
      let _ ← backend (.commitIntentsBatch commits (keys.map fun key => (key, txnId, startTs)))
        BatchCommitError.backend
      pure ()

/-- The lookup loop of `abort_batch`: the keys that hold an intent of the
transaction. -/
def collectAborts (txnId : TxnId) (startTs : Timestamp) :
    List Key → Engine BatchAbortError (List (Key × TxnId × Timestamp))
  | [] => pure []
  | key :: keys => do
    let intent ← backend (.getIntent key) BatchAbortError.backend
    let removed ← collectAborts txnId startTs keys
    if intent.any (fun i => i.txnId = txnId ∧ i.startTs = startTs) then
      pure ((key, txnId, startTs) :: removed)
    else pure removed

def abortBatch (txnId : TxnId) (startTs : Timestamp) (keys : List Key) :
    Engine BatchAbortError Unit :=
  if keys.isEmpty then pure ()
  else rejectDuplicates keys .duplicateKeyInBatch do
    let removed ← collectAborts txnId startTs keys
    let _ ← backend (.removeIntentsBatch removed) BatchAbortError.backend
    pure ()

/-- The validation loop over the writes of a direct or a guarded batch: no key
is locked, and the commit timestamp is above every latest version. -/
def checkWrites (commitTs : Timestamp) : List PhysicalWrite → Engine BatchError Unit
  | [] => pure ()
  | w :: ws => do
    match ← backend (.getIntent w.key) BatchError.backend with
    | some intent => throw (.keyLocked w.key intent.txnId)
    | none =>
      let latest ← backend (.getLatestCommitTs w.key) BatchError.backend
      match latest.filter (commitTs ≤ ·) with
      | some latestTs => throw (.commitTsTooOld w.key commitTs latestTs)
      | none => checkWrites commitTs ws

/-- The versions a batch of writes creates. -/
def commitsOf (commitTs : Timestamp) (writes : List PhysicalWrite) : List CommittedVersion :=
  writes.map fun w => ⟨w.key, commitTs, w.value⟩

def applyDirectBatch (commitTs : Timestamp) (writes : List PhysicalWrite) :
    Engine BatchError Unit :=
  if writes.isEmpty then throw .emptyBatch
  else rejectDuplicates (writes.map (·.key)) .duplicateKeyInBatch do
    checkWrites commitTs writes
    let _ ← backend (.putCommittedBatch (commitsOf commitTs writes)) BatchError.backend
    pure ()

/-- The comparison of a guard with the version visible at its read timestamp. -/
def ReadGuard.verdict (guard : ReadGuard) (visible : Option CommittedVersion) :
    Except BatchError Unit :=
  match guard with
  | .expectedVersion key _ expected =>
    if visible.map (·.commitTs) ≠ expected then
      .error (.guardFailedVersionMismatch key expected (visible.map (·.commitTs)))
    else .ok ()
  | .expectedValue key _ expected =>
    if visible.bind (·.value) ≠ expected then .error (.guardFailedValueMismatch key)
    else .ok ()

/-- The loop over the guards of a guarded batch. -/
def checkGuards (commitTs : Timestamp) : List ReadGuard → Engine BatchError Unit
  | [] => pure ()
  | guard :: guards =>
    if commitTs ≤ guard.readTs then throw (.invalidCommitTimestamp guard.readTs commitTs)
    else do
      match ← backend (.getIntent guard.key) BatchError.backend with
      | some intent => throw (.keyLocked guard.key intent.txnId)
      | none =>
        let latest ← backend (.getLatestCommitTs guard.key) BatchError.backend
        match latest.filter (guard.readTs < ·) with
        | some latestTs => throw (.guardFailedNewerVersion guard.key guard.readTs latestTs)
        | none =>
          let visible ← backend (.getVisibleCommitted guard.key guard.readTs) BatchError.backend
          match guard.verdict visible with
          | .error e => throw e
          | .ok () => checkGuards commitTs guards

def applyGuardedBatch (commitTs : Timestamp) (guards : List ReadGuard)
    (writes : List PhysicalWrite) : Engine BatchError Unit :=
  if writes.isEmpty then throw .emptyBatch
  else if guards.isEmpty then throw .noReadGuards
  else rejectDuplicates (writes.map (·.key)) .duplicateKeyInBatch do
    checkGuards commitTs guards
    checkWrites commitTs writes
    let _ ← backend (.putCommittedBatch (commitsOf commitTs writes)) BatchError.backend
    pure ()

end NexirMvcc
