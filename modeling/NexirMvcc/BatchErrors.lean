import NexirMvcc.Effects

/- Which error a batch returns. A batch checks its keys in the order given and stops at
   the first that fails, so its error is the one that this key alone would give, in the
   error type of the batch (`batch_error_first_failure`). The single operation and the
   batch differ in three points, and the theorem says in which: a commit batch looks at
   its timestamps before any intent, it has no error for a commit timestamp that is
   already taken, and a prewrite batch of which some keys are locked already and others
   are not is refused although each key alone would pass. -/
namespace NexirMvcc

def errorOf {ε α : Type} : Except ε α → Option ε
  | .ok _ => none
  | .error e => some e

/-- A batch fails with `e`, or goes on. -/
def failWith {ε α : Type} (e : Option ε) (a : α) : Except ε α :=
  match e with
  | some e => .error e
  | none => .ok a

/-- The error of a single prewrite, as a batch returns it. -/
def PrewriteError.inBatch (key : Key) : PrewriteError → BatchPrewriteError
  | .keyLocked txnId => .keyLocked key txnId
  | .writeConflict => .writeConflict key
  | .backend msg => .backend msg
  | .intentAlreadyExists => .intentAlreadyExists key

/-- The error of a single commit, as a batch returns it. -/
def CommitError.inBatch (key : Key) : CommitError → BatchCommitError
  | .intentNotFound => .intentNotFound key
  | .txnIdMismatch => .txnIdMismatch key
  | .startTsMismatch => .startTsMismatch key
  | .invalidCommitTimestamp startTs commitTs => .invalidCommitTimestamp startTs commitTs
  | .duplicateCommitTimestamp commitTs => .commitTsTooOld key commitTs commitTs
  | .commitTsTooOld commitTs latestCommitTs => .commitTsTooOld key commitTs latestCommitTs
  | .commitTsTooEarly commitTs minCommitTs => .commitTsTooEarly key commitTs minCommitTs
  | .backend msg => .backend msg

section Single
variable (b : InMemoryBackend)

def prewriteFailure (txnId : TxnId) (startTs : Timestamp) (w : PhysicalWrite) :
    Option BatchPrewriteError :=
  (errorOf ((prewrite txnId startTs w.key (Mutation.ofValue w.value)).run b).1).map (·.inBatch w.key)

def commitFailure (txnId : TxnId) (startTs commitTs : Timestamp) (key : Key) :
    Option BatchCommitError :=
  (errorOf ((commit txnId key startTs commitTs).run b).1).map (·.inBatch key)

/-- The error of the batch of one write. -/
def writeFailure (commitTs : Timestamp) (w : PhysicalWrite) : Option BatchError :=
  errorOf ((applyDirectBatch commitTs [w]).run b).1

/-- The error of a guard on its own. -/
def guardFailure (commitTs : Timestamp) (g : ReadGuard) : Option BatchError :=
  errorOf ((checkGuards commitTs [g]).run b).1

end Single

section Loops
variable {b : InMemoryBackend} {txnId : TxnId} {startTs commitTs : Timestamp}

theorem prewriteFailure_none (w : PhysicalWrite) (hi : b.getIntent w.key = none) :
    prewriteFailure b txnId startTs w =
      if (b.getLatestCommitTs w.key).any (startTs < ·) then some (.writeConflict w.key) else none := by
  unfold prewriteFailure prewrite
  rw [run_getIntent, hi]
  dsimp only
  rw [run_getLatestCommitTs]
  split <;> rfl

theorem prewriteFailure_some (w : PhysicalWrite) {i : Intent} (hi : b.getIntent w.key = some i) :
    prewriteFailure b txnId startTs w =
      if i.txnId ≠ txnId then some (.keyLocked w.key i.txnId)
      else if i.startTs ≠ startTs ∨ i.mutation ≠ Mutation.ofValue w.value then
        some (.intentAlreadyExists w.key)
      else none := by
  unfold prewriteFailure prewrite
  rw [run_getIntent, hi]
  dsimp only
  by_cases h1 : i.txnId ≠ txnId
  · rw [if_pos h1, if_pos h1]
    rfl
  · rw [if_neg h1, if_neg h1]
    by_cases h2 : i.startTs ≠ startTs
    · rw [if_pos h2, if_pos (.inl h2)]
      rfl
    · rw [if_neg h2]
      by_cases h3 : i.mutation ≠ Mutation.ofValue w.value
      · rw [if_pos h3, if_pos (.inr h3)]
        rfl
      · rw [if_neg h3, if_neg (not_or.mpr ⟨h2, h3⟩)]
        rfl

/-- The validation loop of a prewrite batch. -/
theorem countExisting_run (ws : List PhysicalWrite) (n : Nat) :
    (countExisting txnId startTs ws n).run b =
      (failWith (ws.findSome? (prewriteFailure b txnId startTs))
        (n + ws.countP fun w => (b.getIntent w.key).isSome), b) := by
  induction ws generalizing n with
  | nil => rfl
  | cons w ws ih =>
    unfold countExisting
    rw [run_getIntent, List.findSome?_cons, List.countP_cons]
    cases hi : b.getIntent w.key with
    | none =>
      rw [prewriteFailure_none w hi]
      dsimp only
      rw [run_getLatestCommitTs]
      split
      · rfl
      · exact ih n
    | some i =>
      rw [prewriteFailure_some w hi]
      dsimp only
      split
      · rfl
      · split
        · rfl
        · rw [ih (n + 1)]
          simp only [Option.isSome_some, if_true]
          rw [Nat.add_right_comm, Nat.add_assoc]

theorem commitFailure_none {key : Key} (hi : b.getIntent key = none) :
    commitFailure b txnId startTs commitTs key = some (.intentNotFound key) := by
  unfold commitFailure commit
  rw [run_getIntent, hi]
  rfl

theorem commitFailure_some {key : Key} {i : Intent} (hi : b.getIntent key = some i)
    (hlt : startTs < commitTs) :
    commitFailure b txnId startTs commitTs key =
      if i.txnId ≠ txnId then some (.txnIdMismatch key)
      else if i.startTs ≠ startTs then some (.startTsMismatch key)
      else match i.minCommitTs.filter (commitTs < ·) with
      | some minTs => some (.commitTsTooEarly key commitTs minTs)
      | none => match (b.getLatestCommitTs key).filter (commitTs ≤ ·) with
        | some latestTs => some (.commitTsTooOld key commitTs latestTs)
        | none => none := by
  unfold commitFailure commit
  rw [run_getIntent, hi]
  dsimp only
  split
  · rfl
  · split
    · rfl
    · rw [if_neg hlt.not_ge]
      cases i.minCommitTs.filter (commitTs < ·) with
      | some minTs => rfl
      | none =>
        dsimp only
        rw [run_getLatestCommitTs]
        cases (b.getLatestCommitTs key).filter (commitTs ≤ ·) with
        | none => rfl
        | some latestTs =>
          dsimp only
          split
          -- a timestamp that is taken is too old for the batch
          · next he => rw [← he]; rfl
          · rfl

/-- The validation loop of a commit batch. -/
theorem collectCommits_run (keys : List Key) (hlt : startTs < commitTs) :
    (collectCommits txnId startTs commitTs keys).run b =
      (failWith (keys.findSome? (commitFailure b txnId startTs commitTs))
        (keys.map (commitOf b commitTs)), b) := by
  induction keys with
  | nil => rfl
  | cons key keys ih =>
    unfold collectCommits
    rw [run_getIntent, List.findSome?_cons]
    cases hi : b.getIntent key with
    | none =>
      rw [commitFailure_none hi]
      rfl
    | some i =>
      rw [commitFailure_some hi hlt]
      dsimp only
      split
      · rfl
      · split
        · rfl
        · cases i.minCommitTs.filter (commitTs < ·) with
          | some minTs => rfl
          | none =>
            dsimp only
            rw [run_getLatestCommitTs]
            cases (b.getLatestCommitTs key).filter (commitTs ≤ ·) with
            | some latestTs => rfl
            | none =>
              dsimp only
              rw [run_bind, ih]
              cases keys.findSome? (commitFailure b txnId startTs commitTs) with
              | some e => rfl
              | none => simp [failWith, commitOf_eq hi, Engine.run, CallTree.eval, pure]

theorem writeFailure_eq (w : PhysicalWrite) :
    writeFailure b commitTs w = match b.getIntent w.key with
      | some i => some (.keyLocked w.key i.txnId)
      | none => ((b.getLatestCommitTs w.key).filter (commitTs ≤ ·)).map (.commitTsTooOld w.key commitTs) := by
  show errorOf ((do
    checkWrites commitTs [w]
    let _ ← backend (.putCommittedBatch (commitsOf commitTs [w])) BatchError.backend
    pure () : Engine BatchError Unit).run b).1 = _
  rw [run_bind]
  unfold checkWrites
  rw [run_getIntent]
  cases b.getIntent w.key with
  | some i => rfl
  | none =>
    dsimp only
    rw [run_getLatestCommitTs]
    cases (b.getLatestCommitTs w.key).filter (commitTs ≤ ·) <;> rfl

/-- The loop over the writes. -/
theorem checkWrites_run (ws : List PhysicalWrite) :
    (checkWrites commitTs ws).run b = (failWith (ws.findSome? (writeFailure b commitTs)) (), b) := by
  induction ws with
  | nil => rfl
  | cons w ws ih =>
    unfold checkWrites
    rw [run_getIntent, List.findSome?_cons, writeFailure_eq]
    cases b.getIntent w.key with
    | some i => rfl
    | none =>
      dsimp only
      rw [run_getLatestCommitTs]
      cases (b.getLatestCommitTs w.key).filter (commitTs ≤ ·) with
      | some latestTs => rfl
      | none => exact ih

/-- The loop over the guards. -/
theorem checkGuards_run (gs : List ReadGuard) :
    (checkGuards commitTs gs).run b = (failWith (gs.findSome? (guardFailure b commitTs)) (), b) := by
  induction gs with
  | nil => rfl
  | cons g gs ih =>
    rw [List.findSome?_cons]
    unfold guardFailure checkGuards
    split
    · rfl
    · rw [run_getIntent, run_getIntent]
      cases b.getIntent g.key with
      | some i => rfl
      | none =>
        dsimp only
        rw [run_getLatestCommitTs, run_getLatestCommitTs]
        cases (b.getLatestCommitTs g.key).filter (g.readTs < ·) with
        | some latestTs => rfl
        | none =>
          dsimp only
          rw [run_getVisibleCommitted, run_getVisibleCommitted]
          cases g.verdict (b.getVisibleCommitted g.key g.readTs) with
          | error e => rfl
          | ok u => exact ih

end Loops

/-- The checks that a batch makes before it looks at the backend, and what it returns
after them. -/
def afterChecks {ε : Type} (early : Option ε) (keys : List Key) (dup : Key → ε) (late : Option ε) :
    Except ε Unit :=
  failWith (early.or (((firstDuplicate [] keys).map dup).or late)) ()

section Batches
variable (b : InMemoryBackend) (txnId : TxnId) (startTs commitTs : Timestamp)
  (ws : List PhysicalWrite) (gs : List ReadGuard) (keys : List Key)

theorem prewriteBatch_error :
    ((prewriteBatch txnId startTs ws).run b).1 =
      afterChecks (if ws.isEmpty then some .emptyBatch else none) (ws.map (·.key))
        .duplicateKeyInBatch ((ws.findSome? (prewriteFailure b txnId startTs)).or
          (if 0 < ws.countP (fun w => (b.getIntent w.key).isSome) ∧
              ws.countP (fun w => (b.getIntent w.key).isSome) < ws.length then
            some .partialBatchReplay else none)) := by
  unfold prewriteBatch rejectDuplicates afterChecks
  split
  · rfl
  · cases firstDuplicate [] (ws.map (·.key)) with
    | some key => rfl
    | none =>
      dsimp only
      rw [run_bind, countExisting_run]
      cases ws.findSome? (prewriteFailure b txnId startTs) with
      | some e => rfl
      | none =>
        have hle : ws.countP (fun w => (b.getIntent w.key).isSome) ≤ ws.length :=
          List.countP_le_length
        generalize ws.countP (fun w => (b.getIntent w.key).isSome) = locked at hle ⊢
        simp only [failWith, Nat.zero_add]
        by_cases hall : locked = ws.length
        · rw [if_pos hall, if_neg fun h => absurd hall h.2.ne]
          rfl
        · rw [if_neg hall]
          by_cases hsome : 0 < locked
          · rw [if_pos hsome, if_pos ⟨hsome, lt_of_le_of_ne hle hall⟩]
            rfl
          · rw [if_neg hsome, if_neg fun h => hsome h.1]
            rfl

theorem commitBatch_error :
    ((commitBatch txnId startTs commitTs keys).run b).1 =
      afterChecks (if keys.isEmpty then some .emptyBatch else none) keys .duplicateKeyInBatch
        (if commitTs ≤ startTs then some (.invalidCommitTimestamp startTs commitTs)
          else keys.findSome? (commitFailure b txnId startTs commitTs)) := by
  unfold commitBatch rejectDuplicates afterChecks
  split
  · rfl
  · cases firstDuplicate [] keys with
    | some key => rfl
    | none =>
      dsimp only
      split
      · rfl
      · next hlt =>
        rw [run_bind, collectCommits_run keys (not_le.mp hlt)]
        cases keys.findSome? (commitFailure b txnId startTs commitTs) <;> rfl

theorem abortBatch_error :
    ((abortBatch txnId startTs keys).run b).1 = afterChecks none keys .duplicateKeyInBatch none := by
  unfold abortBatch rejectDuplicates afterChecks
  cases keys with
  | nil => rfl
  | cons key keys =>
    rw [if_neg (by simp)]
    cases firstDuplicate [] (key :: keys) with
    | some key => rfl
    | none =>
      dsimp only
      rw [run_bind, collectAborts_run]
      rfl

theorem applyDirectBatch_error :
    ((applyDirectBatch commitTs ws).run b).1 =
      afterChecks (if ws.isEmpty then some .emptyBatch else none) (ws.map (·.key))
        .duplicateKeyInBatch (ws.findSome? (writeFailure b commitTs)) := by
  unfold applyDirectBatch rejectDuplicates afterChecks
  split
  · rfl
  · cases firstDuplicate [] (ws.map (·.key)) with
    | some key => rfl
    | none =>
      dsimp only
      rw [run_bind, checkWrites_run]
      cases ws.findSome? (writeFailure b commitTs) <;> rfl

theorem applyGuardedBatch_error :
    ((applyGuardedBatch commitTs gs ws).run b).1 =
      afterChecks (if ws.isEmpty then some .emptyBatch
          else if gs.isEmpty then some .noReadGuards else none) (ws.map (·.key))
        .duplicateKeyInBatch ((gs.findSome? (guardFailure b commitTs)).or
          (ws.findSome? (writeFailure b commitTs))) := by
  unfold applyGuardedBatch rejectDuplicates afterChecks
  split
  · rfl
  · split
    · rfl
    · cases firstDuplicate [] (ws.map (·.key)) with
      | some key => rfl
      | none =>
        dsimp only
        rw [run_bind, checkGuards_run]
        cases gs.findSome? (guardFailure b commitTs) with
        | some e => rfl
        | none =>
          simp only [failWith]
          rw [run_bind, checkWrites_run]
          cases ws.findSome? (writeFailure b commitTs) <;> rfl

/-- The result of a batch is that of its own checks and, past these, the error of the
first key, or guard, that fails on its own. -/
theorem batch_error_first_failure :
    ((prewriteBatch txnId startTs ws).run b).1 =
      afterChecks (if ws.isEmpty then some .emptyBatch else none) (ws.map (·.key))
        .duplicateKeyInBatch ((ws.findSome? (prewriteFailure b txnId startTs)).or
          (if 0 < ws.countP (fun w => (b.getIntent w.key).isSome) ∧
              ws.countP (fun w => (b.getIntent w.key).isSome) < ws.length then
            some .partialBatchReplay else none)) ∧
    ((commitBatch txnId startTs commitTs keys).run b).1 =
      afterChecks (if keys.isEmpty then some .emptyBatch else none) keys .duplicateKeyInBatch
        (if commitTs ≤ startTs then some (.invalidCommitTimestamp startTs commitTs)
          else keys.findSome? (commitFailure b txnId startTs commitTs)) ∧
    ((abortBatch txnId startTs keys).run b).1 =
      afterChecks none keys .duplicateKeyInBatch none ∧
    ((applyDirectBatch commitTs ws).run b).1 =
      afterChecks (if ws.isEmpty then some .emptyBatch else none) (ws.map (·.key))
        .duplicateKeyInBatch (ws.findSome? (writeFailure b commitTs)) ∧
    ((applyGuardedBatch commitTs gs ws).run b).1 =
      afterChecks (if ws.isEmpty then some .emptyBatch
          else if gs.isEmpty then some .noReadGuards else none) (ws.map (·.key))
        .duplicateKeyInBatch ((gs.findSome? (guardFailure b commitTs)).or
          (ws.findSome? (writeFailure b commitTs))) :=
  ⟨prewriteBatch_error b txnId startTs ws, commitBatch_error b txnId startTs commitTs keys,
    abortBatch_error b txnId startTs keys, applyDirectBatch_error b commitTs ws,
    applyGuardedBatch_error b commitTs ws gs⟩

end Batches

end NexirMvcc
