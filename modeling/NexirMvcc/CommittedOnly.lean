import NexirMvcc.Faults

/- Backends without intents. The `Backend` trait has default bodies for the methods
   that deal with intents: there is never one, and none can be put. A durable backend
   may keep them and store committed versions only (`test_committed_backend_conformance`
   of `conformance.rs` is written for those).

   `committed_only_backend` says what the engine is on such a backend: in every run,
   the engine without transactions. What a transaction is answered is stated in full
   (`Op.refusal`); it never changes anything. -/
namespace NexirMvcc
open CallTree StepRun

def unsupported : String := "intent transactions are not supported by this backend"

/-- A backend with the trait's default methods for intents and the other methods of `h`. -/
def withoutIntents {σ : Type} (h : Handler BackendCall.Reply String σ) :
    Handler BackendCall.Reply String σ
  | .getIntent _, s => (.ok none, s)
  | .putIntent _, s => (.error unsupported, s)
  | .removeIntent _ _ _, s => (.ok false, s)
  | .putIntentsBatch intents, s => if intents.isEmpty then (.ok (), s) else (.error unsupported, s)
  | .commitIntentsBatch _ _, s => (.error unsupported, s)
  | .removeIntentsBatch intents, s =>
    if intents.isEmpty then (.ok (), s) else (.error unsupported, s)
  | c, s => h c s

/-- Operations of the intent lifecycle. -/
def Op.isTransactional : Op → Bool
  | .prewrite _ _ _ _ => true
  | .commit _ _ _ _ => true
  | .abort _ _ _ => true
  | .prewriteBatch _ _ _ => true
  | .commitBatch _ _ _ _ => true
  | .abortBatch _ _ _ => true
  | _ => false

/-- What a transaction is answered where there are no intents. -/
def Op.refusal (b : InMemoryBackend) : Op → Option Result
  | .prewrite _ startTs key _ => some <| .prewrite <| .error <|
    if (b.getLatestCommitTs key).any (startTs < ·) then .writeConflict else .backend unsupported
  | .commit _ _ _ _ => some (.commit (.error .intentNotFound))
  | .abort _ _ _ => some (.abort (.ok ()))
  | .prewriteBatch _ startTs writes => some <| .prewriteBatch <| .error <|
    if writes.isEmpty then .emptyBatch
    else match firstDuplicate [] (writes.map (·.key)) with
    | some key => .duplicateKeyInBatch key
    | none => match writes.find? fun w => (b.getLatestCommitTs w.key).any (startTs < ·) with
      | some w => .writeConflict w.key
      | none => .backend unsupported
  | .commitBatch _ startTs commitTs keys => some <| .commitBatch <| .error <|
    match keys with
    | [] => .emptyBatch
    | first :: _ => match firstDuplicate [] keys with
      | some key => .duplicateKeyInBatch key
      | none =>
        if commitTs ≤ startTs then .invalidCommitTimestamp startTs commitTs
        else .intentNotFound first
  | .abortBatch _ _ keys => some <| .abortBatch <|
    match firstDuplicate [] keys with
    | some key => .error (.duplicateKeyInBatch key)
    | none => .ok ()
  | _ => none

section Refusals
variable {b : InMemoryBackend} {txnId : TxnId} {startTs commitTs : Timestamp}

theorem eval_countExisting (ws : List PhysicalWrite) :
    eval (withoutIntents memCall) (countExisting txnId startTs ws 0) b =
      (match ws.find? fun w => (b.getLatestCommitTs w.key).any (startTs < ·) with
        | some w => .error (.writeConflict w.key)
        | none => .ok 0, b) := by
  induction ws with
  | nil => rfl
  | cons w ws ih =>
    show eval _ (if (b.getLatestCommitTs w.key).any (startTs < ·) then
      throw (.writeConflict w.key) else countExisting txnId startTs ws 0) b = _
    rw [List.find?_cons]
    cases (b.getLatestCommitTs w.key).any (startTs < ·) with
    | true => rfl
    | false => exact ih

theorem eval_collectAborts (keys : List Key) :
    eval (withoutIntents memCall) (collectAborts txnId startTs keys) b = (.ok [], b) := by
  induction keys with
  | nil => rfl
  | cons key keys ih =>
    show eval _ (collectAborts txnId startTs keys >>= fun removed => pure removed) b = _
    rw [eval_bind, ih]
    rfl

/-- A transaction is refused as `refusal` says, and nothing is changed. -/
theorem execOn_transactional (op : Op) (hop : op.isTransactional = true) (b : InMemoryBackend) :
    ∃ r, op.refusal b = some r ∧ op.execOn (withoutIntents memCall) b = (r, b) := by
  cases op with
  | prewrite txnId startTs key mutation =>
    refine ⟨_, rfl, ?_⟩
    show Prod.map Result.prewrite id (eval _ (if (b.getLatestCommitTs key).any (startTs < ·) then
      throw .writeConflict else _) b) = _
    split <;> rfl
  | commit txnId key startTs commitTs => exact ⟨_, rfl, rfl⟩
  | abort txnId key startTs => exact ⟨_, rfl, rfl⟩
  | prewriteBatch txnId startTs ws =>
    refine ⟨_, rfl, ?_⟩
    show Prod.map Result.prewriteBatch id (eval _ (prewriteBatch txnId startTs ws) b) = _
    unfold prewriteBatch rejectDuplicates
    cases ws with
    | nil => rfl
    | cons w ws =>
      rw [if_neg (by simp), if_neg (by simp)]
      cases firstDuplicate [] ((w :: ws).map (·.key)) with
      | some key => rfl
      | none =>
        dsimp only
        rw [eval_bind, eval_countExisting]
        cases (w :: ws).find? fun w => (b.getLatestCommitTs w.key).any (startTs < ·) with
        | some w => rfl
        | none => rfl
  | commitBatch txnId startTs commitTs keys =>
    refine ⟨_, rfl, ?_⟩
    show Prod.map Result.commitBatch id (eval _ (commitBatch txnId startTs commitTs keys) b) = _
    unfold commitBatch rejectDuplicates
    cases keys with
    | nil => rfl
    | cons key keys =>
      rw [if_neg (by simp)]
      cases firstDuplicate [] (key :: keys) with
      | some key => rfl
      | none =>
        dsimp only
        split <;> rfl
  | abortBatch txnId startTs keys =>
    refine ⟨_, rfl, ?_⟩
    show Prod.map Result.abortBatch id (eval _ (abortBatch txnId startTs keys) b) = _
    unfold abortBatch rejectDuplicates
    cases keys with
    | nil => rfl
    | cons key keys =>
      rw [if_neg (by simp)]
      cases firstDuplicate [] (key :: keys) with
      | some key => rfl
      | none =>
        dsimp only
        rw [eval_bind, eval_collectAborts]
        rfl
  | _ => cases hop

end Refusals

/-! The other operations. -/

/-- The calls that reading, writing directly and collecting make. -/
def BackendCall.IntentFree : BackendCall → Prop
  | .putCommittedBatch _ => True
  | c => c.Collects

theorem BackendCall.intentFree_of_reads (c : BackendCall) (h : c.mutates = false) : c.IntentFree := by
  cases c <;> first | exact h | cases h

theorem BackendCall.intentFree_of_collects (c : BackendCall) (h : c.Collects) : c.IntentFree := by
  cases c <;> first | exact h | trivial

/-- On a backend that holds no intents, the defaults make no difference to these calls. -/
theorem withoutIntents_alike (c : BackendCall) (b : InMemoryBackend) (hc : c.IntentFree)
    (hb : ∀ k, b.getIntent k = none) :
    withoutIntents memCall c b = memCall c b ∧ (∃ a, (memCall c b).1 = .ok a) ∧
      ∀ k, (memCall c b).2.getIntent k = none := by
  refine ⟨?_, memCall_ok c b, fun k => ?_⟩
  · cases c with
    | getIntent key =>
      show (Except.ok none, b) = (Except.ok (b.getIntent key), b)
      rw [hb]
    | putIntent i => cases hc
    | removeIntent key txnId startTs => cases hc
    | putIntentsBatch is => cases hc
    | commitIntentsBatch cs is => cases hc
    | removeIntentsBatch is => cases hc
    | _ => rfl
  · cases c with
    | putIntent i => cases hc
    | removeIntent key txnId startTs => cases hc
    | putIntentsBatch is => cases hc
    | commitIntentsBatch cs is => cases hc
    | removeIntentsBatch is => cases hc
    | putCommittedBatch vs => exact InMemoryBackend.getIntent_putCommittedBatch.trans (hb k)
    | removeCommittedVersion key t =>
      exact InMemoryBackend.getIntent_removeCommittedVersion.trans (hb k)
    | collapseTombstone key t older =>
      exact InMemoryBackend.getIntent_collapseTombstone.trans (hb k)
    | _ => exact hb k

theorem only_reads {ε α : Type} {p : Engine ε α} (hp : ReadOnly BackendCall.mutates p) :
    Only BackendCall.IntentFree p :=
  hp.only BackendCall.intentFree_of_reads

theorem only_collects {α : Type} {p : Engine GcError α} (hp : Steady BackendCall.Collects p) :
    Only BackendCall.IntentFree p :=
  hp.only BackendCall.intentFree_of_collects

theorem only_putCommittedBatch {ε : Type} {vs : List CommittedVersion} {wrap : String → ε} :
    Only BackendCall.IntentFree (do let _ ← backend (.putCommittedBatch vs) wrap; pure ()) :=
  Only.bind (Only.ask trivial) fun _ => trivial

theorem only_rejectDuplicates {ε α : Type} {keys : List Key} {e : Key → ε} {p : Engine ε α}
    (hp : Only BackendCall.IntentFree p) :
    Only BackendCall.IntentFree (rejectDuplicates keys e p) := by
  unfold rejectDuplicates
  split
  · trivial
  · exact hp

theorem readOnly_readOwnWrite (key : Key) (txnId : TxnId) (startTs readTs : Timestamp) :
    ReadOnly BackendCall.mutates (readOwnWrite key txnId startTs readTs) := by
  refine readOnly_read rfl fun intent => ?_
  cases intent with
  | none => exact readOnly_read rfl fun _ => trivial
  | some i =>
    dsimp only
    split
    · trivial
    · exact readOnly_read rfl fun _ => trivial

theorem only_program {op : Op} (hop : op.isTransactional = false) :
    Only BackendCall.IntentFree op.program.tree := by
  cases op with
  | read key readTs => exact only_reads (readOnly_read rfl fun _ => trivial)
  | readWithVersion key readTs => exact only_reads (readOnly_read rfl fun _ => trivial)
  | readOwnWrite key txnId startTs readTs =>
    exact only_reads (readOnly_readOwnWrite key txnId startTs readTs)
  | applyDirectBatch commitTs ws =>
    show Only _ (applyDirectBatch commitTs ws)
    unfold applyDirectBatch
    split
    · trivial
    · exact only_rejectDuplicates (Only.bind (only_reads (readOnly_checkWrites commitTs ws))
        fun _ => only_putCommittedBatch)
  | applyGuardedBatch commitTs gs ws =>
    show Only _ (applyGuardedBatch commitTs gs ws)
    unfold applyGuardedBatch
    split
    · trivial
    · split
      · trivial
      · exact only_rejectDuplicates (Only.bind (only_reads (readOnly_checkGuards commitTs gs))
          fun _ => Only.bind (only_reads (readOnly_checkWrites commitTs ws))
            fun _ => only_putCommittedBatch)
  | gcIncremental sp cursor options =>
    by_cases hv : options.budget.Valid
    · exact only_collects (steady_gcIncremental hv sp cursor)
    · show Only _ (gcIncremental sp cursor options)
      rw [gcIncremental_invalid hv]
      trivial
  | gc fuel sp options =>
    by_cases hv : options.budget.Valid
    · exact only_collects (steady_gc hv fuel sp)
    · show Only _ (gc fuel sp options)
      cases fuel with
      | zero => trivial
      | succ fuel =>
        unfold gc gcLoop
        rw [gcIncremental_invalid hv]
        trivial
  | _ => cases hop

/-- The other operations do what they do on a full backend that holds no intents. -/
theorem execOn_committed (op : Op) (hop : op.isTransactional = false) {b : InMemoryBackend}
    (hb : ∀ k, b.getIntent k = none) :
    op.execOn (withoutIntents memCall) b = op.exec b ∧ ∀ k, (op.exec b).2.getIntent k = none := by
  obtain ⟨heq, hnone⟩ := (only_program hop).eval_eq (h := memCall) withoutIntents_alike hb
  exact ⟨by unfold Op.exec Op.execOn; rw [heq], hnone⟩

/-! Runs. -/

/-- The operations of a run but for its transactions. -/
def withoutTransactions (ops : List Op) : List Op := ops.filter fun op => !op.isTransactional

theorem committed_run (ops : List Op) {b : InMemoryBackend} (hb : ∀ k, b.getIntent k = none) :
    observed (fun op => !op.isTransactional) (trace (Op.execOn (withoutIntents memCall)) b ops) =
      observed (fun op => !op.isTransactional) (trace Op.exec b (withoutTransactions ops)) ∧
    final (Op.execOn (withoutIntents memCall)) b ops = final Op.exec b (withoutTransactions ops) ∧
    ∀ x ∈ trace (Op.execOn (withoutIntents memCall)) b ops, x.op.isTransactional = true →
      x.op.refusal x.before = some x.result ∧ x.after = x.before := by
  induction ops generalizing b with
  | nil => exact ⟨rfl, rfl, by simp [trace]⟩
  | cons op ops ih =>
    unfold withoutTransactions at ih ⊢
    cases hop : op.isTransactional with
    | true =>
      obtain ⟨r, href, hexec⟩ := execOn_transactional op hop b
      obtain ⟨hobs, hfin, hall⟩ := ih hb
      rw [List.filter_cons_of_neg (by simp [hop])]
      simp only [trace, final, stepOf, hexec]
      refine ⟨?_, hfin, List.forall_mem_cons.mpr ⟨fun _ => ⟨href, rfl⟩, hall⟩⟩
      rw [← hobs]
      unfold observed
      rw [List.filter_cons_of_neg (by simp [hop])]
    | false =>
      obtain ⟨hexec, hnone⟩ := execOn_committed op hop hb
      obtain ⟨hobs, hfin, hall⟩ := ih hnone
      rw [List.filter_cons_of_pos (by simp [hop])]
      simp only [trace, final, stepOf, hexec]
      refine ⟨?_, hfin, List.forall_mem_cons.mpr ⟨fun h => ?_, hall⟩⟩
      · unfold observed at hobs ⊢
        rw [List.filter_cons_of_pos (by simp [hop]), List.filter_cons_of_pos (by simp [hop]),
          List.map_cons, List.map_cons, hobs]
      · rw [show op.isTransactional = true from h] at hop
        cases hop

/-- On a backend that keeps the trait's default methods for intents, every run is the
run of its other operations alone, in which each of them returns what it returned, and
every transaction is refused as `refusal` says and changes nothing. -/
theorem committed_only_backend (ops : List Op) :
    observed (fun op => !op.isTransactional) (trace (Op.execOn (withoutIntents memCall)) .new ops) =
      observed (fun op => !op.isTransactional) (steps (withoutTransactions ops)) ∧
    final (Op.execOn (withoutIntents memCall)) .new ops = stateAfter (withoutTransactions ops) ∧
    ∀ x ∈ trace (Op.execOn (withoutIntents memCall)) .new ops, x.op.isTransactional = true →
      x.op.refusal x.before = some x.result ∧ x.after = x.before :=
  committed_run ops fun _ => rfl

end NexirMvcc
