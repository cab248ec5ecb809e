import NexirMvcc.Runs

/- Operations on a backend whose calls may fail. The engine wraps the message of a
   failed call in an error and returns it at once. So what an operation returns is
   what it returns on the backend that never fails, or such an error; and since it
   mutates with its last call, in the second case it has done nothing. Collections
   are the exception: a fault may leave one half done. -/
namespace NexirMvcc
open CallTree

/-- The result is the error of a failed backend call. -/
def Result.isFault : Result → Bool
  | .read (.error (.backend _)) => true
  | .readWithVersion (.error (.backend _)) => true
  | .prewrite (.error (.backend _)) => true
  | .commit (.error (.backend _)) => true
  | .abort (.error (.backend _)) => true
  | .prewriteBatch (.error (.backend _)) => true
  | .commitBatch (.error (.backend _)) => true
  | .abortBatch (.error (.backend _)) => true
  | .applyBatch (.error (.backend _)) => true
  | .gcIncremental (.error (.backend _)) => true
  | .gc (.error (.backend _)) => true
  | _ => false

/-- The operation on the in-memory backend when any of its calls may fail. -/
def Op.Execs (op : Op) (b : InMemoryBackend) (res : Result) (b' : InMemoryBackend) : Prop :=
  ∃ es r, Exec memCall.faulty op.program.tree b es r b' ∧ res = op.program.result r

/-- The operation when none of its calls fails. -/
theorem Op.execs_exec (op : Op) (b : InMemoryBackend) : op.Execs b (op.exec b).1 (op.exec b).2 := by
  obtain ⟨es, he⟩ := exec_eval memCall op.program.tree b
  exact ⟨es, _, he, rfl⟩

/-! A failed call ends the operation. -/

section Strict
variable {ε α : Type} {fault : ε → Prop}

theorem strict_backend {c : BackendCall} {wrap : String → ε} {f : c.Reply → Engine ε α}
    (hwrap : ∀ msg, fault (wrap msg)) (hf : ∀ a, Strict fault (f a)) :
    Strict fault (backend c wrap >>= f) :=
  Strict.bind (Strict.ask hwrap) hf

theorem strict_rejectDuplicates {keys : List Key} {e : Key → ε} {p : Engine ε α}
    (hp : Strict fault p) : Strict fault (rejectDuplicates keys e p) := by
  unfold rejectDuplicates
  split
  · trivial
  · exact hp

theorem strict_read {fault : ReadError → Prop} (hwrap : ∀ msg, fault (.backend msg)) (key : Key)
    (readTs : Timestamp) : Strict fault (read key readTs) :=
  strict_backend hwrap fun _ => trivial

theorem strict_readOwnWrite {fault : ReadError → Prop} (hwrap : ∀ msg, fault (.backend msg))
    (key : Key) (txnId : TxnId) (startTs readTs : Timestamp) :
    Strict fault (readOwnWrite key txnId startTs readTs) := by
  refine strict_backend hwrap fun intent => ?_
  cases intent with
  | none => exact strict_read hwrap key readTs
  | some i =>
    dsimp only
    split
    · trivial
    · exact strict_read hwrap key readTs

theorem strict_prewrite {fault : PrewriteError → Prop} (hwrap : ∀ msg, fault (.backend msg))
    (txnId : TxnId) (startTs : Timestamp) (key : Key) (mutation : Mutation) :
    Strict fault (prewrite txnId startTs key mutation) := by
  refine strict_backend hwrap fun intent => ?_
  cases intent with
  | some i =>
    dsimp only
    split
    · trivial
    · split
      · trivial
      · split <;> trivial
  | none =>
    refine strict_backend hwrap fun latest => ?_
    split
    · trivial
    · exact strict_backend hwrap fun _ => trivial

theorem strict_commit {fault : CommitError → Prop} (hwrap : ∀ msg, fault (.backend msg))
    (txnId : TxnId) (key : Key) (startTs commitTs : Timestamp) :
    Strict fault (commit txnId key startTs commitTs) := by
  refine strict_backend hwrap fun intent => ?_
  cases intent with
  | none => trivial
  | some i =>
    dsimp only
    split
    · trivial
    · split
      · trivial
      · split
        · trivial
        · split
          · trivial
          · refine strict_backend hwrap fun latest => ?_
            split
            · split <;> trivial
            · exact strict_backend hwrap fun _ => trivial

theorem strict_countExisting {fault : BatchPrewriteError → Prop}
    (hwrap : ∀ msg, fault (.backend msg)) (txnId : TxnId) (startTs : Timestamp)
    (ws : List PhysicalWrite) (n : Nat) : Strict fault (countExisting txnId startTs ws n) := by
  induction ws generalizing n with
  | nil => trivial
  | cons w ws ih =>
    refine strict_backend hwrap fun intent => ?_
    cases intent with
    | some i =>
      dsimp only
      split
      · trivial
      · split
        · trivial
        · exact ih _
    | none =>
      refine strict_backend hwrap fun latest => ?_
      split
      · trivial
      · exact ih _

theorem strict_prewriteBatch {fault : BatchPrewriteError → Prop}
    (hwrap : ∀ msg, fault (.backend msg)) (txnId : TxnId) (startTs : Timestamp)
    (ws : List PhysicalWrite) : Strict fault (prewriteBatch txnId startTs ws) := by
  unfold prewriteBatch
  split
  · trivial
  · refine strict_rejectDuplicates (Strict.bind (strict_countExisting hwrap txnId startTs ws 0) ?_)
    intro existing
    split
    · trivial
    · split
      · trivial
      · exact strict_backend hwrap fun _ => trivial

theorem strict_collectCommits {fault : BatchCommitError → Prop}
    (hwrap : ∀ msg, fault (.backend msg)) (txnId : TxnId) (startTs commitTs : Timestamp)
    (keys : List Key) : Strict fault (collectCommits txnId startTs commitTs keys) := by
  induction keys with
  | nil => trivial
  | cons key keys ih =>
    refine strict_backend hwrap fun intent => ?_
    cases intent with
    | none => trivial
    | some i =>
      dsimp only
      split
      · trivial
      · split
        · trivial
        · split
          · trivial
          · refine strict_backend hwrap fun latest => ?_
            split
            · trivial
            · exact Strict.bind ih fun _ => trivial

theorem strict_commitBatch {fault : BatchCommitError → Prop} (hwrap : ∀ msg, fault (.backend msg))
    (txnId : TxnId) (startTs commitTs : Timestamp) (keys : List Key) :
    Strict fault (commitBatch txnId startTs commitTs keys) := by
  unfold commitBatch
  split
  · trivial
  · apply strict_rejectDuplicates
    split
    · trivial
    · exact Strict.bind (strict_collectCommits hwrap txnId startTs commitTs keys) fun _ =>
        strict_backend hwrap fun _ => trivial

theorem strict_collectAborts {fault : BatchAbortError → Prop}
    (hwrap : ∀ msg, fault (.backend msg)) (txnId : TxnId) (startTs : Timestamp) (keys : List Key) :
    Strict fault (collectAborts txnId startTs keys) := by
  induction keys with
  | nil => trivial
  | cons key keys ih =>
    refine strict_backend hwrap fun intent => Strict.bind ih fun removed => ?_
    split <;> trivial

theorem strict_abortBatch {fault : BatchAbortError → Prop} (hwrap : ∀ msg, fault (.backend msg))
    (txnId : TxnId) (startTs : Timestamp) (keys : List Key) :
    Strict fault (abortBatch txnId startTs keys) := by
  unfold abortBatch
  split
  · trivial
  · exact strict_rejectDuplicates (Strict.bind (strict_collectAborts hwrap txnId startTs keys)
      fun _ => strict_backend hwrap fun _ => trivial)

variable {fault : BatchError → Prop} (hwrap : ∀ msg, fault (.backend msg)) (commitTs : Timestamp)
include hwrap

theorem strict_checkWrites (ws : List PhysicalWrite) : Strict fault (checkWrites commitTs ws) := by
  induction ws with
  | nil => trivial
  | cons w ws ih =>
    refine strict_backend hwrap fun intent => ?_
    cases intent with
    | some i => trivial
    | none =>
      refine strict_backend hwrap fun latest => ?_
      split
      · trivial
      · exact ih

theorem strict_checkGuards (gs : List ReadGuard) : Strict fault (checkGuards commitTs gs) := by
  induction gs with
  | nil => trivial
  | cons g gs ih =>
    unfold checkGuards
    split
    · trivial
    · refine strict_backend hwrap fun intent => ?_
      cases intent with
      | some i => trivial
      | none =>
        refine strict_backend hwrap fun latest => ?_
        split
        · trivial
        · refine strict_backend hwrap fun visible => ?_
          split
          · trivial
          · exact ih

theorem strict_applyDirectBatch (ws : List PhysicalWrite) :
    Strict fault (applyDirectBatch commitTs ws) := by
  unfold applyDirectBatch
  split
  · trivial
  · exact strict_rejectDuplicates (Strict.bind (strict_checkWrites hwrap commitTs ws) fun _ =>
      strict_backend hwrap fun _ => trivial)

theorem strict_applyGuardedBatch (gs : List ReadGuard) (ws : List PhysicalWrite) :
    Strict fault (applyGuardedBatch commitTs gs ws) := by
  unfold applyGuardedBatch
  split
  · trivial
  · split
    · trivial
    · exact strict_rejectDuplicates (Strict.bind (strict_checkGuards hwrap commitTs gs) fun _ =>
        Strict.bind (strict_checkWrites hwrap commitTs ws) fun _ =>
          strict_backend hwrap fun _ => trivial)

end Strict

variable {op : Op} {b b' : InMemoryBackend} {res : Result}

theorem Op.strict (hgc : op.isGc = false) :
    Strict (fun e => (op.program.result (.error e)).isFault = true) op.program.tree := by
  cases op with
  | read key readTs => exact strict_read (fun _ => rfl) key readTs
  | readWithVersion key readTs => exact strict_backend (fun _ => rfl) fun _ => trivial
  | readOwnWrite key txnId startTs readTs =>
    exact strict_readOwnWrite (fun _ => rfl) key txnId startTs readTs
  | prewrite txnId startTs key mutation =>
    exact strict_prewrite (fun _ => rfl) txnId startTs key mutation
  | commit txnId key startTs commitTs =>
    exact strict_commit (fun _ => rfl) txnId key startTs commitTs
  | abort txnId key startTs => exact strict_backend (fun _ => rfl) fun _ => trivial
  | prewriteBatch txnId startTs writes =>
    exact strict_prewriteBatch (fun _ => rfl) txnId startTs writes
  | commitBatch txnId startTs commitTs keys =>
    exact strict_commitBatch (fun _ => rfl) txnId startTs commitTs keys
  | abortBatch txnId startTs keys => exact strict_abortBatch (fun _ => rfl) txnId startTs keys
  | applyDirectBatch commitTs writes =>
    exact strict_applyDirectBatch (fun _ => rfl) commitTs writes
  | applyGuardedBatch commitTs guards writes =>
    exact strict_applyGuardedBatch (fun _ => rfl) commitTs guards writes
  | gcIncremental sp cursor options => cases hgc
  | gc fuel sp options => cases hgc

theorem Op.oneShot (hgc : op.isGc = false) : OneShot BackendCall.mutates op.program.tree := by
  cases op with
  | read key readTs => exact oneShot_last
  | readWithVersion key readTs => exact oneShot_last
  | readOwnWrite key txnId startTs readTs =>
    refine oneShot_read rfl fun intent => ?_
    cases intent with
    | none => exact oneShot_last
    | some i =>
      dsimp only
      split
      · trivial
      · exact oneShot_last
  | prewrite txnId startTs key mutation => exact oneShot_prewrite txnId startTs key mutation
  | commit txnId key startTs commitTs => exact oneShot_commit txnId key startTs commitTs
  | abort txnId key startTs => exact oneShot_abort txnId key startTs
  | prewriteBatch txnId startTs writes => exact oneShot_prewriteBatch txnId startTs writes
  | commitBatch txnId startTs commitTs keys =>
    exact oneShot_commitBatch txnId startTs commitTs keys
  | abortBatch txnId startTs keys => exact oneShot_abortBatch txnId startTs keys
  | applyDirectBatch commitTs writes => exact oneShot_applyDirectBatch commitTs writes
  | applyGuardedBatch commitTs guards writes =>
    exact oneShot_applyGuardedBatch commitTs guards writes
  | gcIncremental sp cursor options => cases hgc
  | gc fuel sp options => cases hgc

/-- What an operation other than a collection returns it also returns when no call
fails, or it is the error of a failed call and nothing was done. -/
theorem Op.Execs.exact_or_fault (h : op.Execs b res b') (hgc : op.isGc = false) :
    op.exec b = (res, b') ∨ res.isFault = true ∧ b' = b := by
  obtain ⟨es, r, he, rfl⟩ := h
  rcases (op.strict hgc).exec he with hev | ⟨e, rfl, hfault⟩
  · refine .inl ?_
    unfold Op.exec Op.execOn
    rw [hev]
  · exact .inr ⟨hfault, ((op.oneShot hgc).exec atomic_memCall_faulty he).1 e rfl⟩

theorem Result.not_isOk_of_isFault {r : Result} (h : r.isFault = true) : r.isOk = false := by
  unfold Result.isFault at h
  split at h
  case h_12 => cases h
  all_goals rfl

/-- What ends in the error of a failed call has done nothing. -/
theorem Op.Execs.unchanged (h : op.Execs b res b') (hgc : op.isGc = false)
    (hfault : res.isFault = true) : b' = b := by
  rcases h.exact_or_fault hgc with hexact | ⟨-, rfl⟩
  · have herr := exec_error op (b := b) (by rw [hexact]; exact Result.not_isOk_of_isFault hfault)
    rwa [hexact] at herr
  · rfl

/-- A collection that does not collapse prunes every history, also where a fault
ends it. -/
theorem Op.Execs.gcRel {sp : Timestamp} {options : GcOptions} (h : op.Execs b res b')
    (he : op.effect = .collect sp options) (hk : options.KeepsContract) :
    GcRel sp options.collapseFinalTombstones b b' := by
  obtain ⟨es, r, hexec, -⟩ := h
  cases op with
  | gcIncremental sp cursor options =>
    cases he
    exact gcRel_of_meets (gcIncremental_contract hk) hexec
  | gc fuel sp options =>
    cases he
    exact gcRel_of_meets (gc_contract hk) hexec
  | _ => cases he

end NexirMvcc
