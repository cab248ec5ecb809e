import NexirMvcc.GcSafety
import NexirMvcc.Foundation.StepRun

/- Runs of the engine over the in-memory backend. An operation has an effect: it
   locks keys, commits or releases the locks of a transaction, writes versions
   directly, collects, or only reads. `exec_ok` says key by key what an operation
   that succeeded has done, and `exec_error` that one that failed has done
   nothing; all that is proved about runs rests on these two. -/
namespace NexirMvcc
open VersionHistory CallTree

/-- An operation of `MvccEngine`. The loop of `gc` is run for at most `fuel`
steps; from `gcFuel` on it ends (`gc_run`). -/
inductive Op where
  | read (key : Key) (readTs : Timestamp)
  | readWithVersion (key : Key) (readTs : Timestamp)
  | readOwnWrite (key : Key) (txnId : TxnId) (startTs readTs : Timestamp)
  | prewrite (txnId : TxnId) (startTs : Timestamp) (key : Key) (mutation : Mutation)
  | commit (txnId : TxnId) (key : Key) (startTs commitTs : Timestamp)
  | abort (txnId : TxnId) (key : Key) (startTs : Timestamp)
  | prewriteBatch (txnId : TxnId) (startTs : Timestamp) (writes : List PhysicalWrite)
  | commitBatch (txnId : TxnId) (startTs commitTs : Timestamp) (keys : List Key)
  | abortBatch (txnId : TxnId) (startTs : Timestamp) (keys : List Key)
  | applyDirectBatch (commitTs : Timestamp) (writes : List PhysicalWrite)
  | applyGuardedBatch (commitTs : Timestamp) (guards : List ReadGuard) (writes : List PhysicalWrite)
  | gcIncremental (safePointTs : Timestamp) (cursor : Option IncrementalGcCursor)
      (options : GcOptions)
  | gc (fuel : Nat) (safePointTs : Timestamp) (options : GcOptions)
  deriving DecidableEq

/-- What an operation returns. -/
inductive Result where
  | read (r : Except ReadError (Option Value))
  | readWithVersion (r : Except ReadError (Option (Timestamp × Option Value)))
  | prewrite (r : Except PrewriteError Unit)
  | commit (r : Except CommitError Unit)
  | abort (r : Except AbortError Unit)
  | prewriteBatch (r : Except BatchPrewriteError Unit)
  | commitBatch (r : Except BatchCommitError Unit)
  | abortBatch (r : Except BatchAbortError Unit)
  | applyBatch (r : Except BatchError Unit)
  | gcIncremental (r : Except GcError IncrementalGcResult)
  | gc (r : Except GcError (Option GcStats))

def Result.isOk : Result → Bool
  | .read r => r.isOk
  | .readWithVersion r => r.isOk
  | .prewrite r => r.isOk
  | .commit r => r.isOk
  | .abort r => r.isOk
  | .prewriteBatch r => r.isOk
  | .commitBatch r => r.isOk
  | .abortBatch r => r.isOk
  | .applyBatch r => r.isOk
  | .gcIncremental r => r.isOk
  | .gc r => r.isOk

/-- The tree of calls of an operation, and what its end is returned as. -/
structure Program where
  ε : Type
  α : Type
  tree : Engine ε α
  result : Except ε α → Result

def Op.program : Op → Program
  | .read key readTs => ⟨_, _, NexirMvcc.read key readTs, .read⟩
  | .readWithVersion key readTs => ⟨_, _, NexirMvcc.readWithVersion key readTs, .readWithVersion⟩
  | .readOwnWrite key txnId startTs readTs =>
    ⟨_, _, NexirMvcc.readOwnWrite key txnId startTs readTs, .read⟩
  | .prewrite txnId startTs key mutation =>
    ⟨_, _, NexirMvcc.prewrite txnId startTs key mutation, .prewrite⟩
  | .commit txnId key startTs commitTs =>
    ⟨_, _, NexirMvcc.commit txnId key startTs commitTs, .commit⟩
  | .abort txnId key startTs => ⟨_, _, NexirMvcc.abort txnId key startTs, .abort⟩
  | .prewriteBatch txnId startTs writes =>
    ⟨_, _, NexirMvcc.prewriteBatch txnId startTs writes, .prewriteBatch⟩
  | .commitBatch txnId startTs commitTs keys =>
    ⟨_, _, NexirMvcc.commitBatch txnId startTs commitTs keys, .commitBatch⟩
  | .abortBatch txnId startTs keys =>
    ⟨_, _, NexirMvcc.abortBatch txnId startTs keys, .abortBatch⟩
  | .applyDirectBatch commitTs writes =>
    ⟨_, _, NexirMvcc.applyDirectBatch commitTs writes, .applyBatch⟩
  | .applyGuardedBatch commitTs guards writes =>
    ⟨_, _, NexirMvcc.applyGuardedBatch commitTs guards writes, .applyBatch⟩
  | .gcIncremental safePointTs cursor options =>
    ⟨_, _, NexirMvcc.gcIncremental safePointTs cursor options, .gcIncremental⟩
  | .gc fuel safePointTs options => ⟨_, _, NexirMvcc.gc fuel safePointTs options, .gc⟩

/-- The operation on a backend. -/
def Op.execOn {σ : Type} (h : Handler BackendCall.Reply String σ) (op : Op) (s : σ) : Result × σ :=
  ((op.program.result (eval h op.program.tree s).1), (eval h op.program.tree s).2)

/-- The operation on the in-memory backend. -/
def Op.exec (op : Op) (b : InMemoryBackend) : Result × InMemoryBackend := op.execOn memCall b

theorem Op.exec_buildable (op : Op) {b : InMemoryBackend} (hb : Buildable b) :
    Buildable (op.exec b).2 := Buildable.run op.program.tree hb

/-- The steps of a run from the empty backend. -/
def steps (ops : List Op) : List (StepRun.Step InMemoryBackend Op Result) :=
  StepRun.trace Op.exec .new ops

/-- The state a run from the empty backend ends in. -/
def stateAfter (ops : List Op) : InMemoryBackend := StepRun.final Op.exec .new ops

theorem buildable_final {b : InMemoryBackend} (hb : Buildable b) (ops : List Op) :
    Buildable (StepRun.final Op.exec b ops) :=
  (StepRun.trace_inv (fun _ op h => op.exec_buildable h) hb).2

/-! Effects. -/

inductive Effect where
  | none
  | lock (txnId : TxnId) (startTs : Timestamp) (writes : List PhysicalWrite)
  | commit (txnId : TxnId) (startTs commitTs : Timestamp) (keys : List Key)
  | release (txnId : TxnId) (startTs : Timestamp) (keys : List Key)
  | write (commitTs : Timestamp) (guards : List ReadGuard) (writes : List PhysicalWrite)
  | collect (safePointTs : Timestamp) (options : GcOptions)

/-- What the operation does if it succeeds. -/
def Op.effect : Op → Effect
  | .read _ _ => .none
  | .readWithVersion _ _ => .none
  | .readOwnWrite _ _ _ _ => .none
  | .prewrite txnId startTs key mutation => .lock txnId startTs [⟨key, mutation.value⟩]
  | .commit txnId key startTs commitTs => .commit txnId startTs commitTs [key]
  | .abort txnId key startTs => .release txnId startTs [key]
  | .prewriteBatch txnId startTs writes => .lock txnId startTs writes
  | .commitBatch txnId startTs commitTs keys => .commit txnId startTs commitTs keys
  | .abortBatch txnId startTs keys => .release txnId startTs keys
  | .applyDirectBatch commitTs writes => .write commitTs [] writes
  | .applyGuardedBatch commitTs guards writes => .write commitTs guards writes
  | .gcIncremental safePointTs _ options => .collect safePointTs options
  | .gc _ safePointTs options => .collect safePointTs options

def Effect.safePoint : Effect → Option Timestamp
  | .collect safePointTs _ => some safePointTs
  | _ => Option.none

/-- The safe points used in a run. -/
def safePoints (ops : List Op) : List Timestamp := ops.filterMap fun op => op.effect.safePoint

theorem safePoints_append (ops : List Op) (op : Op) :
    safePoints (ops ++ [op]) = safePoints ops ++ op.effect.safePoint.toList := by
  unfold safePoints
  rw [List.filterMap_append]
  cases h : op.effect.safePoint <;> simp [h]

section Effects
variable (b b' : InMemoryBackend)

/-- The intents of `(txnId, startTs)` on the keys of `writes` are there: they were
there before, or the keys were free and now hold them. -/
structure Locks (txnId : TxnId) (startTs : Timestamp) (writes : List PhysicalWrite) : Prop where
  nodup : (writes.map (·.key)).Nodup
  histories : ∀ k, b'.history k = b.history k
  off : ∀ k, k ∉ writes.map (·.key) → b'.getIntent k = b.getIntent k
  here : (∀ w ∈ writes, Held b txnId startTs w) ∧ b' = b ∨
    ∀ w ∈ writes, Free b startTs w.key ∧
      b'.getIntent w.key = some ⟨w.key, txnId, startTs, Mutation.ofValue w.value, none⟩

/-- The intents of `(txnId, startTs)` on `keys` have become versions. -/
structure Commits (txnId : TxnId) (startTs commitTs : Timestamp) (keys : List Key) : Prop where
  nodup : keys.Nodup
  later : startTs < commitTs
  committable : ∀ k ∈ keys, Committable b txnId startTs commitTs k
  here : ∀ k ∈ keys, b'.getIntent k = none ∧ b'.history k =
    Function.update (b.history k) commitTs (some (commitOf b commitTs k).value)
  off : ∀ k, k ∉ keys → b'.getIntent k = b.getIntent k ∧ b'.history k = b.history k

/-- The intents of `(txnId, startTs)` on `keys` are gone. -/
structure Releases (txnId : TxnId) (startTs : Timestamp) (keys : List Key) : Prop where
  histories : ∀ k, b'.history k = b.history k
  intents : ∀ k, b'.getIntent k =
    (b.getIntent k).filter (fun i => ¬ (k ∈ keys ∧ i.heldBy txnId startTs))

/-- The guards hold, and the keys of `writes` have new versions. -/
structure Writes (commitTs : Timestamp) (guards : List ReadGuard) (writes : List PhysicalWrite) :
    Prop where
  nodup : (writes.map (·.key)).Nodup
  guards : ∀ g ∈ guards, g.Holds b commitTs
  writable : ∀ w ∈ writes, Writable b commitTs w.key
  intents : ∀ k, b'.getIntent k = b.getIntent k
  here : ∀ w ∈ writes,
    b'.history w.key = Function.update (b.history w.key) commitTs (some w.value)
  off : ∀ k, k ∉ writes.map (·.key) → b'.history k = b.history k

/-- `b'` is what the effect makes of `b`. -/
def Effect.Applies : Effect → Prop
  | .none => b' = b
  | .lock txnId startTs writes => Locks b b' txnId startTs writes
  | .commit txnId startTs commitTs keys => Commits b b' txnId startTs commitTs keys
  | .release txnId startTs keys => Releases b b' txnId startTs keys
  | .write commitTs guards writes => Writes b b' commitTs guards writes
  | .collect sp options => Shrunk b b' ∧
    (options.KeepsContract → GcRel sp options.collapseFinalTombstones b b')

end Effects

variable {b : InMemoryBackend} {txnId : TxnId} {startTs commitTs : Timestamp}

theorem locks_putIntentsBatch {ws : List PhysicalWrite} (hnd : (ws.map (·.key)).Nodup)
    (hfree : ∀ w ∈ ws, Free b startTs w.key) :
    Locks b (b.putIntentsBatch (intentsOf txnId startTs ws)) txnId startTs ws := by
  refine ⟨hnd, fun k => InMemoryBackend.history_putIntentsBatch, ?_, .inr ?_⟩
  · intro k hk
    apply InMemoryBackend.getIntent_putIntentsBatch_of_not_mem
    intro i hi he
    obtain ⟨w, hw, rfl⟩ := List.mem_map.mp hi
    exact hk (List.mem_map.mpr ⟨w, hw, he⟩)
  · intro w hw
    refine ⟨hfree w hw, ?_⟩
    have hkeys : ((intentsOf txnId startTs ws).map (·.key)).Nodup := by
      unfold intentsOf
      rwa [List.map_map]
    exact InMemoryBackend.getIntent_putIntentsBatch_of_mem hkeys (List.mem_map.mpr ⟨w, hw, rfl⟩)

theorem commits_commitIntentsBatch {ks : List Key} (hnd : ks.Nodup) (hlt : startTs < commitTs)
    (hc : ∀ k ∈ ks, Committable b txnId startTs commitTs k) :
    Commits b (b.commitIntentsBatch (ks.map (commitOf b commitTs))
      (ks.map fun k => (k, txnId, startTs))) txnId startTs commitTs ks := by
  refine ⟨hnd, hlt, hc, ?_, ?_⟩
  · intro k hk
    rw [InMemoryBackend.getIntent_commitIntentsBatch, InMemoryBackend.history_commitIntentsBatch]
    constructor
    · obtain ⟨i, hi, ⟨rfl, rfl⟩, -⟩ := hc k hk
      rw [hi]
      simp [Option.filter_some, hk]
    · have hkeys : ((ks.map (commitOf b commitTs)).map (·.key)).Nodup := by
        rw [List.map_map]
        simpa [Function.comp_def, commitOf] using hnd
      exact InMemoryBackend.history_putCommittedBatch_of_mem hkeys (List.mem_map_of_mem hk)
  · intro k hk
    rw [InMemoryBackend.getIntent_commitIntentsBatch, InMemoryBackend.history_commitIntentsBatch]
    constructor
    · cases hi : b.getIntent k <;> simp [Option.filter_some, hk]
    · apply InMemoryBackend.history_putCommittedBatch_of_not_mem
      intro v hv he
      obtain ⟨k', hk', rfl⟩ := List.mem_map.mp hv
      exact hk (he ▸ hk')

theorem writes_putCommittedBatch {gs : List ReadGuard} {ws : List PhysicalWrite}
    (hnd : (ws.map (·.key)).Nodup) (hg : ∀ g ∈ gs, g.Holds b commitTs)
    (hw : ∀ w ∈ ws, Writable b commitTs w.key) :
    Writes b (b.putCommittedBatch (commitsOf commitTs ws)) commitTs gs ws := by
  refine ⟨hnd, hg, hw, fun k => InMemoryBackend.getIntent_putCommittedBatch, ?_, ?_⟩
  · intro w hw
    have hkeys : ((commitsOf commitTs ws).map (·.key)).Nodup := by
      unfold commitsOf
      rwa [List.map_map]
    exact InMemoryBackend.history_putCommittedBatch_of_mem hkeys (List.mem_map.mpr ⟨w, hw, rfl⟩)
  · intro k hk
    apply InMemoryBackend.history_putCommittedBatch_of_not_mem
    intro v hv he
    obtain ⟨w, hw, rfl⟩ := List.mem_map.mp hv
    exact hk (List.mem_map.mpr ⟨w, hw, he⟩)

theorem releases_removeIntent {key : Key} :
    Releases b (b.removeIntent key txnId startTs).2 txnId startTs [key] := by
  refine ⟨fun k => InMemoryBackend.history_removeIntent, ?_⟩
  intro k
  rw [InMemoryBackend.getIntent_removeIntent]
  simp [eq_comm (a := key)]

theorem releases_removeIntentsBatch {ks : List Key} :
    Releases b (b.removeIntentsBatch ((ks.filter fun k => (b.getIntent k).any
      (fun i => i.txnId = txnId ∧ i.startTs = startTs)).map fun k => (k, txnId, startTs)))
      txnId startTs ks := by
  refine ⟨fun k => InMemoryBackend.history_removeIntentsBatch, ?_⟩
  intro k
  rw [InMemoryBackend.getIntent_removeIntentsBatch]
  cases hi : b.getIntent k with
  | none => rfl
  | some i =>
    have hiff : (k, i.txnId, i.startTs) ∈ ((ks.filter fun k => (b.getIntent k).any
        (fun i => i.txnId = txnId ∧ i.startTs = startTs)).map fun k => (k, txnId, startTs)) ↔
        k ∈ ks ∧ i.heldBy txnId startTs := by
      simp only [List.mem_map, List.mem_filter, Prod.mk.injEq, Intent.heldBy]
      constructor
      · rintro ⟨k', ⟨hk', -⟩, rfl, h1, h2⟩
        exact ⟨hk', h1.symm, h2.symm⟩
      · rintro ⟨hk, h1, h2⟩
        exact ⟨k, ⟨hk, by simp [hi, h1, h2]⟩, rfl, h1.symm, h2.symm⟩
    rw [Option.filter_some, Option.filter_some]
    simp only [hiff]

/-! What a step does. -/

theorem run_of_isOk {ε α : Type} (p : Engine ε α) (h : (p.run b).1.isOk = true) :
    ∃ v, p.run b = (.ok v, (p.run b).2) := by
  rcases hr : p.run b with ⟨r, b'⟩
  rw [hr] at h
  cases r with
  | ok v => exact ⟨v, rfl⟩
  | error e => cases h

theorem run_of_not_isOk {ε α : Type} (p : Engine ε α) (h : (p.run b).1.isOk = false) :
    ∃ e, p.run b = (.error e, (p.run b).2) := by
  rcases hr : p.run b with ⟨r, b'⟩
  rw [hr] at h
  cases r with
  | ok v => cases h
  | error e => exact ⟨e, rfl⟩

theorem locks_of_held {ws : List PhysicalWrite} (hnd : (ws.map (·.key)).Nodup)
    (h : ∀ w ∈ ws, Held b txnId startTs w) : Locks b b txnId startTs ws :=
  ⟨hnd, fun _ => rfl, fun _ _ => rfl, .inl ⟨h, rfl⟩⟩

theorem readOwnWrite_state {key : Key} {readTs : Timestamp} :
    ((readOwnWrite key txnId startTs readTs).run b).2 = b := by
  apply run_readOnly
  apply readOnly_read rfl
  intro intent
  cases intent with
  | none => exact readOnly_read rfl fun _ => trivial
  | some i =>
    dsimp only
    split
    · trivial
    · exact readOnly_read rfl fun _ => trivial

/-- A collection as an effect. -/
theorem applies_collect {α : Type} {sp : Timestamp} {options : GcOptions} {p : Engine GcError α}
    (hsteady : options.budget.Valid → Steady BackendCall.Collects p)
    (hspec : options.KeepsContract →
      Spec sp options.collapseFinalTombstones b p fun _ _ => True)
    (hinvalid : ¬ options.budget.Valid → (p.run b).2 = b) :
    (Effect.collect sp options).Applies b (p.run b).2 := by
  constructor
  · by_cases hv : options.budget.Valid
    · obtain ⟨v, b', hrun, hs⟩ := collects_run (hsteady hv) b
      rwa [hrun]
    · rw [hinvalid hv]
      exact Shrunk.refl b
  · intro hk
    obtain ⟨es, he⟩ := exec_eval memCall p b
    exact gcRel_of_meets (hspec hk) he

theorem gcIncremental_invalid {sp : Timestamp} {cursor : Option IncrementalGcCursor}
    {options : GcOptions} (hv : ¬ options.budget.Valid) :
    gcIncremental sp cursor options = throw .invalidGcBudget := by
  unfold gcIncremental Build.gcIncremental
  rw [if_pos (by simpa [GcBudget.Valid, or_iff_not_imp_left] using hv)]
  rfl

theorem gcIncremental_unchanged {sp : Timestamp} {cursor : Option IncrementalGcCursor}
    {options : GcOptions} (hv : ¬ options.budget.Valid) :
    ((gcIncremental sp cursor options).run b).2 = b := by
  rw [gcIncremental_invalid hv]
  rfl

theorem gc_unchanged {sp : Timestamp} {fuel : Nat} {options : GcOptions}
    (hv : ¬ options.budget.Valid) : ((gc fuel sp options).run b).2 = b := by
  unfold gc
  cases fuel with
  | zero => rfl
  | succ fuel =>
    unfold gcLoop
    rw [gcIncremental_invalid hv]
    rfl

/-- An operation that succeeds has its effect. -/
theorem exec_ok (op : Op) (h : (op.exec b).1.isOk = true) :
    op.effect.Applies b (op.exec b).2 := by
  cases op with
  | read key readTs => rfl
  | readWithVersion key readTs => rfl
  | readOwnWrite key txnId startTs readTs => exact readOwnWrite_state
  | prewrite txnId startTs key mutation =>
    obtain ⟨⟨⟩, hrun⟩ := run_of_isOk (prewrite txnId startTs key mutation) h
    show Locks b ((prewrite txnId startTs key mutation).run b).2 _ _ _
    rcases prewrite_ok.mp hrun with ⟨hheld, hb⟩ | ⟨hfree, hb⟩
    · rw [hb]
      exact locks_of_held (by simp) (by simpa using hheld)
    · have hput : b.putIntent ⟨key, txnId, startTs, mutation, none⟩ =
          b.putIntentsBatch (intentsOf txnId startTs [⟨key, mutation.value⟩]) := by
        simp [intentsOf, InMemoryBackend.putIntentsBatch, Mutation.ofValue_value]
      rw [hb, hput]
      exact locks_putIntentsBatch (by simp) (by simpa using hfree)
  | commit txnId key startTs commitTs =>
    obtain ⟨⟨⟩, hrun⟩ := run_of_isOk (commit txnId key startTs commitTs) h
    obtain ⟨hlt, hc, hb⟩ := commit_ok.mp hrun
    show Commits b ((commit txnId key startTs commitTs).run b).2 _ _ _ _
    rw [hb]
    exact commits_commitIntentsBatch (List.nodup_singleton key) hlt (by simpa using hc)
  | abort txnId key startTs => exact releases_removeIntent
  | prewriteBatch txnId startTs writes =>
    obtain ⟨⟨⟩, hrun⟩ := run_of_isOk (prewriteBatch txnId startTs writes) h
    show Locks b ((prewriteBatch txnId startTs writes).run b).2 _ _ _
    obtain ⟨-, hnd, ⟨hheld, hb⟩ | ⟨hfree, hb⟩⟩ := prewriteBatch_ok.mp hrun
    · rw [hb]
      exact locks_of_held hnd hheld
    · rw [hb]
      exact locks_putIntentsBatch hnd hfree
  | commitBatch txnId startTs commitTs keys =>
    obtain ⟨⟨⟩, hrun⟩ := run_of_isOk (commitBatch txnId startTs commitTs keys) h
    obtain ⟨-, hnd, hlt, hc, hb⟩ := commitBatch_ok.mp hrun
    show Commits b ((commitBatch txnId startTs commitTs keys).run b).2 _ _ _ _
    rw [hb]
    exact commits_commitIntentsBatch hnd hlt hc
  | abortBatch txnId startTs keys =>
    obtain ⟨⟨⟩, hrun⟩ := run_of_isOk (abortBatch txnId startTs keys) h
    show Releases b ((abortBatch txnId startTs keys).run b).2 _ _ _
    rw [(abortBatch_ok.mp hrun).2]
    exact releases_removeIntentsBatch
  | applyDirectBatch commitTs writes =>
    obtain ⟨⟨⟩, hrun⟩ := run_of_isOk (applyDirectBatch commitTs writes) h
    obtain ⟨-, hnd, hw, hb⟩ := applyDirectBatch_ok.mp hrun
    show Writes b ((applyDirectBatch commitTs writes).run b).2 _ _ _
    rw [hb]
    exact writes_putCommittedBatch hnd (by simp) hw
  | applyGuardedBatch commitTs guards writes =>
    obtain ⟨⟨⟩, hrun⟩ := run_of_isOk (applyGuardedBatch commitTs guards writes) h
    obtain ⟨-, -, hnd, hg, hw, hb⟩ := applyGuardedBatch_ok.mp hrun
    show Writes b ((applyGuardedBatch commitTs guards writes).run b).2 _ _ _
    rw [hb]
    exact writes_putCommittedBatch hnd hg hw
  | gcIncremental sp cursor options =>
    exact applies_collect (fun hv => steady_gcIncremental hv sp cursor) gcIncremental_contract
      gcIncremental_unchanged
  | gc fuel sp options =>
    exact applies_collect (fun hv => steady_gc hv fuel sp) gc_contract gc_unchanged

/-- An operation that fails has done nothing. -/
theorem exec_error (op : Op) (h : (op.exec b).1.isOk = false) : (op.exec b).2 = b := by
  cases op with
  | read key readTs => rfl
  | readWithVersion key readTs => rfl
  | readOwnWrite key txnId startTs readTs => exact readOwnWrite_state
  | prewrite txnId startTs key mutation =>
    obtain ⟨e, hrun⟩ := run_of_not_isOk (prewrite txnId startTs key mutation) h
    exact run_error_unchanged (oneShot_prewrite txnId startTs key mutation) hrun
  | commit txnId key startTs commitTs =>
    obtain ⟨e, hrun⟩ := run_of_not_isOk (commit txnId key startTs commitTs) h
    exact run_error_unchanged (oneShot_commit txnId key startTs commitTs) hrun
  | abort txnId key startTs => cases h
  | prewriteBatch txnId startTs writes =>
    obtain ⟨e, hrun⟩ := run_of_not_isOk (prewriteBatch txnId startTs writes) h
    exact run_error_unchanged (oneShot_prewriteBatch txnId startTs writes) hrun
  | commitBatch txnId startTs commitTs keys =>
    obtain ⟨e, hrun⟩ := run_of_not_isOk (commitBatch txnId startTs commitTs keys) h
    exact run_error_unchanged (oneShot_commitBatch txnId startTs commitTs keys) hrun
  | abortBatch txnId startTs keys =>
    obtain ⟨e, hrun⟩ := run_of_not_isOk (abortBatch txnId startTs keys) h
    exact run_error_unchanged (oneShot_abortBatch txnId startTs keys) hrun
  | applyDirectBatch commitTs writes =>
    obtain ⟨e, hrun⟩ := run_of_not_isOk (applyDirectBatch commitTs writes) h
    exact run_error_unchanged (oneShot_applyDirectBatch commitTs writes) hrun
  | applyGuardedBatch commitTs guards writes =>
    obtain ⟨e, hrun⟩ := run_of_not_isOk (applyGuardedBatch commitTs guards writes) h
    exact run_error_unchanged (oneShot_applyGuardedBatch commitTs guards writes) hrun
  | gcIncremental sp cursor options =>
    obtain ⟨e, hrun⟩ := run_of_not_isOk (gcIncremental sp cursor options) h
    by_cases hv : options.budget.Valid
    · obtain ⟨v, b', hrun', -⟩ := collects_run (steady_gcIncremental hv sp cursor) b
      rw [hrun'] at hrun
      cases hrun
    · exact gcIncremental_unchanged hv
  | gc fuel sp options =>
    obtain ⟨e, hrun⟩ := run_of_not_isOk (gc fuel sp options) h
    by_cases hv : options.budget.Valid
    · obtain ⟨v, b', hrun', -⟩ := collects_run (steady_gc hv fuel sp) b
      rw [hrun'] at hrun
      cases hrun
    · exact gc_unchanged hv

/-- A collection has its effect also where it fails. -/
theorem exec_collects {op : Op} {sp : Timestamp} {options : GcOptions}
    (he : op.effect = .collect sp options) (b : InMemoryBackend) :
    (Effect.collect sp options).Applies b (op.exec b).2 := by
  cases h : (op.exec b).1.isOk with
  | true => exact he ▸ exec_ok op h
  | false =>
    rw [exec_error op h]
    exact ⟨Shrunk.refl b, fun _ => GcRel.refl _ _ b⟩

/-- What holds of the state before a step and of every state its effect may leave
holds of the state after it. -/
theorem exec_elim {P : InMemoryBackend → Prop} (op : Op) (b : InMemoryBackend) (unchanged : P b)
    (locked : ∀ txnId startTs ws b', (op.exec b).1.isOk = true →
      op.effect = .lock txnId startTs ws → Locks b b' txnId startTs ws → P b')
    (committed : ∀ txnId startTs commitTs keys b', (op.exec b).1.isOk = true →
      op.effect = .commit txnId startTs commitTs keys →
      Commits b b' txnId startTs commitTs keys → P b')
    (released : ∀ txnId startTs keys b', (op.exec b).1.isOk = true →
      op.effect = .release txnId startTs keys → Releases b b' txnId startTs keys → P b')
    (written : ∀ commitTs guards ws b', (op.exec b).1.isOk = true →
      op.effect = .write commitTs guards ws → Writes b b' commitTs guards ws → P b')
    (collected : ∀ sp options b', op.effect = .collect sp options → Shrunk b b' →
      (options.KeepsContract → GcRel sp options.collapseFinalTombstones b b') → P b') :
    P (op.exec b).2 := by
  cases h : (op.exec b).1.isOk with
  | false => rwa [exec_error op h]
  | true =>
    have ha := exec_ok op h
    cases he : op.effect with
    | none =>
      rw [he] at ha
      rwa [show (op.exec b).2 = b from ha]
    | lock txnId startTs ws => exact locked _ _ _ _ h he (by rwa [he] at ha)
    | commit txnId startTs commitTs keys => exact committed _ _ _ _ _ h he (by rwa [he] at ha)
    | release txnId startTs keys => exact released _ _ _ _ h he (by rwa [he] at ha)
    | write commitTs guards ws => exact written _ _ _ _ h he (by rwa [he] at ha)
    | collect sp options =>
      rw [he] at ha
      exact collected _ _ _ he ha.1 ha.2

/-! What a step does to the history of one key. -/

def Op.isGc : Op → Bool
  | .gcIncremental _ _ _ => true
  | .gc _ _ _ => true
  | _ => false

theorem Op.effect_ne_collect {op : Op} (h : op.isGc = false) (sp : Timestamp) (options : GcOptions) :
    op.effect ≠ .collect sp options := by
  intro he
  cases op with
  | gcIncremental sp cursor options => cases h
  | gc fuel sp options => cases h
  | _ => cases he

theorem Op.effect_of_isGc {op : Op} (h : op.isGc = true) :
    ∃ sp options, op.effect = .collect sp options := by
  cases op with
  | gcIncremental sp cursor options => exact ⟨sp, options, rfl⟩
  | gc fuel sp options => exact ⟨sp, options, rfl⟩
  | _ => cases h

/-- The timestamp at which the effect writes. -/
def Effect.WritesAt (commitTs : Timestamp) : Effect → Prop
  | .commit _ _ c _ => c = commitTs
  | .write c _ _ => c = commitTs
  | _ => False

/-- What a step other than a collection does to one history: nothing, or it adds
a version above all others. -/
theorem exec_history {op : Op} (hgc : op.isGc = false) (b : InMemoryBackend) (k : Key) :
    (op.exec b).2.history k = b.history k ∨
      ∃ c v, op.effect.WritesAt c ∧ (∀ t ∈ dom (b.history k), t < c) ∧
        (op.exec b).2.history k = Function.update (b.history k) c (some v) := by
  refine exec_elim (P := fun b' => b'.history k = b.history k ∨
    ∃ c v, op.effect.WritesAt c ∧ (∀ t ∈ dom (b.history k), t < c) ∧
      b'.history k = Function.update (b.history k) c (some v)) op b (.inl rfl) ?_ ?_ ?_ ?_ ?_
  · exact fun txnId startTs ws b' _ _ hl => .inl (hl.histories k)
  · intro txnId startTs commitTs keys b' _ he hc
    by_cases hk : k ∈ keys
    · obtain ⟨i, -, -, -, hlt⟩ := hc.committable k hk
      exact .inr ⟨commitTs, _, by rw [he]; rfl, hlt, (hc.here k hk).2⟩
    · exact .inl (hc.off k hk).2
  · exact fun txnId startTs keys b' _ _ hr => .inl (hr.histories k)
  · intro commitTs guards ws b' _ he hw
    by_cases hk : k ∈ ws.map (·.key)
    · obtain ⟨w, hmem, rfl⟩ := List.mem_map.mp hk
      exact .inr ⟨commitTs, _, by rw [he]; rfl, (hw.writable w hmem).2, hw.here w hmem⟩
    · exact .inl (hw.off k hk)
  · exact fun sp options b' he _ _ => absurd he (op.effect_ne_collect hgc sp options)

end NexirMvcc
