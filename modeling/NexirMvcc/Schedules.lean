import NexirMvcc.KeyIndex
import NexirMvcc.Faults

/- The test harness (`tests/support/model.rs`, `prop_schedule_execution` of
   `tests/property_tests.rs`). A schedule is a list of actions on an engine. The
   harness takes a snapshot of the backend before and after each action and asserts
   that a failed action changed nothing and that a collection kept the intents; in the
   end it asserts that the versions of each key are in ascending order.

   What is proved:
     1. `schedules_pass` — no assertion fails, on any schedule. The tests draw at most
        fifteen actions from small ranges.
     2. `snapshot_rebuilds` — a snapshot is all there is to a backend: written to an
        empty one, it gives the backend back. So what the replay tests compare is the
        state itself. -/
namespace NexirMvcc
open VersionHistory

inductive Action where
  | directBatch (ts : Timestamp) (writes : List PhysicalWrite)
  | guardedBatch (ts : Timestamp) (guards : List ReadGuard) (writes : List PhysicalWrite)
  | prewrite (txn : TxnId) (ts : Timestamp) (key : Key) (muta : Mutation)
  | commit (txn : TxnId) (key : Key) (startTs commitTs : Timestamp)
  | abort (txn : TxnId) (key : Key) (startTs : Timestamp)
  | prewriteBatch (txn : TxnId) (ts : Timestamp) (writes : List PhysicalWrite)
  | commitBatch (txn : TxnId) (startTs commitTs : Timestamp) (keys : List Key)
  | abortBatch (txn : TxnId) (startTs : Timestamp) (keys : List Key)
  | gc (ts : Timestamp)

/-- The options of the harness's collections. -/
def Action.gcOptions : GcOptions := ⟨⟨10000, 10000⟩, false⟩

/-- The engine operation of an action. A collection runs until it is done. -/
def Action.op (b : InMemoryBackend) : Action → Op
  | .directBatch ts writes => .applyDirectBatch ts writes
  | .guardedBatch ts guards writes => .applyGuardedBatch ts guards writes
  | .prewrite txn ts key muta => .prewrite txn ts key muta
  | .commit txn key startTs commitTs => .commit txn key startTs commitTs
  | .abort txn key startTs => .abort txn key startTs
  | .prewriteBatch txn ts writes => .prewriteBatch txn ts writes
  | .commitBatch txn startTs commitTs keys => .commitBatch txn startTs commitTs keys
  | .abortBatch txn startTs keys => .abortBatch txn startTs keys
  | .gc ts => .gc (gcFuel b) ts gcOptions

def Action.isGc : Action → Bool
  | .gc _ => true
  | _ => false

/-- The loop of a collection was cut off. -/
def Result.unfinished : Result → Bool
  | .gc (.ok none) => true
  | _ => false

/-- The action, or nothing where a collection does not end. -/
def Action.run (a : Action) (b : InMemoryBackend) : Option (Result × InMemoryBackend) :=
  let (r, b') := (a.op b).exec b
  if r.unfinished then none else some (r, b')

def applySchedule : List Action → InMemoryBackend → Option InMemoryBackend
  | [], b => some b
  | a :: as, b => do
    let (_, b) ← a.run b
    applySchedule as b

def snapshot (b : InMemoryBackend) : List Key × List CommittedVersion × List Intent :=
  let allKeys := b.allKeys.mergeSort
  (allKeys, allKeys.flatMap b.getCommittedVersions, allKeys.filterMap b.getIntent)

/-- The schedule with the assertions of the harness; a failed assertion is a panic. -/
def applyAndVerifySchedule : List Action → InMemoryBackend → Option InMemoryBackend
  | [], b => some b
  | a :: as, b => do
    let snapBefore := snapshot b
    let (r, b) ← a.run b
    let snapAfter := snapshot b
    if r.isOk = false ∧ snapBefore ≠ snapAfter then none
    else if a.isGc ∧ snapBefore.2.2 ≠ snapAfter.2.2 then none
    else applyAndVerifySchedule as b

/-- Neighbours are in ascending order of their timestamps. -/
def ascending (vs : List CommittedVersion) : Bool :=
  (vs.zip vs.tail).all fun p => p.1.commitTs < p.2.commitTs

def propScheduleExecution (schedule : List Action) : Option Bool := do
  let b ← applyAndVerifySchedule schedule .new
  let (keys, versions, _) := snapshot b
  pure (keys.all fun k => ascending (versions.filter fun v => v.key = k))

/-! Snapshots. -/

section Snapshot
variable {b b' : InMemoryBackend}

theorem snapshot_eq (b : InMemoryBackend) :
    snapshot b = (b.allKeys, b.allKeys.flatMap b.getCommittedVersions,
      b.allKeys.filterMap b.getIntent) := by
  have hsorted : b.allKeys.Pairwise (· ≤ ·) :=
    (OrderedSet.toList_sorted b.allKeysSet).imp fun h => le_of_lt h
  unfold snapshot
  rw [List.mergeSort_of_pairwise (by simpa using hsorted)]

theorem mem_snapshot_versions (hb : b.Wf) {v : CommittedVersion} :
    v ∈ (snapshot b).2.1 ↔ b.history v.key v.commitTs = some v.value := by
  rw [snapshot_eq, List.mem_flatMap]
  constructor
  · rintro ⟨k, -, hv⟩
    obtain ⟨rfl, hv⟩ := InMemoryBackend.mem_getCommittedVersions.mp hv
    exact hv
  · intro hv
    refine ⟨v.key, ?_, InMemoryBackend.mem_getCommittedVersions.mpr ⟨rfl, hv⟩⟩
    rw [InMemoryBackend.allKeys, Std.ExtTreeSet.mem_toList, hb.keys]
    exact .inl ⟨v.commitTs, mem_dom.mpr ⟨_, hv⟩⟩

theorem mem_snapshot_intents (hb : b.Wf) {i : Intent} :
    i ∈ (snapshot b).2.2 ↔ b.getIntent i.key = some i := by
  rw [snapshot_eq, List.mem_filterMap]
  constructor
  · rintro ⟨k, -, hi⟩
    rwa [hb.intentKey k i hi]
  · intro hi
    refine ⟨i.key, ?_, hi⟩
    rw [InMemoryBackend.allKeys, Std.ExtTreeSet.mem_toList, hb.keys]
    exact .inr (by rw [hi]; rfl)

/-- A version written to a backend that does not contradict it. -/
theorem putCommitted_history {v : CommittedVersion}
    (hv : ∀ x, b.history v.key v.commitTs = some x → x = v.value) {k : Key} {t : Timestamp}
    {x : Option Value} : (b.putCommitted v).history k t = some x ↔
      ⟨k, t, x⟩ = v ∨ b.history k t = some x := by
  obtain ⟨key, ts, value⟩ := v
  rw [InMemoryBackend.history_putCommitted]
  dsimp only at hv ⊢
  by_cases hk : key = k
  · subst hk
    rw [if_pos rfl]
    by_cases ht : t = ts
    · subst ht
      rw [Function.update_self]
      simp only [CommittedVersion.mk.injEq, true_and, Option.some.injEq]
      exact ⟨fun h => .inl h.symm, fun h => (h.elim id fun h => hv x h).symm⟩
    · rw [Function.update_of_ne ht]
      simp [ht]
  · rw [if_neg hk]
    simp [Ne.symm hk]

/-- Versions that agree with each other, written to a backend. -/
theorem putCommittedBatch_history {H : Key → Timestamp → Option (Option Value)}
    (vs : List CommittedVersion) (hb : ∀ k t x, b.history k t = some x → H k t = some x)
    (hvs : ∀ v ∈ vs, H v.key v.commitTs = some v.value) (k : Key) (t : Timestamp)
    (x : Option Value) :
    (b.putCommittedBatch vs).history k t = some x ↔ ⟨k, t, x⟩ ∈ vs ∨ b.history k t = some x := by
  induction vs generalizing b with
  | nil => simp [InMemoryBackend.putCommittedBatch]
  | cons v vs ih =>
    obtain ⟨hv, hvs⟩ := List.forall_mem_cons.mp hvs
    have hput : ∀ {k t x}, (b.putCommitted v).history k t = some x ↔
        ⟨k, t, x⟩ = v ∨ b.history k t = some x :=
      putCommitted_history fun x hx => Option.some.inj ((hb _ _ x hx).symm.trans hv)
    have hb' : ∀ k t x, (b.putCommitted v).history k t = some x → H k t = some x := by
      intro k t x hx
      rcases hput.mp hx with rfl | hx
      · exact hv
      · exact hb k t x hx
    show ((b.putCommitted v).putCommittedBatch vs).history k t = some x ↔ _
    rw [ih hb' hvs, hput, List.mem_cons]
    tauto

/-- Intents that agree with each other, put into a backend. -/
theorem putIntentsBatch_getIntent {I : Key → Option Intent} (is : List Intent)
    (hb : ∀ k i, b.getIntent k = some i → I k = some i) (his : ∀ i ∈ is, I i.key = some i)
    (k : Key) (i : Intent) :
    (b.putIntentsBatch is).getIntent k = some i ↔ i ∈ is ∧ i.key = k ∨ b.getIntent k = some i := by
  induction is generalizing b with
  | nil => simp [InMemoryBackend.putIntentsBatch]
  | cons j is ih =>
    obtain ⟨hj, his⟩ := List.forall_mem_cons.mp his
    have hput : ∀ {k i}, (b.putIntent j).getIntent k = some i ↔
        i = j ∧ i.key = k ∨ b.getIntent k = some i := by
      intro k i
      rw [InMemoryBackend.getIntent_putIntent]
      by_cases hk : j.key = k
      · subst hk
        rw [if_pos rfl, Option.some.injEq]
        constructor
        · rintro rfl
          exact .inl ⟨rfl, rfl⟩
        · rintro (⟨rfl, -⟩ | hi)
          · rfl
          · exact Option.some.inj (hj.symm.trans (hb _ _ hi))
      · rw [if_neg hk]
        refine ⟨.inr, ?_⟩
        rintro (⟨rfl, rfl⟩ | hi)
        · exact absurd rfl hk
        · exact hi
    have hb' : ∀ k i, (b.putIntent j).getIntent k = some i → I k = some i := by
      intro k i hi
      rcases hput.mp hi with ⟨rfl, rfl⟩ | hi
      · exact hj
      · exact hb k i hi
    show ((b.putIntent j).putIntentsBatch is).getIntent k = some i ↔ _
    rw [ih hb' his, hput, List.mem_cons]
    tauto

/-- A backend from a snapshot. -/
def rebuild (snap : List Key × List CommittedVersion × List Intent) : InMemoryBackend :=
  (InMemoryBackend.new.putCommittedBatch snap.2.1).putIntentsBatch snap.2.2

theorem rebuild_snapshot (hb : b.Wf) : rebuild (snapshot b) = b := by
  have hwf : (rebuild (snapshot b)).Wf :=
    (InMemoryBackend.wf_new.putCommittedBatch _).putIntentsBatch _
  refine hwf.ext hb (fun k => ?_) fun k => ?_
  · funext t
    apply Option.ext
    intro x
    unfold rebuild
    rw [InMemoryBackend.history_putIntentsBatch, putCommittedBatch_history (H := b.history) _ (by simp)
      fun v hv => (mem_snapshot_versions hb).mp hv, mem_snapshot_versions hb]
    simp
  · apply Option.ext
    intro i
    unfold rebuild
    rw [putIntentsBatch_getIntent (I := b.getIntent) _ (by simp)
      fun i hi => (mem_snapshot_intents hb).mp hi, mem_snapshot_intents hb]
    rw [InMemoryBackend.getIntent_putCommittedBatch, InMemoryBackend.getIntent_new]
    constructor
    · rintro (⟨hi, rfl⟩ | hi)
      · exact hi
      · cases hi
    · exact fun hi => .inl ⟨by rwa [hb.intentKey k i hi], hb.intentKey k i hi⟩

end Snapshot

/-- Whatever sequence of backend calls has built a backend, its snapshot written to an
empty backend gives it back: two backends with the same snapshot are the same. -/
theorem snapshot_rebuilds (ms ms' : List Mutator) :
    let b := ms.foldl Mutator.apply .new
    let b' := ms'.foldl Mutator.apply .new
    rebuild (snapshot b) = b ∧ (snapshot b = snapshot b' ↔ b = b') := by
  intro b b'
  have hb : rebuild (snapshot b) = b :=
    rebuild_snapshot (foldl_apply_wf InMemoryBackend.wf_new ms)
  have hb' : rebuild (snapshot b') = b' :=
    rebuild_snapshot (foldl_apply_wf InMemoryBackend.wf_new ms')
  refine ⟨hb, fun h => ?_, congrArg snapshot⟩
  rw [← hb, h, hb']

/-! Schedules. -/

section Schedule
variable {b b' : InMemoryBackend}

/-- A collection that does not collapse keeps the keys, and so the intents of a
snapshot. -/
theorem GcRel.snapshot_intents {sp : Timestamp} (h : GcRel sp false b b') (hb : b.Wf) (hb' : b'.Wf) :
    (snapshot b).2.2 = (snapshot b').2.2 := by
  have hdom : ∀ k, (∃ t, t ∈ dom (b.history k)) ↔ ∃ t, t ∈ dom (b'.history k) := by
    intro k
    constructor
    · rintro ⟨t, ht⟩
      rcases (h.pruned k).shadowed_dom ht with ht' | ⟨u, hu, -⟩
      · exact ⟨t, ht'⟩
      · exact ⟨u, hu⟩
    · rintro ⟨t, ht⟩
      exact ⟨t, (h.pruned k).dom_sub ht⟩
  have hkeys : b.allKeysSet = b'.allKeysSet := by
    apply Std.ExtTreeSet.ext_mem
    intro k
    rw [hb.keys, hb'.keys, hdom, h.intents]
  have hintents : b.getIntent = b'.getIntent := funext fun k => (h.intents k).symm
  rw [snapshot_eq, snapshot_eq, InMemoryBackend.allKeys, InMemoryBackend.allKeys, hkeys, hintents]

theorem Action.gc_run (ts : Timestamp) (hb : b.Wf) :
    ∃ stats b', (Action.gc ts).run b = some (.gc (.ok (some stats)), b') ∧ b'.Wf ∧
      GcRel ts false b b' := by
  have hv : Action.gcOptions.budget.Valid := ⟨by decide, by decide⟩
  have hm : BelowMax Action.gcOptions := ⟨by decide, by decide⟩
  obtain ⟨stats, b', hrun, hwf, hrel, -⟩ := NexirMvcc.gc_run ts hv hm hb
  have hexec : (Op.gc (gcFuel b) ts Action.gcOptions).exec b = (.gc (.ok (some stats)), b') := by
    show Prod.map Result.gc id ((NexirMvcc.gc (gcFuel b) ts Action.gcOptions).run b) = _
    rw [hrun (gcFuel b) le_rfl]
    rfl
  refine ⟨stats, b', ?_, hwf, hrel⟩
  unfold Action.run
  rw [show (Action.gc ts).op b = .gc (gcFuel b) ts Action.gcOptions from rfl, hexec]
  rfl

/-- An action ends, and what the harness asserts of it is true. -/
theorem Action.run_passes (a : Action) (hb : b.Wf) :
    ∃ r b', a.run b = some (r, b') ∧ b'.Wf ∧ (r.isOk = false → snapshot b = snapshot b') ∧
      (a.isGc = true → (snapshot b).2.2 = (snapshot b').2.2) := by
  cases hgc : a.isGc with
  | true =>
    cases a with
    | gc ts =>
      obtain ⟨stats, b', hrun, hwf, hrel⟩ := Action.gc_run ts hb
      exact ⟨_, b', hrun, hwf, nofun, fun _ => hrel.snapshot_intents hb hwf⟩
    | _ => cases hgc
  | false =>
    have hfin : ((a.op b).exec b).1.unfinished = false := by
      cases a with
      | gc ts => cases hgc
      | _ => rfl
    have hwf : ((a.op b).exec b).2.Wf := run_wf (a.op b).program.tree hb
    have hrun : a.run b = some ((a.op b).exec b) := by
      show (if ((a.op b).exec b).1.unfinished then none else some _) = _
      rw [hfin]
      rfl
    refine ⟨((a.op b).exec b).1, ((a.op b).exec b).2, hrun, hwf, fun herr => ?_, nofun⟩
    rw [exec_error (a.op b) herr]

theorem verify_eq_apply (schedule : List Action) (hb : b.Wf) :
    ∃ b', applyAndVerifySchedule schedule b = some b' ∧ applySchedule schedule b = some b' ∧ b'.Wf := by
  induction schedule generalizing b with
  | nil => exact ⟨b, rfl, rfl, hb⟩
  | cons a as ih =>
    obtain ⟨r, b₁, hrun, hwf, herr, hgc⟩ := a.run_passes hb
    obtain ⟨b', hverify, happly, hwf'⟩ := ih hwf
    refine ⟨b', ?_, ?_, hwf'⟩
    · unfold applyAndVerifySchedule
      simp only [hrun, bind, Option.bind]
      rw [if_neg fun h => h.2 (herr h.1), if_neg fun h => h.2 (hgc h.1)]
      exact hverify
    · unfold applySchedule
      simp only [hrun, bind, Option.bind]
      exact happly

theorem ascending_of_pairwise {vs : List CommittedVersion}
    (h : vs.Pairwise fun v w => v.commitTs < w.commitTs) : ascending vs = true := by
  unfold ascending
  induction vs with
  | nil => rfl
  | cons v vs ih =>
    obtain ⟨hv, hvs⟩ := List.pairwise_cons.mp h
    cases vs with
    | nil => rfl
    | cons w vs =>
      have := ih hvs
      simp_all

/-- The versions of a snapshot stand key by key. -/
theorem snapshot_versions_sorted (b : InMemoryBackend) :
    (snapshot b).2.1.Pairwise fun v w => v.key = w.key → v.commitTs < w.commitTs := by
  rw [snapshot_eq, List.pairwise_flatMap]
  refine ⟨fun k _ => (b.getCommittedVersions_sorted k).imp fun h => fun _ => h, ?_⟩
  refine (OrderedSet.toList_sorted b.allKeysSet).imp fun hlt v hv w hw he => ?_
  rw [(InMemoryBackend.mem_getCommittedVersions.mp hv).1,
    (InMemoryBackend.mem_getCommittedVersions.mp hw).1] at he
  exact absurd he hlt.ne

theorem snapshot_ascending (b : InMemoryBackend) (k : Key) :
    ascending ((snapshot b).2.1.filter fun v => v.key = k) = true := by
  have hkey : ∀ v ∈ (snapshot b).2.1.filter (fun v => v.key = k), v.key = k := fun v hv => by
    simpa using (List.mem_filter.mp hv).2
  refine ascending_of_pairwise (((snapshot_versions_sorted b).filter _).imp_of_mem ?_)
  intro v w hv hw h
  exact h ((hkey v hv).trans (hkey w hw).symm)

end Schedule

/-- No assertion of the harness fails on any schedule: every action ends, one that
fails leaves the snapshot as it was, a collection keeps the intents, and in the end the
versions of each key are in ascending order. The harness without its assertions ends in
the same state. -/
theorem schedules_pass (schedule : List Action) :
    propScheduleExecution schedule = some true ∧
      applyAndVerifySchedule schedule .new = applySchedule schedule .new := by
  obtain ⟨b, hverify, happly, -⟩ := verify_eq_apply schedule InMemoryBackend.wf_new
  refine ⟨?_, hverify.trans happly.symm⟩
  unfold propScheduleExecution
  rw [hverify]
  show some _ = _
  rw [Option.some.injEq, List.all_eq_true]
  exact fun k _ => snapshot_ascending b k

end NexirMvcc
