import NexirMvcc.Batches
import NexirMvcc.Snapshots

/- Two ways to write. A transaction locks its keys, and commits or aborts them later; a
   direct batch writes at once. `transactions_as_direct_batches` relates the two over
   whole runs: take any run, and of it only the writes that took place, each as a direct
   batch at its commit timestamp, a commit with the values that were locked at that
   moment. These batches all succeed in that order on an empty backend, and leave what
   the run leaves to a reader. So locks, aborts, failed operations, guards and
   collections leave no trace in the committed data. `batches_visible_as_one` follows:
   no reader ever sees a part of a batch. -/
namespace NexirMvcc
open VersionHistory StepRun

/-- What an operation that succeeds in `b` writes, and when. -/
def Effect.written (b : InMemoryBackend) : Effect → Option (Timestamp × List PhysicalWrite)
  | .commit _ _ commitTs keys => some (commitTs, keys.map fun k => ⟨k, (commitOf b commitTs k).value⟩)
  | .write commitTs _ writes => some (commitTs, writes)
  | _ => Option.none

/-- What a step wrote, and when. -/
def wrote (x : Step InMemoryBackend Op Result) : Option (Timestamp × List PhysicalWrite) :=
  if x.result.isOk then x.op.effect.written x.before else none

/-- The step as a direct batch that succeeds, if it wrote. -/
def asDirect (x : Step InMemoryBackend Op Result) : Option (Op × Result) :=
  (wrote x).map fun (commitTs, writes) => (.applyDirectBatch commitTs writes, .applyBatch (.ok ()))

/-- The writes of a run as direct batches. -/
def directRun (ops : List Op) : List Op := ((steps ops).filterMap asDirect).map Prod.fst

/-- `t` holds no intents, and the histories of `b` are those of `t`, pruned below `S`. -/
structure DirectSim (S : Set Timestamp) (b t : InMemoryBackend) : Prop where
  free : ∀ k, t.getIntent k = none
  pruned : ∀ k, Pruned S (t.history k) (b.history k)

section Step
variable {S : Set Timestamp} {b b' t : InMemoryBackend} {txnId : TxnId} {startTs c : Timestamp}
  {ws : List PhysicalWrite}

theorem DirectSim.congr (h : DirectSim S b t) (hb : ∀ k, b'.history k = b.history k) :
    DirectSim S b' t := ⟨h.free, fun k => by rw [hb k]; exact h.pruned k⟩

theorem DirectSim.writable (h : DirectSim S b t) {k : Key} (hlt : ∀ u ∈ dom (b.history k), u < c) :
    Writable t c k := by
  refine ⟨h.free k, fun u hu => ?_⟩
  rcases (h.pruned k).shadowed_dom hu with hu | ⟨v, hv, huv, -⟩
  · exact hlt u hu
  · exact huv.trans (hlt v hv)

theorem DirectSim.visible_eq (h : DirectSim S b t) (k : Key) {r : Timestamp} (hr : ∀ sp ∈ S, sp ≤ r) :
    b.getVisibleCommitted k r = t.getVisibleCommitted k r :=
  getVisibleCommitted_congr (fun _ => ((h.pruned k).visible_iff hr).symm) fun _ ht =>
    (h.pruned k).eq_of_mem ht.1.1

/-- Nothing is pruned where there are no cutoffs. -/
theorem DirectSim.history_eq (h : DirectSim S b t) (hS : ∀ sp, sp ∉ S) (k : Key) :
    b.history k = t.history k := by
  funext u
  apply Option.ext
  intro v
  refine ⟨(h.pruned k).sub u v, fun hv => ?_⟩
  rcases (h.pruned k).shadowed u v hv with hv | ⟨-, -, -, sp, hsp, -⟩
  · exact hv
  · exact absurd hsp (hS sp)

/-- New versions on one side, and the same as a direct batch on the other. -/
theorem DirectSim.extended (h : DirectSim S b t) (hne : ws ≠ []) (hnd : (ws.map (·.key)).Nodup)
    (hlt : ∀ w ∈ ws, ∀ u ∈ dom (b.history w.key), u < c)
    (here : ∀ w ∈ ws, b'.history w.key = Function.update (b.history w.key) c (some w.value))
    (off : ∀ k, k ∉ ws.map (·.key) → b'.history k = b.history k) :
    ((Op.applyDirectBatch c ws).exec t).1 = .applyBatch (.ok ()) ∧
      DirectSim S b' ((Op.applyDirectBatch c ws).exec t).2 ∧
      ∀ w ∈ ws, ((Op.applyDirectBatch c ws).exec t).2.history w.key c = some w.value := by
  have hw : ∀ w ∈ ws, Writable t c w.key := fun w hw => h.writable (hlt w hw)
  have hrun : (applyDirectBatch c ws).run t = (.ok (), t.putCommittedBatch (commitsOf c ws)) :=
    applyDirectBatch_ok.mpr ⟨hne, hnd, hw, rfl⟩
  have hexec : (Op.applyDirectBatch c ws).exec t =
      (.applyBatch (.ok ()), t.putCommittedBatch (commitsOf c ws)) := by
    show Prod.map Result.applyBatch id ((applyDirectBatch c ws).run t) = _
    rw [hrun]
    rfl
  rw [hexec]
  have hno : ∀ g ∈ ([] : List ReadGuard), g.Holds t c := nofun
  have hwrites := writes_putCommittedBatch hnd hno hw
  refine ⟨rfl, ⟨fun k => (hwrites.intents k).trans (h.free k), fun k => ?_⟩, fun w hm => ?_⟩
  by_cases hk : k ∈ ws.map (·.key)
  · obtain ⟨w, hmem, rfl⟩ := List.mem_map.mp hk
    rw [hwrites.here w hmem, here w hmem]
    exact (h.pruned w.key).update c w.value
  · rw [hwrites.off k hk, off k hk]
    exact h.pruned k
  · rw [hwrites.here w hm, Function.update_self]

/-- What writes, writes something. -/
theorem written_ne_nil {op : Op} (hok : (op.exec b).1.isOk = true)
    (hw : op.effect.written b = some (c, ws)) : ws ≠ [] := by
  cases op with
  | commit txnId key startTs commitTs =>
    cases hw
    exact List.cons_ne_nil _ _
  | commitBatch txnId startTs commitTs keys =>
    cases hw
    have := (commitBatch_isOk.mp hok).1
    simpa using this
  | applyDirectBatch commitTs writes =>
    cases hw
    exact (applyDirectBatch_isOk.mp hok).1
  | applyGuardedBatch commitTs guards writes =>
    cases hw
    exact (applyGuardedBatch_isOk.mp hok).1
  | _ => cases hw

/-- A step of the run is a step of the direct batches, or none. -/
theorem DirectSim.step (op : Op) (h : DirectSim S b t) (hop : op.NonCollapsing)
    (hS : ∀ sp options, op.effect = .collect sp options → sp ∈ S) :
    match wrote (stepOf Op.exec b op) with
    | none => DirectSim S (op.exec b).2 t
    | some (c, ws) => ((Op.applyDirectBatch c ws).exec t).1 = .applyBatch (.ok ()) ∧
      DirectSim S (op.exec b).2 ((Op.applyDirectBatch c ws).exec t).2 ∧
      ∀ w ∈ ws, ((Op.applyDirectBatch c ws).exec t).2.history w.key c = some w.value := by
  cases hok : (op.exec b).1.isOk with
  | false =>
    have hnone : wrote (stepOf Op.exec b op) = none := if_neg (by simp [stepOf, hok])
    rw [hnone, exec_error op hok]
    exact h
  | true =>
    have hsome : wrote (stepOf Op.exec b op) = op.effect.written b := if_pos hok
    have hne : ∀ {c ws}, op.effect.written b = some (c, ws) → ws ≠ [] := written_ne_nil hok
    have ha := exec_ok op hok
    rw [hsome]
    cases he : op.effect with
    | none =>
      rw [he] at ha
      exact h.congr fun k => by rw [show (op.exec b).2 = b from ha]
    | lock txnId startTs ws =>
      rw [he] at ha
      exact h.congr (Locks.histories ha)
    | release txnId startTs keys =>
      rw [he] at ha
      exact h.congr (Releases.histories ha)
    | collect sp options =>
      rw [he] at ha
      have hrel := ha.2 (.inr (hop sp options he))
      rw [hop sp options he] at hrel
      refine ⟨h.free, fun k => (h.pruned k).trans ((hrel.pruned k).mono ?_)⟩
      rintro _ rfl
      exact ⟨_, hS _ options he, le_rfl⟩
    | write c gs ws =>
      rw [he] at ha hne
      have hw : Writes b _ c gs ws := ha
      exact h.extended (hne rfl) hw.nodup (fun w hm => (hw.writable w hm).2) hw.here hw.off
    | commit txnId startTs c keys =>
      rw [he] at ha hne
      have hc : Commits b _ txnId startTs c keys := ha
      have hkeys : (keys.map fun k => (⟨k, (commitOf b c k).value⟩ : PhysicalWrite)).map (·.key) =
          keys := by
        rw [List.map_map]
        exact List.map_id' keys
      refine h.extended (hne rfl) (by rw [hkeys]; exact hc.nodup) ?_ ?_ ?_
      · intro w hw
        obtain ⟨k, hk, rfl⟩ := List.mem_map.mp hw
        obtain ⟨i, -, -, -, hlt⟩ := hc.committable k hk
        exact hlt
      · intro w hw
        obtain ⟨k, hk, rfl⟩ := List.mem_map.mp hw
        exact (hc.here k hk).2
      · intro k hk
        rw [hkeys] at hk
        exact (hc.off k hk).2

end Step

theorem mem_ops_of_steps {ops : List Op} {x : Step InMemoryBackend Op Result} (hx : x ∈ steps ops) :
    x.op ∈ ops := by
  obtain ⟨pre, op, post, hops, rfl⟩ := (mem_trace Op.exec).mp hx
  simp [hops, stepOf]

/-- The versions that the steps wrote are in `t`. -/
def Recorded (xs : List (Step InMemoryBackend Op Result)) (t : InMemoryBackend) : Prop :=
  ∀ x ∈ xs, ∀ c ws, wrote x = some (c, ws) → ∀ w ∈ ws, t.history w.key c = some w.value

/-- The direct batches beside the run. -/
theorem direct_run_sim {ops : List Op} (hgc : ∀ op ∈ ops, op.NonCollapsing) :
    observed (fun _ => true) (steps (directRun ops)) =
      ((steps ops).filterMap asDirect).filter (fun _ => true) ∧
    DirectSim {sp | sp ∈ safePoints ops} (stateAfter ops) (stateAfter (directRun ops)) ∧
    Recorded (steps ops) (stateAfter (directRun ops)) := by
  -- what the step lemma says of a step of this run
  have hstep : ∀ x ∈ steps ops, ∀ t, x.op.exec x.before = (x.result, x.after) →
      DirectSim {sp | sp ∈ safePoints ops} x.before t → match wrote x with
        | none => DirectSim {sp | sp ∈ safePoints ops} x.after t
        | some (c, ws) => ((Op.applyDirectBatch c ws).exec t).1 = .applyBatch (.ok ()) ∧
          DirectSim {sp | sp ∈ safePoints ops} x.after ((Op.applyDirectBatch c ws).exec t).2 ∧
          ∀ w ∈ ws, ((Op.applyDirectBatch c ws).exec t).2.history w.key c = some w.value := by
    intro x hx t hexec h
    have hmem := mem_ops_of_steps hx
    have := h.step x.op (hgc x.op hmem) fun sp options he =>
      List.mem_filterMap.mpr ⟨x.op, hmem, by rw [he]; rfl⟩
    rwa [stepOf, hexec] at this
  refine Path.sim (J := fun pre b t => DirectSim {sp | sp ∈ safePoints ops} b t ∧ Recorded pre t)
    ?_ ?_ (path_trace Op.exec .new ops) ⟨⟨fun _ => rfl, fun _ => Pruned.refl _ _⟩, by simp [Recorded]⟩
  · intro pre x post t d r hx hexec h hshown
    have hin : x ∈ steps ops := by rw [show steps ops = _ from hx]; simp
    have hnext := hstep x hin t hexec h.1
    obtain ⟨⟨c, ws⟩, hwrote, hd⟩ := Option.map_eq_some_iff.mp hshown
    cases hd
    rw [hwrote] at hnext
    obtain ⟨hres, hsim, hnew⟩ := hnext
    refine ⟨fun _ => hres, hsim, List.forall_mem_append.mpr ⟨fun y hy c' ws' hw w hm => ?_, ?_⟩⟩
    · exact exec_keeps_versions rfl (h.2 y hy c' ws' hw w hm)
    · refine List.forall_mem_singleton.mpr fun c' ws' hw => ?_
      rw [hwrote] at hw
      cases hw
      exact hnew
  · intro pre x post t hx hexec h hshown
    have hin : x ∈ steps ops := by rw [show steps ops = _ from hx]; simp
    have hnext := hstep x hin t hexec h.1
    have hnone : wrote x = none := Option.map_eq_none_iff.mp hshown
    rw [hnone] at hnext
    refine ⟨hnext, List.forall_mem_append.mpr ⟨h.2, List.forall_mem_singleton.mpr fun c ws hw => ?_⟩⟩
    rw [hnone] at hw
    cases hw

theorem asDirect_result {x : Step InMemoryBackend Op Result} {d : Op} {r : Result}
    (h : asDirect x = some (d, r)) : r = .applyBatch (.ok ()) := by
  obtain ⟨p, -, hp⟩ := Option.map_eq_some_iff.mp h
  cases hp
  rfl

/-- Every run leaves to a reader what its writes leave as direct batches: these succeed,
every key has the same latest version, and at or above the safe points used every read
returns the same. Without collections the two have the same histories. -/
theorem transactions_as_direct_batches {ops : List Op} (hgc : ∀ op ∈ ops, op.NonCollapsing) :
    (∀ x ∈ steps (directRun ops), x.result = .applyBatch (.ok ())) ∧
    (∀ k, (stateAfter ops).getLatestCommitted k = (stateAfter (directRun ops)).getLatestCommitted k) ∧
    (∀ k r, (∀ sp ∈ safePoints ops, sp ≤ r) →
      ((readWithVersion k r).run (stateAfter ops)).1 =
        ((readWithVersion k r).run (stateAfter (directRun ops))).1) ∧
    (safePoints ops = [] →
      ∀ k, (stateAfter ops).history k = (stateAfter (directRun ops)).history k) := by
  obtain ⟨hobs, hsim, -⟩ := direct_run_sim hgc
  refine ⟨fun x hx => ?_, fun k => ?_, fun k r hr => ?_, fun hnone k => ?_⟩
  · have hin : (x.op, x.result) ∈ observed (fun _ => true) (steps (directRun ops)) :=
      List.mem_map.mpr ⟨x, List.mem_filter.mpr ⟨hx, rfl⟩, rfl⟩
    rw [hobs] at hin
    obtain ⟨y, -, hy⟩ := List.mem_filterMap.mp (List.mem_filter.mp hin).1
    exact asDirect_result hy
  · rw [InMemoryBackend.getLatestCommitted_eq, InMemoryBackend.getLatestCommitted_eq]
    exact hsim.visible_eq k fun sp _ => InMemoryBackend.le_maxTs sp
  · rw [readWithVersion_run, readWithVersion_run, hsim.visible_eq k hr]
  · refine hsim.history_eq (fun sp hsp => ?_) k
    have hsp : sp ∈ safePoints ops := hsp
    rw [hnone] at hsp
    cases hsp

/-- A transaction, a failed prewrite, an abort, a guarded batch and a collection. -/
theorem transactions_as_direct_batches_two_keys :
    let ops : List Op := [.prewriteBatch 1 2 [⟨[1], some [7]⟩, ⟨[2], none⟩], .prewrite 2 3 [1] .delete,
      .prewrite 3 3 [3] (.put [5]), .commitBatch 1 2 4 [[1], [2]], .abort 3 [3] 3,
      .applyGuardedBatch 6 [.expectedValue [1] 5 (some [7])] [⟨[1], some [8]⟩], .gc 9 6 ⟨⟨3, 3⟩, false⟩]
    directRun ops = [.applyDirectBatch 4 [⟨[1], some [7]⟩, ⟨[2], none⟩],
        .applyDirectBatch 6 [⟨[1], some [8]⟩]] ∧
      ((readWithVersion [1] 6).run (stateAfter ops)).1 =
        ((readWithVersion [1] 6).run (stateAfter (directRun ops))).1 := by
  intro ops
  have hgc : ∀ op ∈ ops, op.NonCollapsing := by decide
  have hr : ∀ sp ∈ safePoints ops, sp ≤ 6 := List.forall_mem_singleton.mpr le_rfl
  exact ⟨by decide +kernel, (transactions_as_direct_batches hgc).2.2.1 [1] 6 hr⟩

/-- A batch is seen as one: at any later time, and at any read timestamp at or above the
safe points used, a reader at or above the commit timestamp sees every key of it as the
batch or something newer left it, and a reader below sees none of it. -/
theorem batches_visible_as_one {ops : List Op} (hgc : ∀ op ∈ ops, op.NonCollapsing)
    {x : Step InMemoryBackend Op Result} (hx : x ∈ steps ops) {c : Timestamp}
    {ws : List PhysicalWrite} (hw : wrote x = some (c, ws)) {r : Timestamp}
    (hr : ∀ sp ∈ safePoints ops, sp ≤ r) :
    ∀ w ∈ ws, ∃ seen, (readWithVersion w.key r).run (stateAfter ops) = (.ok seen, stateAfter ops) ∧
      (c ≤ r → ∃ t v, seen = some (t, v) ∧ c ≤ t ∧ (t = c → v = w.value)) ∧
      (r < c → ∀ t v, seen = some (t, v) → t < c) := by
  intro w hmem
  obtain ⟨-, hsim, hrec⟩ := direct_run_sim hgc
  have hver := hrec x hx c ws hw w hmem
  refine ⟨_, readWithVersion_run, fun hcr => ?_, fun hrc t v hseen => ?_⟩
  · rw [hsim.visible_eq w.key hr]
    cases hvis : (stateAfter (directRun ops)).getVisibleCommitted w.key r with
    | none =>
      have hnone := InMemoryBackend.getVisibleCommitted_eq_none.mp hvis c hcr
      rw [hver] at hnone
      cases hnone
    | some v =>
      obtain ⟨-, ⟨-, hmax⟩, hval⟩ := InMemoryBackend.getVisibleCommitted_eq_some.mp hvis
      refine ⟨v.commitTs, v.value, rfl, hmax ⟨mem_dom.mpr ⟨_, hver⟩, hcr⟩, fun he => ?_⟩
      rw [he, hver] at hval
      exact (Option.some.inj hval).symm
  · cases hvis : (stateAfter ops).getVisibleCommitted w.key r with
    | none =>
      rw [hvis] at hseen
      cases hseen
    | some u =>
      rw [hvis] at hseen
      cases hseen
      obtain ⟨-, ⟨⟨-, hle⟩, -⟩, -⟩ := InMemoryBackend.getVisibleCommitted_eq_some.mp hvis
      exact hle.trans_lt hrc

/-- A transaction on two keys, one of which is written again. -/
theorem batches_visible_as_one_rewritten_key :
    let ops : List Op := [.prewriteBatch 1 2 [⟨[1], some [7]⟩, ⟨[2], none⟩],
      .commitBatch 1 2 4 [[1], [2]], .applyDirectBatch 5 [⟨[1], some [8]⟩], .gc 9 4 ⟨⟨3, 3⟩, false⟩]
    ∀ w ∈ ([⟨[1], some [7]⟩, ⟨[2], none⟩] : List PhysicalWrite), ∃ t v,
      (readWithVersion w.key 6).run (stateAfter ops) = (.ok (some (t, v)), stateAfter ops) ∧ 4 ≤ t := by
  intro ops w hw
  let x := stepOf Op.exec (stateAfter (ops.take 1)) (.commitBatch 1 2 4 [[1], [2]])
  have hgc : ∀ op ∈ ops, op.NonCollapsing := by decide
  have hx : x ∈ steps ops := (mem_trace Op.exec).mpr ⟨ops.take 1, _, ops.drop 2, rfl, rfl⟩
  have hwrote : wrote x = some (4, [⟨[1], some [7]⟩, ⟨[2], none⟩]) := by decide +kernel
  have hr : ∀ sp ∈ safePoints ops, sp ≤ 6 := List.forall_mem_singleton.mpr (by decide)
  obtain ⟨seen, hrun, hsees, -⟩ := batches_visible_as_one hgc hx hwrote hr w hw
  obtain ⟨t, v, rfl, hle, -⟩ := hsees (by decide)
  exact ⟨t, v, hrun, hle⟩

end NexirMvcc
