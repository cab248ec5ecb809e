import NexirMvcc.Intents

/- Write conflicts. A write to a key is checked against a snapshot: a committed
   intent against its start timestamp, a guarded write against the read timestamp
   of each guard on its key. As long as final tombstones are not collapsed, a
   version at or above every timestamp ever written stays in the history, so the
   checks see every earlier write, whatever a collection has removed. -/
namespace NexirMvcc
open VersionHistory StepRun

/-- The operation does not collapse final tombstones. -/
def Op.NonCollapsing (op : Op) : Prop :=
  ∀ sp options, op.effect = .collect sp options → options.collapseFinalTombstones = false

def Effect.collapses : Effect → Bool
  | .collect _ options => options.collapseFinalTombstones
  | _ => false

theorem Op.nonCollapsing_iff (op : Op) : op.NonCollapsing ↔ op.effect.collapses = false := by
  unfold Op.NonCollapsing
  cases op.effect with
  | collect sp options => simp [Effect.collapses]
  | _ => simp [Effect.collapses]

instance (op : Op) : Decidable op.NonCollapsing :=
  decidable_of_iff (op.effect.collapses = false) op.nonCollapsing_iff.symm

/-- A collection that does not collapse prunes every history. -/
theorem Op.NonCollapsing.gcRel {op : Op} (hop : op.NonCollapsing) (hgc : op.isGc = true)
    (b : InMemoryBackend) :
    ∃ sp options, op.effect = .collect sp options ∧ GcRel sp false b (op.exec b).2 := by
  obtain ⟨sp, options, he⟩ := op.effect_of_isGc hgc
  have hc := hop sp options he
  have hrel := (exec_collects he b).2 (.inr hc)
  rw [hc] at hrel
  exact ⟨sp, options, he, hrel⟩

/-- The step has written a version of `key` at `commitTs`. -/
def Wrote (x : Step InMemoryBackend Op Result) (key : Key) (commitTs : Timestamp) : Prop :=
  x.result.isOk = true ∧
    ((∃ txnId startTs keys, x.op.effect = .commit txnId startTs commitTs keys ∧ key ∈ keys) ∨
      ∃ guards ws, x.op.effect = .write commitTs guards ws ∧ key ∈ ws.map (·.key))

/-- The write of the step to `key` was checked against the snapshot at `ts`: it
commits an intent with start timestamp `ts`, or a guard of its batch reads `key`
at `ts`. -/
def CheckedAt (x : Step InMemoryBackend Op Result) (key : Key) (ts : Timestamp) : Prop :=
  (∃ txnId commitTs keys, x.op.effect = .commit txnId ts commitTs keys ∧ key ∈ keys) ∨
    ∃ commitTs guards ws, x.op.effect = .write commitTs guards ws ∧ key ∈ ws.map (·.key) ∧
      ∃ g ∈ guards, g.key = key ∧ g.readTs = ts

/-- The history of `key` has a version at or above `ts`. -/
def Reaches (b : InMemoryBackend) (key : Key) (ts : Timestamp) : Prop :=
  ∃ t ∈ dom (b.history key), ts ≤ t

section Step
variable {b : InMemoryBackend} {op : Op} {key : Key} {ts commitTs : Timestamp}

theorem Reaches.le (h : Reaches b key ts) {r : Timestamp}
    (hr : ∀ t ∈ dom (b.history key), t ≤ r) : ts ≤ r := by
  obtain ⟨t, ht, hle⟩ := h
  exact hle.trans (hr t ht)

theorem Reaches.lt (h : Reaches b key ts) {r : Timestamp}
    (hr : ∀ t ∈ dom (b.history key), t < r) : ts < r := by
  obtain ⟨t, ht, hle⟩ := h
  exact hle.trans_lt (hr t ht)

theorem Reaches.update {b' : InMemoryBackend} {v : Option Value} (h : Reaches b key ts)
    (hb : b'.history key = Function.update (b.history key) commitTs (some v)) :
    Reaches b' key ts := by
  obtain ⟨t, ht, hle⟩ := h
  refine ⟨t, ?_, hle⟩
  rw [hb, dom_update_some]
  exact Set.mem_insert_of_mem _ ht

/-- No step takes a key's history back. -/
theorem Reaches.step (hop : op.NonCollapsing) (h : Reaches b key ts) :
    Reaches (op.exec b).2 key ts := by
  cases hgc : op.isGc with
  | false =>
    rcases exec_history hgc b key with hsame | ⟨c, v, -, -, hup⟩
    · unfold Reaches
      rwa [hsame]
    · exact h.update hup
  | true =>
    obtain ⟨sp, options, -, hrel⟩ := hop.gcRel hgc b
    obtain ⟨t, ht, hle⟩ := h
    -- a version that is removed is below the keeper, which stays
    rcases (hrel.pruned key).shadowed_dom ht with hk | ⟨u, hu, htu, -⟩
    · exact ⟨t, hk, hle⟩
    · exact ⟨u, hu, hle.trans htu.le⟩

/-- The effect of a step that wrote, read off its key. -/
theorem Wrote.spec (h : Wrote (stepOf Op.exec b op) key commitTs) :
    (∀ t ∈ dom (b.history key), t < commitTs) ∧
      ∃ v, (op.exec b).2.history key = Function.update (b.history key) commitTs (some v) := by
  obtain ⟨hok, ⟨txnId, startTs, keys, he, hk⟩ | ⟨guards, ws, he, hk⟩⟩ := h
  · have ha := exec_ok op hok
    rw [show op.effect = _ from he] at ha
    obtain ⟨i, -, -, -, hlt⟩ := Commits.committable ha key hk
    exact ⟨hlt, _, (Commits.here ha key hk).2⟩
  · have ha := exec_ok op hok
    rw [show op.effect = _ from he] at ha
    obtain ⟨w, hw, rfl⟩ := List.mem_map.mp hk
    exact ⟨(Writes.writable ha w hw).2, _, Writes.here ha w hw⟩

theorem Wrote.reaches (h : Wrote (stepOf Op.exec b op) key commitTs) :
    Reaches (op.exec b).2 key commitTs := by
  obtain ⟨-, v, hv⟩ := h.spec
  refine ⟨commitTs, ?_, le_rfl⟩
  rw [hv, dom_update_some]
  exact Set.mem_insert _ _

/-- What a write is checked against is at or above every version of its key. -/
theorem CheckedAt.le (hb : LockInv b) (hok : (op.exec b).1.isOk = true)
    (h : CheckedAt (stepOf Op.exec b op) key ts) : ∀ t ∈ dom (b.history key), t ≤ ts := by
  have ha := exec_ok op hok
  obtain ⟨txnId, commitTs, keys, he, hk⟩ | ⟨commitTs, guards, ws, he, -, g, hg, rfl, rfl⟩ := h
  · rw [show op.effect = _ from he] at ha
    obtain ⟨i, hi, ⟨-, rfl⟩, -⟩ := Commits.committable ha key hk
    exact hb.covers key i hi
  · rw [show op.effect = _ from he] at ha
    exact (Writes.guards ha g hg).2.2.1

end Step

/-- Of two writes to one key the later has the higher timestamp, and was checked
against nothing below the earlier. -/
theorem writes_ordered {ops : List Op} (hgc : ∀ op ∈ ops, op.NonCollapsing) :
    (steps ops).Pairwise fun x y => ∀ k c c', Wrote x k c → Wrote y k c' →
      c < c' ∧ ∀ ts, CheckedAt y k ts → c ≤ ts := by
  refine trace_pairwise (I := LockInv) (Q := fun x b => ∀ k c, Wrote x k c → Reaches b k c)
    (fun b op _ h => lockInv_step op h) (fun b op _ _ k c h => h.reaches)
    (fun x b op hop _ h k c hx => (h k c hx).step hop) ?_ hgc lockInv_new
  intro x b op hop hb h k c c' hx hy
  refine ⟨(h k c hx).lt hy.spec.1, ?_⟩
  exact fun ts hts => (h k c hx).le (hts.le hb hy.1)

/-- No two writes to a key conflict: where a write at `c` was checked against the
snapshot at `ts`, no other write of the run to that key, earlier or later, lies
above `ts` and at or below `c`. -/
theorem first_committer_wins {ops : List Op} (hgc : ∀ op ∈ ops, op.NonCollapsing) {i j : Nat}
    {x y : Step InMemoryBackend Op Result} (hx : (steps ops)[i]? = some x)
    (hy : (steps ops)[j]? = some y) (hij : i ≠ j) {k : Key} {c c' ts : Timestamp}
    (hxw : Wrote x k c) (hts : CheckedAt x k ts) (hyw : Wrote y k c') : ¬ (ts < c' ∧ c' ≤ c) := by
  have hord := List.pairwise_iff_getElem.mp (writes_ordered hgc)
  obtain ⟨hi, rfl⟩ := List.getElem?_eq_some_iff.mp hx
  obtain ⟨hj, rfl⟩ := List.getElem?_eq_some_iff.mp hy
  rintro ⟨hlt, hle⟩
  rcases Nat.lt_or_gt_of_ne hij with h | h
  · exact absurd hle (hord i j hi hj h k c c' hxw hyw).1.not_ge
  · exact absurd hlt ((hord j i hj hi h k c' c hyw hxw).2 ts hts).not_gt

/-- A commit of an intent, a collection and a direct write to the same key. -/
theorem first_committer_wins_direct_after_commit :
    let ops : List Op := [.prewrite 1 5 [1] (.put [7]), .commit 1 [1] 5 6,
      .gc 9 6 ⟨⟨4, 4⟩, false⟩, .applyDirectBatch 8 [⟨[1], some [9]⟩]]
    ∃ x y, (steps ops)[1]? = some x ∧ (steps ops)[3]? = some y ∧ Wrote x [1] 6 ∧
      CheckedAt x [1] 5 ∧ Wrote y [1] 8 ∧ ¬ ((5 : Timestamp) < 8 ∧ (8 : Timestamp) ≤ 6) := by
  intro ops
  have hgc : ∀ op ∈ ops, op.NonCollapsing := by decide
  have hx : Wrote (stepOf Op.exec (stateAfter (ops.take 1)) (.commit 1 [1] 5 6)) [1] 6 :=
    ⟨by decide +kernel, .inl ⟨1, 5, [[1]], rfl, by simp⟩⟩
  have hts : CheckedAt (stepOf Op.exec (stateAfter (ops.take 1)) (.commit 1 [1] 5 6)) [1] 5 :=
    .inl ⟨1, 6, [[1]], rfl, by simp⟩
  have hy : Wrote (stepOf Op.exec (stateAfter (ops.take 3))
      (.applyDirectBatch 8 [⟨[1], some [9]⟩])) [1] 8 :=
    ⟨by decide +kernel, .inr ⟨[], _, rfl, by simp⟩⟩
  exact ⟨_, _, rfl, rfl, hx, hts, hy, first_committer_wins hgc (i := 1) (j := 3) rfl rfl (by decide)
    hx hts hy⟩

/-! Reads before a prewrite. -/

/-- The step creates the intent of `(txnId, startTs)` on `key`. -/
def CreatesIntent (x : Step InMemoryBackend Op Result) (txnId : TxnId) (startTs : Timestamp)
    (key : Key) : Prop :=
  x.result.isOk = true ∧ x.before.getIntent key = none ∧
    ∃ ws, x.op.effect = .lock txnId startTs ws ∧ key ∈ ws.map (·.key)

/-- Between a read of `key` at `startTs` and a later prewrite at `startTs` that
creates an intent on it, every write to `key` satisfies `P`. -/
def BetweenReadAndPrewrite (ops : List Op) (P : Timestamp → Timestamp → Prop) : Prop :=
  ∀ (i l j : Nat) (x z y : Step InMemoryBackend Op Result), i < l → l < j →
    (steps ops)[i]? = some x → (steps ops)[l]? = some z → (steps ops)[j]? = some y →
    ∀ txnId startTs key commitTs, x.op = .read key startTs → Wrote z key commitTs →
      CreatesIntent y txnId startTs key → P startTs commitTs

/-- A prewrite that creates an intent finds no version above its start timestamp. -/
theorem CreatesIntent.le {b : InMemoryBackend} {op : Op} {txnId : TxnId} {startTs : Timestamp}
    {key : Key} (h : CreatesIntent (stepOf Op.exec b op) txnId startTs key) :
    ∀ t ∈ dom (b.history key), t ≤ startTs := by
  obtain ⟨hok, hnone, ws, he, hk⟩ := h
  have ha := exec_ok op hok
  rw [show op.effect = _ from he] at ha
  obtain ⟨w, hw, rfl⟩ := List.mem_map.mp hk
  rcases Locks.here ha with ⟨hheld, -⟩ | hnew
  · obtain ⟨i, hi, -⟩ := hheld w hw
    rw [show b.getIntent w.key = none from hnone] at hi
    cases hi
  · exact (hnew w hw).1.2

theorem writes_below_created_intents {ops : List Op} (hgc : ∀ op ∈ ops, op.NonCollapsing) :
    (steps ops).Pairwise fun x y => ∀ k c txnId startTs, Wrote x k c →
      CreatesIntent y txnId startTs k → c ≤ startTs := by
  refine trace_pairwise (I := fun _ => True) (Q := fun x b => ∀ k c, Wrote x k c → Reaches b k c)
    (fun _ _ _ _ => trivial) (fun b op _ _ k c h => h.reaches)
    (fun x b op hop _ h k c hx => (h k c hx).step hop) ?_ hgc trivial
  intro x b op hop _ h k c txnId startTs hx hy
  exact (h k c hx).le hy.le

/-- What is written to a key between a read of it and the prewrite that follows is
not above the snapshot that was read. -/
theorem no_newer_write_after_read (ops : List Op) (hgc : ∀ op ∈ ops, op.NonCollapsing) :
    BetweenReadAndPrewrite ops fun startTs commitTs => commitTs ≤ startTs := by
  intro i l j x z y _ hlj _ hz hy txnId startTs key commitTs _ hwrote hcreates
  have hord := List.pairwise_iff_getElem.mp (writes_below_created_intents hgc)
  obtain ⟨hl, rfl⟩ := List.getElem?_eq_some_iff.mp hz
  obtain ⟨hj, rfl⟩ := List.getElem?_eq_some_iff.mp hy
  exact hord l j hl hj hlj key commitTs txnId startTs hwrote hcreates

/-- A read at 10, a direct write at 5, and a prewrite at 10. -/
theorem no_newer_write_after_read_older_write :
    BetweenReadAndPrewrite [.read [1] 10, .applyDirectBatch 5 [⟨[1], some [7]⟩],
      .prewrite 1 10 [1] (.put [8])] fun startTs commitTs => commitTs ≤ startTs := by
  apply no_newer_write_after_read
  decide

/-- In the same run the prewrite succeeds although the key was written after the
read. -/
theorem older_write_after_read_overwritten :
    ¬ BetweenReadAndPrewrite [.read [1] 10, .applyDirectBatch 5 [⟨[1], some [7]⟩],
      .prewrite 1 10 [1] (.put [8])] fun _ _ => False := by
  intro h
  refine h 0 1 2 _ _ _ (by decide) (by decide) rfl rfl rfl 1 10 [1] 5 rfl ?_ ?_
  · exact ⟨by decide +kernel, .inr ⟨[], _, rfl, by simp⟩⟩
  · exact ⟨by decide +kernel, by decide +kernel, _, rfl, by simp⟩

end NexirMvcc
