import NexirMvcc.Runs

/- Held intents. In every reachable state an intent is at least as new as every
   version of its key, whatever collections have run, and only a commit or an
   abort by its own transaction removes it. So what is prewritten can be
   committed at every later timestamp, with the values prewritten. -/
namespace NexirMvcc
open VersionHistory StepRun

/-- Intents are stored under their keys, carry no minimal commit timestamp, and
are at least as new as every version of their key. -/
structure LockInv (b : InMemoryBackend) : Prop where
  own : ∀ k i, b.getIntent k = some i → i.key = k
  noMin : ∀ k i, b.getIntent k = some i → i.minCommitTs = none
  covers : ∀ k i, b.getIntent k = some i → ∀ t ∈ dom (b.history k), t ≤ i.startTs

theorem lockInv_new : LockInv .new := by
  constructor <;> simp

/-- A step that adds no intent and no version keeps the invariant. -/
theorem LockInv.mono {b b' : InMemoryBackend} (h : LockInv b)
    (hi : ∀ k i, b'.getIntent k = some i → b.getIntent k = some i ∧ b'.history k = b.history k) :
    LockInv b' := by
  refine ⟨fun k i hk => h.own k i (hi k i hk).1, fun k i hk => h.noMin k i (hi k i hk).1, ?_⟩
  intro k i hk
  rw [(hi k i hk).2]
  exact h.covers k i (hi k i hk).1

theorem LockInv.locks {b b' : InMemoryBackend} {txnId : TxnId} {startTs : Timestamp}
    {ws : List PhysicalWrite} (h : LockInv b) (hl : Locks b b' txnId startTs ws) : LockInv b' := by
  rcases hl.here with ⟨-, rfl⟩ | hnew
  · exact h
  -- an intent after the step was there before, or is a new one on a free key
  · have hcases : ∀ k i, b'.getIntent k = some i → b.getIntent k = some i ∨
        (∀ t ∈ dom (b.history k), t ≤ startTs) ∧ ∃ v, i = ⟨k, txnId, startTs, v, none⟩ := by
      intro k i hi
      by_cases hk : k ∈ ws.map (·.key)
      · obtain ⟨w, hw, rfl⟩ := List.mem_map.mp hk
        obtain ⟨hfree, hw'⟩ := hnew w hw
        rw [hw'] at hi
        exact .inr ⟨hfree.2, _, (Option.some.inj hi).symm⟩
      · rw [hl.off k hk] at hi
        exact .inl hi
    constructor
    · intro k i hi
      rcases hcases k i hi with hi | ⟨-, v, rfl⟩
      · exact h.own k i hi
      · rfl
    · intro k i hi
      rcases hcases k i hi with hi | ⟨-, v, rfl⟩
      · exact h.noMin k i hi
      · rfl
    · intro k i hi
      rw [hl.histories]
      rcases hcases k i hi with hi | ⟨hfree, v, rfl⟩
      · exact h.covers k i hi
      · exact hfree

/-- Every operation keeps the invariant. -/
theorem lockInv_step (op : Op) {b : InMemoryBackend} (h : LockInv b) : LockInv (op.exec b).2 := by
  refine exec_elim op b h ?_ ?_ ?_ ?_ ?_
  · exact fun txnId startTs ws b' _ _ hl => h.locks hl
  · intro txnId startTs commitTs keys b' _ _ hc
    refine h.mono ?_
    intro k i hi
    by_cases hk : k ∈ keys
    · rw [(hc.here k hk).1] at hi
      cases hi
    · rw [(hc.off k hk).1] at hi
      exact ⟨hi, (hc.off k hk).2⟩
  · intro txnId startTs keys b' _ _ hr
    refine h.mono ?_
    intro k i hi
    rw [hr.intents k] at hi
    exact ⟨(Option.filter_eq_some_iff.mp hi).1, hr.histories k⟩
  · intro commitTs guards ws b' _ _ hw
    refine h.mono ?_
    intro k i hi
    rw [hw.intents k] at hi
    refine ⟨hi, hw.off k ?_⟩
    -- the key of a direct write holds no intent
    intro hk
    obtain ⟨w, hmem, rfl⟩ := List.mem_map.mp hk
    rw [(hw.writable w hmem).1] at hi
    cases hi
  · intro sp options b' _ hs _
    refine ⟨fun k i hi => h.own k i (hs.intents k ▸ hi),
      fun k i hi => h.noMin k i (hs.intents k ▸ hi), ?_⟩
    intro k i hi t ht
    obtain ⟨v, hv⟩ := mem_dom.mp ht
    exact h.covers k i (hs.intents k ▸ hi) t (mem_dom.mpr ⟨v, hs.sub k t v hv⟩)

theorem lockInv_stateAfter (ops : List Op) : LockInv (stateAfter ops) :=
  (trace_inv (fun _ op h => lockInv_step op h) lockInv_new).2

/-! Holding an intent. -/

/-- The step commits or aborts the intent of `(txnId, startTs)` on `key`. -/
def Resolves (x : Step InMemoryBackend Op Result) (txnId : TxnId) (startTs : Timestamp) (key : Key) :
    Prop :=
  x.result.isOk = true ∧
    ((∃ commitTs keys, x.op.effect = .commit txnId startTs commitTs keys ∧ key ∈ keys) ∨
      ∃ keys, x.op.effect = .release txnId startTs keys ∧ key ∈ keys)

/-- Some prewrite of the run, single or of a batch, has prewritten `w` for
`(txnId, startTs)`, and its key has not been committed or aborted by it since. -/
def Prewritten (ops : List Op) (txnId : TxnId) (startTs : Timestamp) (w : PhysicalWrite) : Prop :=
  ∃ pre op post ws, ops = pre ++ op :: post ∧ op.effect = .lock txnId startTs ws ∧ w ∈ ws ∧
    (op.exec (stateAfter pre)).1.isOk = true ∧
    ∀ x ∈ trace Op.exec (op.exec (stateAfter pre)).2 post, ¬ Resolves x txnId startTs w.key

variable {b : InMemoryBackend} {txnId : TxnId} {startTs : Timestamp} {w : PhysicalWrite}

/-- After a prewrite its intents are held. -/
theorem Locks.held {b' : InMemoryBackend} {ws : List PhysicalWrite}
    (h : Locks b b' txnId startTs ws) (hw : w ∈ ws) : Held b' txnId startTs w := by
  rcases h.here with ⟨hheld, rfl⟩ | hnew
  · exact hheld w hw
  · exact ⟨_, (hnew w hw).2, ⟨rfl, rfl⟩, rfl⟩

/-- A step that does not resolve a held intent leaves it in place. -/
theorem Held.step (op : Op) (h : Held b txnId startTs w)
    (hr : ¬ Resolves (stepOf Op.exec b op) txnId startTs w.key) :
    Held (op.exec b).2 txnId startTs w := by
  obtain ⟨i, hi, ⟨rfl, rfl⟩, hm⟩ := h
  have hsame : ∀ b', b'.getIntent w.key = b.getIntent w.key → Held b' i.txnId i.startTs w :=
    fun b' hb => ⟨i, hb.trans hi, ⟨rfl, rfl⟩, hm⟩
  refine exec_elim (P := fun b' => Held b' i.txnId i.startTs w) op b (hsame b rfl) ?_ ?_ ?_ ?_ ?_
  · intro txnId' startTs' ws b' _ _ hl
    rcases hl.here with ⟨-, rfl⟩ | hnew
    · exact hsame _ rfl
    · refine hsame b' (hl.off w.key ?_)
      -- a new intent goes to free keys only
      intro hk
      obtain ⟨w', hw', he⟩ := List.mem_map.mp hk
      have := (hnew w' hw').1.1
      rw [he, hi] at this
      cases this
  · intro txnId' startTs' commitTs keys b' hok he hc
    refine hsame b' (hc.off w.key ?_).1
    intro hk
    obtain ⟨i', hi', ⟨rfl, rfl⟩, -⟩ := hc.committable w.key hk
    obtain rfl : i = i' := Option.some.inj (hi.symm.trans hi')
    exact hr ⟨hok, .inl ⟨commitTs, keys, he, hk⟩⟩
  · intro txnId' startTs' keys b' hok he hrel
    refine hsame b' ?_
    rw [hrel.intents, hi, Option.filter_some, if_pos]
    rw [decide_eq_true_iff]
    rintro ⟨hk, rfl, rfl⟩
    exact hr ⟨hok, .inr ⟨keys, he, hk⟩⟩
  · exact fun commitTs guards ws b' _ _ hw => hsame b' (hw.intents w.key)
  · exact fun sp options b' _ hs _ => hsame b' (hs.intents w.key)

/-- Nor does a run that never resolves it. -/
theorem Held.run {post : List Op} (h : Held b txnId startTs w)
    (hr : ∀ x ∈ trace Op.exec b post, ¬ Resolves x txnId startTs w.key) :
    Held (final Op.exec b post) txnId startTs w := by
  induction post generalizing b with
  | nil => exact h
  | cons op post ih =>
    obtain ⟨hop, hpost⟩ := List.forall_mem_cons.mp hr
    exact ih (h.step op hop) hpost

theorem Prewritten.held {ops : List Op} (h : Prewritten ops txnId startTs w) :
    Held (stateAfter ops) txnId startTs w := by
  obtain ⟨pre, op, post, ws, rfl, he, hw, hok, hpost⟩ := h
  have hlocks := exec_ok op hok
  rw [he] at hlocks
  have hheld : Held (op.exec (stateAfter pre)).2 txnId startTs w := Locks.held hlocks hw
  unfold stateAfter
  rw [final_append]
  exact hheld.run hpost

/-- A held intent can be committed at every later timestamp. -/
theorem Held.committable {commitTs : Timestamp} (h : Held b txnId startTs w) (hb : LockInv b)
    (hlt : startTs < commitTs) : Committable b txnId startTs commitTs w.key := by
  obtain ⟨i, hi, hheld, -⟩ := h
  refine ⟨i, hi, hheld, ?_, ?_⟩
  · intro m hm
    rw [hb.noMin w.key i hi] at hm
    cases hm
  · intro t ht
    have := hb.covers w.key i hi t ht
    rw [hheld.2] at this
    exact this.trans_lt hlt

theorem Held.commitOf_value {commitTs : Timestamp} (h : Held b txnId startTs w) :
    (commitOf b commitTs w.key).value = w.value := by
  obtain ⟨i, hi, -, hm⟩ := h
  rw [commitOf_eq hi, hm, Mutation.value_ofValue]

/-- Its transaction reads the value prewritten. -/
theorem Held.readOwnWrite_run {readTs : Timestamp} (h : Held b txnId startTs w) :
    (readOwnWrite w.key txnId startTs readTs).run b = (.ok w.value, b) := by
  obtain ⟨i, hi, ⟨rfl, rfl⟩, hm⟩ := h
  unfold readOwnWrite
  rw [run_getIntent, hi]
  simp [hm]

/-- In every reachable state intents are as new as all versions of their keys; a
transaction can commit all it has prewritten and not resolved, at every later
timestamp, and what is then committed is what it prewrote, and what it reads as
its own write as long as it holds the intent. -/
theorem prewritten_commits (ops : List Op) :
    (∀ k i, (stateAfter ops).getIntent k = some i →
      ∀ t ∈ dom ((stateAfter ops).history k), t ≤ i.startTs) ∧
    (∀ txnId startTs W, W ≠ [] → (W.map (·.key)).Nodup →
      (∀ w ∈ W, Prewritten ops txnId startTs w) → ∀ commitTs, startTs < commitTs →
      ∃ b', (commitBatch txnId startTs commitTs (W.map (·.key))).run (stateAfter ops) = (.ok (), b') ∧
        ∀ w ∈ W, b'.history w.key =
          Function.update ((stateAfter ops).history w.key) commitTs (some w.value)) ∧
    (∀ txnId startTs w, Prewritten ops txnId startTs w → ∀ readTs,
      (readOwnWrite w.key txnId startTs readTs).run (stateAfter ops) =
        (.ok w.value, stateAfter ops)) := by
  have hinv := lockInv_stateAfter ops
  refine ⟨hinv.covers, ?_, fun txnId startTs w hw readTs => hw.held.readOwnWrite_run⟩
  intro txnId startTs W hne hnd hW commitTs hlt
  have hkeys : W.map (·.key) ≠ [] := by simpa using hne
  have hall : ∀ k ∈ W.map (·.key), Committable (stateAfter ops) txnId startTs commitTs k := by
    intro k hk
    obtain ⟨w, hw, rfl⟩ := List.mem_map.mp hk
    exact (hW w hw).held.committable hinv hlt
  refine ⟨_, commitBatch_ok.mpr ⟨hkeys, hnd, hlt, hall, rfl⟩, ?_⟩
  intro w hw
  have hc := commits_commitIntentsBatch hnd hlt hall
  rw [(hc.here w.key (List.mem_map_of_mem hw)).2, (hW w hw).held.commitOf_value]

/-- A batch of two writes, committed after a direct write and a collection. -/
theorem prewritten_commits_after_collection :
    let ops : List Op := [.prewriteBatch 1 5 [⟨[1], some [7]⟩, ⟨[2], none⟩],
      .applyDirectBatch 4 [⟨[3], some [9]⟩], .gc 9 4 ⟨⟨5, 5⟩, true⟩]
    ∃ b', (commitBatch 1 5 6 [[1], [2]]).run (stateAfter ops) = (.ok (), b') ∧
      b'.history [1] = Function.update ((stateAfter ops).history [1]) 6 (some (some [7])) := by
  intro ops
  have hp : ∀ w ∈ [(⟨[1], some [7]⟩ : PhysicalWrite), ⟨[2], none⟩], Prewritten ops 1 5 w := by
    intro w hw
    refine ⟨[], _, _, _, rfl, rfl, hw, by decide +kernel, ?_⟩
    simp only [trace, List.forall_mem_cons, Resolves]
    refine ⟨?_, ?_, by simp⟩ <;>
      rintro ⟨-, ⟨commitTs, keys, he, -⟩ | ⟨keys, he, -⟩⟩ <;> cases he
  obtain ⟨b', hrun, hb⟩ := (prewritten_commits ops).2.1 1 5 _ (by simp) (by decide) hp 6 (by decide)
  exact ⟨b', hrun, hb ⟨[1], some [7]⟩ (by simp)⟩

end NexirMvcc
