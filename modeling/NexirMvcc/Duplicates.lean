import NexirMvcc.Snapshots

/- Operations submitted twice. A commit or a direct write leaves a version at its
   timestamp, and from then on every version of its key that counts as latest is
   at or above it, so the same call is too old for ever. For the same reason no
   prewrite at the start timestamp of a committed intent passes again. A prewrite
   that is repeated while its intents are held, and an abort that finds nothing of
   its own, succeed and change nothing. -/
namespace NexirMvcc
open VersionHistory StepRun

section
variable {b : InMemoryBackend} {op : Op} {k : Key} {txnId : TxnId} {startTs commitTs : Timestamp}

/-- The operation is refused in `b` and changes nothing. -/
def Op.Refused (op : Op) (b : InMemoryBackend) : Prop :=
  (op.exec b).1.isOk = false ∧ (op.exec b).2 = b

/-- The operation succeeds in `b` and changes nothing. -/
def Op.Idle (op : Op) (b : InMemoryBackend) : Prop :=
  (op.exec b).1.isOk = true ∧ (op.exec b).2 = b

theorem Op.idle_of_exec {x : Result} (h : op.exec b = (x, b)) (hx : x.isOk = true) : op.Idle b := by
  unfold Op.Idle
  rw [h]
  exact ⟨hx, rfl⟩

theorem Op.refused_of_not_isOk (h : (op.exec b).1.isOk ≠ true) : op.Refused b := by
  have h : (op.exec b).1.isOk = false := by simpa using h
  exact ⟨h, exec_error op h⟩

/-- An operation that writes has a key to write. -/
theorem exists_wrote (hok : (op.exec b).1.isOk = true) (hc : op.effect.WritesAt commitTs) :
    ∃ k, Wrote (stepOf Op.exec b op) k commitTs := by
  cases op with
  | commit txnId key startTs c =>
    obtain rfl : c = commitTs := hc
    exact ⟨key, hok, .inl ⟨txnId, startTs, [key], rfl, by simp⟩⟩
  | commitBatch txnId startTs c keys =>
    obtain rfl : c = commitTs := hc
    obtain ⟨⟨⟩, hrun⟩ := run_of_isOk (commitBatch txnId startTs c keys) hok
    obtain ⟨k, hk⟩ := List.exists_mem_of_ne_nil keys (commitBatch_ok.mp hrun).1
    exact ⟨k, hok, .inl ⟨txnId, startTs, keys, rfl, hk⟩⟩
  | applyDirectBatch c ws =>
    obtain rfl : c = commitTs := hc
    obtain ⟨⟨⟩, hrun⟩ := run_of_isOk (applyDirectBatch c ws) hok
    obtain ⟨w, hw⟩ := List.exists_mem_of_ne_nil ws (applyDirectBatch_ok.mp hrun).1
    exact ⟨w.key, hok, .inr ⟨[], ws, rfl, List.mem_map_of_mem hw⟩⟩
  | applyGuardedBatch c guards ws =>
    obtain rfl : c = commitTs := hc
    obtain ⟨⟨⟩, hrun⟩ := run_of_isOk (applyGuardedBatch c guards ws) hok
    obtain ⟨w, hw⟩ := List.exists_mem_of_ne_nil ws (applyGuardedBatch_ok.mp hrun).1
    exact ⟨w.key, hok, .inr ⟨guards, ws, rfl, List.mem_map_of_mem hw⟩⟩
  | _ => cases hc

/-- Whether a step writes to a key does not depend on the state, but for its
success. -/
theorem Wrote.again {b' : InMemoryBackend} (h : Wrote (stepOf Op.exec b op) k commitTs)
    (hok : (op.exec b').1.isOk = true) : Wrote (stepOf Op.exec b' op) k commitTs :=
  ⟨hok, h.2⟩

/-- A key written above `startTs` can be neither free nor held at `startTs`. -/
theorem lock_refused {ws : List PhysicalWrite} (hb : LockInv b) (hreach : Reaches b k commitTs)
    (hlt : startTs < commitTs) (he : op.effect = .lock txnId startTs ws)
    (hk : k ∈ ws.map (·.key)) : op.Refused b := by
  apply Op.refused_of_not_isOk
  intro hok
  have ha := exec_ok op hok
  rw [he] at ha
  obtain ⟨w, hw, rfl⟩ := List.mem_map.mp hk
  have hle : ∀ t ∈ dom (b.history w.key), t ≤ startTs := by
    -- an intent is above all versions, and a free key has none above `startTs`
    rcases Locks.here ha with ⟨hheld, -⟩ | hnew
    · obtain ⟨i, hi, ⟨-, rfl⟩, -⟩ := hheld w hw
      exact hb.covers w.key i hi
    · exact (hnew w hw).1.2
  exact absurd hlt (hreach.le hle).not_gt

/-- Nor can an intent at `startTs` be committed on it. -/
theorem commit_refused {c : Timestamp} {keys : List Key} (hb : LockInv b)
    (hreach : Reaches b k commitTs) (hlt : startTs < commitTs)
    (he : op.effect = .commit txnId startTs c keys) (hk : k ∈ keys) : op.Refused b := by
  apply Op.refused_of_not_isOk
  intro hok
  have ha := exec_ok op hok
  rw [he] at ha
  obtain ⟨i, hi, ⟨-, rfl⟩, -⟩ := Commits.committable ha k hk
  exact absurd hlt (hreach.le (hb.covers k i hi)).not_gt

/-- A prewrite of intents that are all held. -/
theorem lock_idle {ws : List PhysicalWrite} {b₀ : InMemoryBackend}
    (hok : (op.exec b₀).1.isOk = true) (he : op.effect = .lock txnId startTs ws)
    (hheld : ∀ w ∈ ws, Held b txnId startTs w) : op.Idle b := by
  cases op with
  | prewrite T s key m =>
    cases he
    have hrun : (prewrite txnId startTs key m).run b = (.ok (), b) :=
      prewrite_ok.mpr (.inl ⟨hheld _ List.mem_cons_self, rfl⟩)
    exact Op.idle_of_exec (congrArg (Prod.map Result.prewrite id) hrun) rfl
  | prewriteBatch T s ws =>
    cases he
    obtain ⟨⟨⟩, hrun₀⟩ := run_of_isOk (prewriteBatch txnId startTs ws) hok
    obtain ⟨hne, hnd, -⟩ := prewriteBatch_ok.mp hrun₀
    have hrun : (prewriteBatch txnId startTs ws).run b = (.ok (), b) :=
      prewriteBatch_ok.mpr ⟨hne, hnd, .inl ⟨hheld, rfl⟩⟩
    exact Op.idle_of_exec (congrArg (Prod.map Result.prewriteBatch id) hrun) rfl
  | _ => cases he

/-- An abort where nothing matches. -/
theorem release_idle {keys : List Key} (he : op.effect = .release txnId startTs keys)
    (hnd : keys.Nodup)
    (hnone : ∀ k ∈ keys, ∀ i, b.getIntent k = some i → ¬ i.heldBy txnId startTs) : op.Idle b := by
  cases op with
  | abort T key s =>
    cases he
    refine ⟨rfl, ?_⟩
    show (b.removeIntent key txnId startTs).2 = b
    rw [InMemoryBackend.removeIntent_eq, if_neg]
    rintro ⟨i, hi, hheld⟩
    exact hnone key List.mem_cons_self i hi hheld
  | abortBatch T s keys =>
    cases he
    have hfilter : (keys.filter fun k => (b.getIntent k).any
        (fun i => i.txnId = txnId ∧ i.startTs = startTs)) = [] := by
      refine List.filter_eq_nil_iff.mpr ?_
      intro k hk
      cases hi : b.getIntent k with
      | none => simp
      | some i => simpa [Intent.heldBy] using hnone k hk i hi
    have hrun : (abortBatch txnId startTs keys).run b = (.ok (), b) := by
      refine abortBatch_ok.mpr ⟨hnd, ?_⟩
      rw [hfilter]
      rfl
    exact Op.idle_of_exec (congrArg (Prod.map Result.abortBatch id) hrun) rfl
  | _ => cases he

end

/-- An operation `op` of a run, submitted again after `mid`. (a) A write that
succeeded is refused. (b) After the commit of an intent at `startTs`, every
prewrite at `startTs` of its key and every further commit is refused. (c) A
prewrite whose intents are all as it left them is idle. (d) So is an abort that
finds none of its intents. -/
theorem late_duplicates (pre mid : List Op) (op : Op) (hgc : ∀ o ∈ mid, o.NonCollapsing) :
    ((op.exec (stateAfter pre)).1.isOk = true → (∃ c, op.effect.WritesAt c) →
      op.Refused (stateAfter (pre ++ op :: mid))) ∧
    (∀ txnId startTs commitTs keys k, (op.exec (stateAfter pre)).1.isOk = true →
      op.effect = .commit txnId startTs commitTs keys → k ∈ keys → ∀ op' : Op,
      ((∃ txnId' ws, op'.effect = .lock txnId' startTs ws ∧ k ∈ ws.map (·.key)) ∨
        ∃ txnId' c' keys', op'.effect = .commit txnId' startTs c' keys' ∧ k ∈ keys') →
      op'.Refused (stateAfter (pre ++ op :: mid))) ∧
    (∀ txnId startTs ws, (op.exec (stateAfter pre)).1.isOk = true →
      op.effect = .lock txnId startTs ws →
      (∀ w ∈ ws, (stateAfter (pre ++ op :: mid)).getIntent w.key =
        (stateAfter (pre ++ [op])).getIntent w.key) →
      op.Idle (stateAfter (pre ++ op :: mid))) ∧
    (∀ txnId startTs keys, op.effect = .release txnId startTs keys → keys.Nodup →
      (∀ k ∈ keys, ∀ i, (stateAfter (pre ++ op :: mid)).getIntent k = some i →
        ¬ i.heldBy txnId startTs) →
      op.Idle (stateAfter (pre ++ op :: mid))) := by
  have hend : stateAfter (pre ++ op :: mid) =
      final Op.exec (op.exec (stateAfter pre)).2 mid := stateAfter_append pre (op :: mid)
  have hreach : ∀ k c, Wrote (stepOf Op.exec (stateAfter pre) op) k c →
      Reaches (stateAfter (pre ++ op :: mid)) k c := by
    intro k c hw
    rw [hend]
    exact Reaches.run hgc hw.reaches
  have hinv := lockInv_stateAfter (pre ++ op :: mid)
  refine ⟨?_, ?_, ?_, ?_⟩
  · rintro hok ⟨c, hc⟩
    obtain ⟨k, hw⟩ := exists_wrote hok hc
    apply Op.refused_of_not_isOk
    intro hagain
    exact lt_irrefl c ((hreach k c hw).lt (hw.again hagain).spec.1)
  · intro txnId startTs commitTs keys k hok he hk op' hop'
    have hw : Wrote (stepOf Op.exec (stateAfter pre) op) k commitTs :=
      ⟨hok, .inl ⟨txnId, startTs, keys, he, hk⟩⟩
    have ha := exec_ok op hok
    rw [he] at ha
    have hlt : startTs < commitTs := Commits.later ha
    rcases hop' with ⟨txnId', ws, he', hk'⟩ | ⟨txnId', c', keys', he', hk'⟩
    · exact lock_refused hinv (hreach k commitTs hw) hlt he' hk'
    · exact commit_refused hinv (hreach k commitTs hw) hlt he' hk'
  · intro txnId startTs ws hok he hsame
    refine lock_idle hok he ?_
    intro w hw
    have ha := exec_ok op hok
    rw [he] at ha
    obtain ⟨i, hi, hheld⟩ := Locks.held ha hw
    refine ⟨i, ?_, hheld⟩
    rw [hsame w hw, stateAfter_append]
    exact hi
  · exact fun txnId startTs keys he hnd hnone => release_idle he hnd hnone

/-- A commit, submitted again after a collection, and the prewrite before it. -/
theorem late_duplicates_commit :
    let b := stateAfter [.prewrite 1 3 [1] (.put [7]), .commit 1 [1] 3 4,
      .applyDirectBatch 6 [⟨[1], none⟩], .gc 9 6 ⟨⟨4, 4⟩, false⟩]
    (Op.commit 1 [1] 3 4).Refused b ∧ (Op.prewrite 1 3 [1] (.put [7])).Refused b := by
  intro b
  have hdup := late_duplicates [.prewrite 1 3 [1] (.put [7])]
    [.applyDirectBatch 6 [⟨[1], none⟩], .gc 9 6 ⟨⟨4, 4⟩, false⟩] (.commit 1 [1] 3 4) (by decide)
  have hok : ((Op.commit 1 [1] 3 4).exec (stateAfter [.prewrite 1 3 [1] (.put [7])])).1.isOk = true := by
    decide +kernel
  refine ⟨hdup.1 hok ⟨4, rfl⟩, ?_⟩
  exact hdup.2.1 1 3 4 [[1]] [1] hok rfl (by simp) _ (.inl ⟨1, _, rfl, by simp⟩)

end NexirMvcc
