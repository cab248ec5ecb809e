import NexirMvcc.Intents
import NexirMvcc.Snapshots

/- Locks exclude. From the step that locks a key for a transaction up to the step that
   commits or aborts it there, whatever else is run in between, the key belongs to the
   transaction: no version is added to it, and no operation succeeds that would lock or
   commit it for another transaction, write it, or rest a guard on it. -/
namespace NexirMvcc
open VersionHistory StepRun

/-- The effect needs `key` free, or locked for another transaction than `(txnId, startTs)`. -/
def Effect.Claims (txnId : TxnId) (startTs : Timestamp) (key : Key) : Effect → Prop
  | .lock txnId' startTs' writes => (txnId', startTs') ≠ (txnId, startTs) ∧ key ∈ writes.map (·.key)
  | .commit txnId' startTs' _ keys => (txnId', startTs') ≠ (txnId, startTs) ∧ key ∈ keys
  | .write _ guards writes => key ∈ writes.map (·.key) ∨ ∃ g ∈ guards, g.key = key
  | _ => False

section Held
variable {b : InMemoryBackend} {txnId : TxnId} {startTs : Timestamp} {w : PhysicalWrite}

theorem Held.not_free (h : Held b txnId startTs w) : b.getIntent w.key ≠ none := by
  obtain ⟨i, hi, -⟩ := h
  rw [hi]
  exact Option.some_ne_none i

/-- Two transactions cannot hold the same key. -/
theorem Held.unique (h : Held b txnId startTs w) {i : Intent} (hi : b.getIntent w.key = some i)
    {txnId' : TxnId} {startTs' : Timestamp} (hheld : i.heldBy txnId' startTs') :
    (txnId', startTs') = (txnId, startTs) := by
  obtain ⟨j, hj, ⟨rfl, rfl⟩, -⟩ := h
  obtain ⟨rfl, rfl⟩ := hheld
  rw [Option.some.inj (hi.symm.trans hj)]

/-- A step that does not resolve a held intent adds no version to its key. -/
theorem Held.frozen (op : Op) (h : Held b txnId startTs w)
    (hr : ¬ Resolves (stepOf Op.exec b op) txnId startTs w.key) {t : Timestamp} {v : Option Value}
    (hv : (op.exec b).2.history w.key t = some v) : b.history w.key t = some v := by
  have hsame : ∀ b' : InMemoryBackend, b'.history w.key = b.history w.key →
      b'.history w.key t = some v → b.history w.key t = some v := fun b' hb hv => hb ▸ hv
  refine exec_elim (P := fun b' => b'.history w.key t = some v → b.history w.key t = some v)
    op b id ?_ ?_ ?_ ?_ ?_ hv
  · exact fun txnId' startTs' ws b' _ _ hl => hsame b' (hl.histories w.key)
  · intro txnId' startTs' commitTs keys b' hok he hc
    refine hsame b' (hc.off w.key fun hk => ?_).2
    -- only the holder can commit the key
    obtain ⟨i, hi, hheld, -⟩ := hc.committable w.key hk
    have hown := h.unique hi hheld
    cases hown
    exact hr ⟨hok, .inl ⟨commitTs, keys, he, hk⟩⟩
  · exact fun txnId' startTs' keys b' _ _ hrel => hsame b' (hrel.histories w.key)
  · intro commitTs guards ws b' _ _ hw
    refine hsame b' (hw.off w.key fun hk => ?_)
    obtain ⟨w', hw', he⟩ := List.mem_map.mp hk
    have hnone := (hw.writable w' hw').1
    rw [he] at hnone
    exact h.not_free hnone
  · exact fun sp options b' _ hs _ hv => hs.sub w.key t v hv

/-- Nor does a run that never resolves it. -/
theorem Held.frozen_run {mid : List Op} (h : Held b txnId startTs w)
    (hr : ∀ x ∈ trace Op.exec b mid, ¬ Resolves x txnId startTs w.key) {t : Timestamp}
    {v : Option Value} (hv : (final Op.exec b mid).history w.key t = some v) :
    b.history w.key t = some v := by
  induction mid generalizing b with
  | nil => exact hv
  | cons op mid ih =>
    obtain ⟨hop, hmid⟩ := List.forall_mem_cons.mp hr
    exact h.frozen op hop (ih (h.step op hop) hmid hv)

/-- What claims a held key for another fails. -/
theorem Held.refuses (h : Held b txnId startTs w) {op : Op}
    (hc : op.effect.Claims txnId startTs w.key) : (op.exec b).1.isOk = false := by
  cases hok : (op.exec b).1.isOk with
  | false => rfl
  | true =>
    have ha := exec_ok op hok
    cases he : op.effect with
    | lock txnId' startTs' ws =>
      rw [he] at hc ha
      obtain ⟨hne, hk⟩ := hc
      have ha : Locks b _ txnId' startTs' ws := ha
      obtain ⟨w', hw', hkey⟩ := List.mem_map.mp hk
      rcases ha.here with ⟨hheld, -⟩ | hnew
      · obtain ⟨i, hi, hown, -⟩ := hheld w' hw'
        rw [hkey] at hi
        exact absurd (h.unique hi hown) hne
      · have hnone := (hnew w' hw').1.1
        rw [hkey] at hnone
        exact absurd hnone h.not_free
    | commit txnId' startTs' commitTs keys =>
      rw [he] at hc ha
      have ha : Commits b _ txnId' startTs' commitTs keys := ha
      obtain ⟨i, hi, hown, -⟩ := ha.committable w.key hc.2
      exact absurd (h.unique hi hown) hc.1
    | write commitTs guards ws =>
      rw [he] at hc ha
      have ha : Writes b _ commitTs guards ws := ha
      have hnone : b.getIntent w.key = none := by
        rcases hc with hk | ⟨g, hg, hkey⟩
        · obtain ⟨w', hw', hkey⟩ := List.mem_map.mp hk
          exact hkey ▸ (ha.writable w' hw').1
        · exact hkey ▸ (ha.guards g hg).2.1
      exact absurd hnone h.not_free
    | none => rw [he] at hc; cases hc
    | release txnId startTs keys => rw [he] at hc; cases hc
    | collect sp options => rw [he] at hc; cases hc

end Held

/-- Mutual exclusion: after a step that locks a key, and as long as its transaction does
not commit or abort it there, the key gets no new version and nothing succeeds that
claims it for another. -/
theorem locks_exclude {pre mid : List Op} {op : Op} {txnId : TxnId} {startTs : Timestamp}
    {ws : List PhysicalWrite} {w : PhysicalWrite} (he : op.effect = .lock txnId startTs ws) (hw : w ∈ ws)
    (hok : (op.exec (stateAfter pre)).1.isOk = true)
    (hmid : ∀ x ∈ trace Op.exec (stateAfter (pre ++ [op])) mid, ¬ Resolves x txnId startTs w.key) :
    (∀ t v, (stateAfter (pre ++ [op] ++ mid)).history w.key t = some v →
      (stateAfter pre).history w.key t = some v) ∧
    ∀ op' : Op, op'.effect.Claims txnId startTs w.key →
      (op'.exec (stateAfter (pre ++ [op] ++ mid))).1.isOk = false := by
  have hafter : stateAfter (pre ++ [op]) = (op.exec (stateAfter pre)).2 := stateAfter_append pre [op]
  have hlocks := exec_ok op hok
  rw [he, ← hafter] at hlocks
  have hlocks : Locks (stateAfter pre) (stateAfter (pre ++ [op])) txnId startTs ws := hlocks
  have hheld : Held (stateAfter (pre ++ [op])) txnId startTs w := hlocks.held hw
  rw [stateAfter_append (pre ++ [op]) mid]
  refine ⟨fun t v hv => ?_, fun op' hc => (hheld.run hmid).refuses hc⟩
  rw [← hlocks.histories w.key]
  exact hheld.frozen_run hmid hv

/-- Another transaction, an abort of its own and a collection do not free the key. -/
theorem locks_exclude_other_transaction :
    let ops : List Op := [.applyDirectBatch 1 [⟨[1], some [5]⟩], .prewrite 7 2 [1] (.put [6]),
      .prewrite 8 3 [1] .delete, .abort 8 [1] 3, .gc 9 4 ⟨⟨3, 3⟩, true⟩]
    ((Op.applyGuardedBatch 9 [.expectedVersion [1] 8 (some 1)] [⟨[2], some [6]⟩]).exec
      (stateAfter ops)).1.isOk = false := by
  intro ops
  have hlock : ((Op.prewrite 7 2 [1] (.put [6])).exec (stateAfter (ops.take 1))).1.isOk = true := by
    decide +kernel
  have hmid : ∀ x ∈ trace Op.exec (stateAfter (ops.take 2)) (ops.drop 2), ¬ Resolves x 7 2 [1] := by
    simp only [ops, List.drop, trace, List.forall_mem_cons, Resolves]
    refine ⟨?_, ?_, ?_, by simp⟩ <;>
      rintro ⟨-, ⟨commitTs, keys, he, -⟩ | ⟨keys, he, -⟩⟩ <;> cases he
  have hclaims : (Op.applyGuardedBatch 9 [.expectedVersion [1] 8 (some 1)] [⟨[2], some [6]⟩]).effect.Claims
      7 2 [1] := .inr ⟨_, List.mem_singleton_self _, rfl⟩
  exact (locks_exclude (w := ⟨[1], some [6]⟩) rfl (List.mem_singleton_self _) hlock hmid).2 _ hclaims

end NexirMvcc
