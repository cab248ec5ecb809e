import NexirMvcc.Runs

/- What the answer of an operation depends on. A write path looks at the intents
   of its keys, at their latest timestamps as far as these are not below its own
   timestamp, and for a guard at the version visible to it. Two states that agree
   there give the same answer, down to the error value. -/
namespace NexirMvcc
open VersionHistory CallTree

/-- The two states have the same intent on `key`, and the same latest timestamp if
it is at or above `ts` in one of them. -/
structure SameFrom (ts : Timestamp) (key : Key) (b b' : InMemoryBackend) : Prop where
  intent : b.getIntent key = b'.getIntent key
  latest : ∀ t, ts ≤ t → (b.getLatestCommitTs key = some t ↔ b'.getLatestCommitTs key = some t)

/-- The two states have the same intent on `key`, and if it has none they agree on
its latest timestamp from `ts` on. -/
structure SameUnlocked (ts : Timestamp) (key : Key) (b b' : InMemoryBackend) : Prop where
  intent : b.getIntent key = b'.getIntent key
  free : b.getIntent key = none → SameFrom ts key b b'

section
variable {ε α β : Type} {b b' : InMemoryBackend} {key : Key} {ts : Timestamp}

theorem SameFrom.unlocked (h : SameFrom ts key b b') : SameUnlocked ts key b b' :=
  ⟨h.intent, fun _ => h⟩

theorem SameFrom.filter_eq (h : SameFrom ts key b b') {p : Timestamp → Bool}
    (hp : ∀ t, p t = true → ts ≤ t) :
    (b.getLatestCommitTs key).filter p = (b'.getLatestCommitTs key).filter p := by
  apply Option.ext
  intro t
  simp only [Option.filter_eq_some_iff]
  constructor
  · rintro ⟨hl, hpt⟩
    exact ⟨(h.latest t (hp t hpt)).mp hl, hpt⟩
  · rintro ⟨hl, hpt⟩
    exact ⟨(h.latest t (hp t hpt)).mpr hl, hpt⟩

theorem SameFrom.filter_le (h : SameFrom ts key b b') :
    (b.getLatestCommitTs key).filter (ts ≤ ·) = (b'.getLatestCommitTs key).filter (ts ≤ ·) :=
  h.filter_eq fun _ ht => of_decide_eq_true ht

theorem SameFrom.filter_lt (h : SameFrom ts key b b') :
    (b.getLatestCommitTs key).filter (ts < ·) = (b'.getLatestCommitTs key).filter (ts < ·) :=
  h.filter_eq fun _ ht => (of_decide_eq_true ht).le

theorem SameFrom.any_lt (h : SameFrom ts key b b') :
    (b.getLatestCommitTs key).any (ts < ·) = (b'.getLatestCommitTs key).any (ts < ·) := by
  have hany : ∀ o : Option Timestamp, o.any (ts < ·) = (o.filter (ts < ·)).isSome := by
    intro o
    cases o with
    | none => rfl
    | some t => by_cases ht : ts < t <;> simp [Option.filter_some, ht]
  rw [hany, hany, h.filter_lt]

/-- A reading part that answers alike, followed by a part that does. -/
theorem run_bind_congr {p : Engine ε α} {f : α → Engine ε β} (hp : ReadOnly BackendCall.mutates p)
    (h : (p.run b).1 = (p.run b').1) (hf : ∀ a, ((f a).run b).1 = ((f a).run b').1) :
    ((p >>= f).run b).1 = ((p >>= f).run b').1 := by
  have hb : (p.run b).2 = b := run_readOnly hp
  have hb' : (p.run b').2 = b' := run_readOnly hp
  rw [run_bind, run_bind]
  rcases hr : p.run b with ⟨r, s⟩
  rcases hr' : p.run b' with ⟨r', s'⟩
  rw [hr] at h hb
  rw [hr'] at h hb'
  obtain rfl : r = r' := h
  obtain rfl : s = b := hb
  obtain rfl : s' = b' := hb'
  cases r with
  | ok a => exact hf a
  | error e => rfl

theorem rejectDuplicates_congr {keys : List Key} {e : Key → ε} {p : Engine ε α}
    (h : (p.run b).1 = (p.run b').1) :
    ((rejectDuplicates keys e p).run b).1 = ((rejectDuplicates keys e p).run b').1 := by
  unfold rejectDuplicates
  cases firstDuplicate [] keys with
  | some k => rfl
  | none => exact h

end

section Operations
variable {b b' : InMemoryBackend} {txnId : TxnId} {startTs commitTs : Timestamp}

theorem prewrite_congr {key : Key} {m : Mutation} (h : SameUnlocked startTs key b b') :
    ((prewrite txnId startTs key m).run b).1 = ((prewrite txnId startTs key m).run b').1 := by
  unfold prewrite
  rw [run_getIntent, run_getIntent, ← h.intent]
  cases hi : b.getIntent key with
  | some i =>
    dsimp only
    split
    · rfl
    · split
      · rfl
      · split <;> rfl
  | none =>
    dsimp only
    rw [run_getLatestCommitTs, run_getLatestCommitTs, (h.free hi).any_lt]
    split <;> rfl

theorem commit_congr {key : Key} (h : SameFrom commitTs key b b') :
    ((commit txnId key startTs commitTs).run b).1 =
      ((commit txnId key startTs commitTs).run b').1 := by
  unfold commit
  rw [run_getIntent, run_getIntent, ← h.intent]
  cases b.getIntent key with
  | none => rfl
  | some i =>
    dsimp only
    split
    · rfl
    · split
      · rfl
      · split
        · rfl
        · split
          · rfl
          · rw [run_getLatestCommitTs, run_getLatestCommitTs, h.filter_le]
            split
            · split <;> rfl
            · rfl

theorem countExisting_congr {ws : List PhysicalWrite} {n : Nat}
    (h : ∀ w ∈ ws, SameUnlocked startTs w.key b b') :
    ((countExisting txnId startTs ws n).run b).1 = ((countExisting txnId startTs ws n).run b').1 := by
  induction ws generalizing n with
  | nil => rfl
  | cons w ws ih =>
    obtain ⟨hw, hws⟩ := List.forall_mem_cons.mp h
    unfold countExisting
    rw [run_getIntent, run_getIntent, ← hw.intent]
    cases hi : b.getIntent w.key with
    | some i =>
      dsimp only
      split
      · rfl
      · split
        · rfl
        · exact ih hws
    | none =>
      dsimp only
      rw [run_getLatestCommitTs, run_getLatestCommitTs, (hw.free hi).any_lt]
      split
      · rfl
      · exact ih hws

theorem prewriteBatch_congr {ws : List PhysicalWrite}
    (h : ∀ w ∈ ws, SameUnlocked startTs w.key b b') :
    ((prewriteBatch txnId startTs ws).run b).1 = ((prewriteBatch txnId startTs ws).run b').1 := by
  unfold prewriteBatch
  split
  · rfl
  · apply rejectDuplicates_congr
    refine run_bind_congr (readOnly_countExisting _ _ _ _) (countExisting_congr h) ?_
    intro n
    split
    · rfl
    · split <;> rfl

theorem collectCommits_congr {keys : List Key} (h : ∀ k ∈ keys, SameFrom commitTs k b b') :
    ((collectCommits txnId startTs commitTs keys).run b).1 =
      ((collectCommits txnId startTs commitTs keys).run b').1 := by
  induction keys with
  | nil => rfl
  | cons k keys ih =>
    obtain ⟨hk, hks⟩ := List.forall_mem_cons.mp h
    unfold collectCommits
    rw [run_getIntent, run_getIntent, ← hk.intent]
    cases b.getIntent k with
    | none => rfl
    | some i =>
      dsimp only
      split
      · rfl
      · split
        · rfl
        · split
          · rfl
          · rw [run_getLatestCommitTs, run_getLatestCommitTs, hk.filter_le]
            split
            · rfl
            · exact run_bind_congr (readOnly_collectCommits _ _ _ _) (ih hks) fun _ => rfl

theorem commitBatch_congr {keys : List Key} (h : ∀ k ∈ keys, SameFrom commitTs k b b') :
    ((commitBatch txnId startTs commitTs keys).run b).1 =
      ((commitBatch txnId startTs commitTs keys).run b').1 := by
  unfold commitBatch
  split
  · rfl
  · apply rejectDuplicates_congr
    split
    · rfl
    · exact run_bind_congr (readOnly_collectCommits _ _ _ _) (collectCommits_congr h) fun _ => rfl

theorem abortBatch_congr {keys : List Key} :
    ((abortBatch txnId startTs keys).run b).1 = ((abortBatch txnId startTs keys).run b').1 := by
  unfold abortBatch
  split
  · rfl
  · apply rejectDuplicates_congr
    rw [run_bind, run_bind, collectAborts_run, collectAborts_run]
    rfl

theorem checkWrites_congr {ws : List PhysicalWrite} (h : ∀ w ∈ ws, SameFrom commitTs w.key b b') :
    ((checkWrites commitTs ws).run b).1 = ((checkWrites commitTs ws).run b').1 := by
  induction ws with
  | nil => rfl
  | cons w ws ih =>
    obtain ⟨hw, hws⟩ := List.forall_mem_cons.mp h
    unfold checkWrites
    rw [run_getIntent, run_getIntent, ← hw.intent]
    cases b.getIntent w.key with
    | some i => rfl
    | none =>
      dsimp only
      rw [run_getLatestCommitTs, run_getLatestCommitTs, hw.filter_le]
      split
      · rfl
      · exact ih hws

theorem applyDirectBatch_congr {ws : List PhysicalWrite}
    (h : ∀ w ∈ ws, SameFrom commitTs w.key b b') :
    ((applyDirectBatch commitTs ws).run b).1 = ((applyDirectBatch commitTs ws).run b').1 := by
  unfold applyDirectBatch
  split
  · rfl
  · apply rejectDuplicates_congr
    exact run_bind_congr (readOnly_checkWrites _ _) (checkWrites_congr h) fun _ => rfl

/-- A guard passes or fails alike in the two states. -/
structure SameGuard (g : ReadGuard) (b b' : InMemoryBackend) : Prop where
  same : SameFrom g.readTs g.key b b'
  verdict : (∀ t ∈ dom (b.history g.key), t ≤ g.readTs) →
    g.verdict (b.getVisibleCommitted g.key g.readTs) =
      g.verdict (b'.getVisibleCommitted g.key g.readTs)

theorem checkGuards_congr {gs : List ReadGuard} (h : ∀ g ∈ gs, SameGuard g b b') :
    ((checkGuards commitTs gs).run b).1 = ((checkGuards commitTs gs).run b').1 := by
  induction gs with
  | nil => rfl
  | cons g gs ih =>
    obtain ⟨hg, hgs⟩ := List.forall_mem_cons.mp h
    unfold checkGuards
    split
    · rfl
    · rw [run_getIntent, run_getIntent, ← hg.same.intent]
      cases b.getIntent g.key with
      | some i => rfl
      | none =>
        dsimp only
        rw [run_getLatestCommitTs, run_getLatestCommitTs, ← hg.same.filter_lt]
        split
        · rfl
        · next hnone =>
          rw [run_getVisibleCommitted, run_getVisibleCommitted,
            ← hg.verdict (latest_filter_lt.mp hnone)]
          split
          · rfl
          · exact ih hgs

theorem applyGuardedBatch_congr {gs : List ReadGuard} {ws : List PhysicalWrite}
    (hg : ∀ g ∈ gs, SameGuard g b b') (hw : ∀ w ∈ ws, SameFrom commitTs w.key b b') :
    ((applyGuardedBatch commitTs gs ws).run b).1 =
      ((applyGuardedBatch commitTs gs ws).run b').1 := by
  unfold applyGuardedBatch
  split
  · rfl
  · split
    · rfl
    · apply rejectDuplicates_congr
      refine run_bind_congr (readOnly_checkGuards _ _) (checkGuards_congr hg) fun _ => ?_
      exact run_bind_congr (readOnly_checkWrites _ _) (checkWrites_congr hw) fun _ => rfl

end Operations

/-! Mutations. -/

/-- The operations that write: all but reads and collections. -/
def Op.isMutation : Op → Bool
  | .prewrite _ _ _ _ => true
  | .commit _ _ _ _ => true
  | .abort _ _ _ => true
  | .prewriteBatch _ _ _ => true
  | .commitBatch _ _ _ _ => true
  | .abortBatch _ _ _ => true
  | .applyDirectBatch _ _ => true
  | .applyGuardedBatch _ _ _ => true
  | _ => false

/-- The states agree on all that the effect looks at. -/
def Effect.Agrees (b b' : InMemoryBackend) : Effect → Prop
  | .lock _ startTs ws => ∀ w ∈ ws, SameUnlocked startTs w.key b b'
  | .commit _ _ commitTs keys => ∀ k ∈ keys, SameFrom commitTs k b b'
  | .write commitTs gs ws =>
    (∀ g ∈ gs, SameGuard g b b') ∧ ∀ w ∈ ws, SameFrom commitTs w.key b b'
  | _ => True

/-- Then a mutation answers alike in both. -/
theorem exec_congr {op : Op} {b b' : InMemoryBackend} (hop : op.isMutation = true)
    (h : op.effect.Agrees b b') : (op.exec b).1 = (op.exec b').1 := by
  cases op with
  | prewrite txnId startTs key m =>
    exact congrArg Result.prewrite (prewrite_congr (h _ List.mem_cons_self))
  | commit txnId key startTs commitTs =>
    exact congrArg Result.commit (commit_congr (h _ List.mem_cons_self))
  | abort txnId key startTs => rfl
  | prewriteBatch txnId startTs ws => exact congrArg Result.prewriteBatch (prewriteBatch_congr h)
  | commitBatch txnId startTs commitTs keys =>
    exact congrArg Result.commitBatch (commitBatch_congr h)
  | abortBatch txnId startTs keys => exact congrArg Result.abortBatch abortBatch_congr
  | applyDirectBatch commitTs ws => exact congrArg Result.applyBatch (applyDirectBatch_congr h.2)
  | applyGuardedBatch commitTs gs ws =>
    exact congrArg Result.applyBatch (applyGuardedBatch_congr h.1 h.2)
  | _ => cases hop

end NexirMvcc
