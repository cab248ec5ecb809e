import NexirMvcc.Atomicity

/- The operations on the in-memory backend: exactly when each succeeds and the
   state it then leaves. An operation that fails leaves the state as it was
   (`run_error_unchanged`), so these equivalences say everything about the state.

   `Held` and `Free` are the two ways a prewrite finds a key, `Committable` is
   what a commit asks of one, `Writable` what a direct write asks, and
   `ReadGuard.Holds` what a guard asks. -/
namespace NexirMvcc
open VersionHistory CallTree

section Run
variable {ε α β : Type} {wrap : String → ε} {b : InMemoryBackend}

@[simp] theorem run_pure (a : α) : (pure a : Engine ε α).run b = (.ok a, b) := rfl

@[simp] theorem run_throw (e : ε) : (throw e : Engine ε α).run b = (.error e, b) := rfl

@[simp] theorem run_getIntent {key : Key} {f : Option Intent → Engine ε α} :
    (backend (.getIntent key) wrap >>= f).run b = (f (b.getIntent key)).run b := rfl

@[simp] theorem run_getLatestCommitTs {key : Key} {f : Option Timestamp → Engine ε α} :
    (backend (.getLatestCommitTs key) wrap >>= f).run b = (f (b.getLatestCommitTs key)).run b := rfl

@[simp] theorem run_getVisibleCommitted {key : Key} {r : Timestamp}
    {f : Option CommittedVersion → Engine ε α} :
    (backend (.getVisibleCommitted key r) wrap >>= f).run b =
      (f (b.getVisibleCommitted key r)).run b := rfl

theorem run_bind (p : Engine ε α) (f : α → Engine ε β) :
    (p >>= f).run b = match p.run b with
      | (.ok a, b') => (f a).run b'
      | (.error e, b') => (.error e, b') := by
  unfold Engine.run
  rw [eval_bind]
  rcases eval memCall p b with ⟨r, b'⟩
  cases r <;> rfl

/-- A tree that only reads leaves the state as it was. -/
theorem run_readOnly {p : Engine ε α} (hp : ReadOnly BackendCall.mutates p) : (p.run b).2 = b := by
  unfold Engine.run
  induction p generalizing b with
  | ret r => rfl
  | call c k ih =>
    have hb : (memCall c b).2 = b := memCall_reads hp.1
    show (eval memCall (k (memCall c b).1) (memCall c b).2).2 = b
    rw [hb]
    exact ih _ (hp.2 _)

/-- Sequencing after a reading part, when the whole succeeds. -/
theorem run_bind_readOnly {p : Engine ε α} (hp : ReadOnly BackendCall.mutates p)
    {f : α → Engine ε β} {v : β} {b' : InMemoryBackend} :
    (p >>= f).run b = (.ok v, b') ↔ ∃ a, (p.run b).1 = .ok a ∧ (f a).run b = (.ok v, b') := by
  have hb : (p.run b).2 = b := run_readOnly hp
  rw [run_bind]
  generalize p.run b = x at hb ⊢
  obtain ⟨r, b₁⟩ := x
  cases hb
  cases r <;> simp

end Run

/-! Reads. -/

section Reads
variable {b b' : InMemoryBackend} {key : Key} {r : Timestamp}

@[simp] theorem read_run :
    (read key r).run b = (.ok ((b.getVisibleCommitted key r).bind (·.value)), b) := rfl

@[simp] theorem readWithVersion_run :
    (readWithVersion key r).run b =
      (.ok ((b.getVisibleCommitted key r).map fun v => (v.commitTs, v.value)), b) := rfl

/-- What is read is the value of the visible version. -/
theorem read_ok {x : Option Value} :
    (read key r).run b = (.ok x, b) ↔ Reads (b.history key) r x := by
  have hreads : Reads (b.history key) r ((b.getVisibleCommitted key r).bind (·.value)) := by
    cases hv : b.getVisibleCommitted key r with
    | some v =>
      obtain ⟨-, hvis, hval⟩ := InMemoryBackend.getVisibleCommitted_eq_some.mp hv
      exact .inl ⟨v.commitTs, hvis, hval⟩
    | none => exact .inr ⟨InMemoryBackend.getVisibleCommitted_eq_none.mp hv, rfl⟩
  rw [read_run]
  constructor
  · intro h
    cases h
    exact hreads
  · intro h
    rw [h.unique hreads]

/-- A lookup depends only on which version is visible, and its value. -/
theorem getVisibleCommitted_congr
    (hvis : ∀ t, Visible (b.history key) r t ↔ Visible (b'.history key) r t)
    (hval : ∀ t, Visible (b.history key) r t → b.history key t = b'.history key t) :
    b.getVisibleCommitted key r = b'.getVisibleCommitted key r := by
  apply Option.ext
  intro v
  rw [InMemoryBackend.getVisibleCommitted_eq_some, InMemoryBackend.getVisibleCommitted_eq_some, ← hvis]
  refine and_congr_right fun _ => and_congr_right fun hv => ?_
  rw [hval _ hv]

theorem getVisibleCommitted_of_le (h : ∀ t ≤ r, b.history key t = b'.history key t) :
    b.getVisibleCommitted key r = b'.getVisibleCommitted key r :=
  getVisibleCommitted_congr (fun _ => visible_congr h) fun t ht => h t ht.1.2

theorem getVisibleCommitted_of_history (h : b.history key = b'.history key) :
    b.getVisibleCommitted key r = b'.getVisibleCommitted key r :=
  getVisibleCommitted_of_le fun _ _ => by rw [h]

end Reads

theorem filter_none_iff {o : Option Timestamp} {p : Timestamp → Bool} :
    o.filter p = none ↔ ∀ t, o = some t → p t = false := by
  cases o <;> simp [Option.filter_some]

theorem firstDuplicate_eq_none {seen keys : List Key} :
    firstDuplicate seen keys = none ↔ keys.Nodup ∧ ∀ k ∈ keys, k ∉ seen := by
  induction keys generalizing seen with
  | nil => simp [firstDuplicate]
  | cons k keys ih =>
    unfold firstDuplicate
    split
    · next h => simp [h]
    · next h =>
      rw [ih, List.nodup_cons]
      constructor
      · rintro ⟨hnd, hk⟩
        refine ⟨⟨fun hm => hk k hm List.mem_cons_self, hnd⟩, ?_⟩
        intro k' hk'
        rcases List.mem_cons.mp hk' with rfl | hk'
        · exact h
        · exact fun hs => hk k' hk' (List.mem_cons_of_mem k hs)
      · rintro ⟨⟨hnk, hnd⟩, hk⟩
        refine ⟨hnd, ?_⟩
        intro k' hk' hs
        rcases List.mem_cons.mp hs with rfl | hs
        · exact hnk hk'
        · exact hk k' (List.mem_cons_of_mem k hk') hs

section Conditions
variable (b : InMemoryBackend)

/-- The key of the write holds the intent that `(txnId, startTs)` would create. -/
def Held (txnId : TxnId) (startTs : Timestamp) (w : PhysicalWrite) : Prop :=
  ∃ i, b.getIntent w.key = some i ∧ i.heldBy txnId startTs ∧ i.mutation = Mutation.ofValue w.value

/-- The key has no intent and no version above `startTs`. -/
def Free (startTs : Timestamp) (key : Key) : Prop :=
  b.getIntent key = none ∧ ∀ t ∈ dom (b.history key), t ≤ startTs

/-- The key holds an intent of `(txnId, startTs)` that may be committed at `commitTs`. -/
def Committable (txnId : TxnId) (startTs commitTs : Timestamp) (key : Key) : Prop :=
  ∃ i, b.getIntent key = some i ∧ i.heldBy txnId startTs ∧
    (∀ m, i.minCommitTs = some m → m ≤ commitTs) ∧ ∀ t ∈ dom (b.history key), t < commitTs

/-- The version that committing the intent on `key` creates. -/
def commitOf (commitTs : Timestamp) (key : Key) : CommittedVersion :=
  ⟨key, commitTs, (b.getIntent key).bind (·.mutation.value)⟩

/-- The key has no intent and every version is below `commitTs`. -/
def Writable (commitTs : Timestamp) (key : Key) : Prop :=
  b.getIntent key = none ∧ ∀ t ∈ dom (b.history key), t < commitTs

/-- The guard passes at `commitTs`. -/
def ReadGuard.Holds (commitTs : Timestamp) (g : ReadGuard) : Prop :=
  g.readTs < commitTs ∧ b.getIntent g.key = none ∧ (∀ t ∈ dom (b.history g.key), t ≤ g.readTs) ∧
    g.verdict (b.getVisibleCommitted g.key g.readTs) = .ok ()

/-- The intents a batch of writes creates. -/
def intentsOf (txnId : TxnId) (startTs : Timestamp) (writes : List PhysicalWrite) : List Intent :=
  writes.map fun w => ⟨w.key, txnId, startTs, Mutation.ofValue w.value, none⟩

end Conditions

variable {b b' : InMemoryBackend} {txnId : TxnId} {startTs commitTs : Timestamp}

theorem latest_filter_le {key : Key} :
    (b.getLatestCommitTs key).filter (commitTs ≤ ·) = none ↔
      ∀ t ∈ dom (b.history key), t < commitTs := by
  rw [filter_none_iff, ← InMemoryBackend.latest_lt_iff]
  simp

theorem latest_filter_lt {key : Key} :
    (b.getLatestCommitTs key).filter (startTs < ·) = none ↔
      ∀ t ∈ dom (b.history key), t ≤ startTs := by
  rw [filter_none_iff, ← InMemoryBackend.latest_le_iff]
  simp

theorem latest_any {key : Key} :
    (b.getLatestCommitTs key).any (startTs < ·) = false ↔
      ∀ t ∈ dom (b.history key), t ≤ startTs := by
  rw [← InMemoryBackend.latest_le_iff]
  cases b.getLatestCommitTs key <;> simp

theorem Held.isSome {w : PhysicalWrite} (h : Held b txnId startTs w) :
    (b.getIntent w.key).isSome = true := by
  obtain ⟨i, hi, -⟩ := h
  rw [hi, Option.isSome_some]

theorem Free.isSome {key : Key} (h : Free b startTs key) : (b.getIntent key).isSome = false := by
  rw [h.1, Option.isSome_none]

/-- The checks of a prewrite against the intent it finds. -/
theorem held_iff {w : PhysicalWrite} {i : Intent} (hi : b.getIntent w.key = some i) :
    Held b txnId startTs w ↔ i.txnId = txnId ∧ i.startTs = startTs ∧
      i.mutation = Mutation.ofValue w.value := by
  unfold Held Intent.heldBy
  rw [hi]
  simp [and_assoc]

/-- The checks of a commit against the intent it finds. -/
theorem committable_iff {key : Key} {i : Intent} (hi : b.getIntent key = some i) :
    Committable b txnId startTs commitTs key ↔ i.txnId = txnId ∧ i.startTs = startTs ∧
      i.minCommitTs.filter (commitTs < ·) = none ∧
      (b.getLatestCommitTs key).filter (commitTs ≤ ·) = none := by
  unfold Committable Intent.heldBy
  rw [filter_none_iff, latest_filter_le, hi]
  simp [and_assoc]

/-- The version a commit makes of the intent it finds. -/
theorem commitOf_eq {key : Key} {i : Intent} (hi : b.getIntent key = some i) :
    commitOf b commitTs key = ⟨key, commitTs, i.mutation.value⟩ := by
  unfold commitOf
  rw [hi]
  rfl

/-! Single-key operations. -/

theorem prewrite_ok {key : Key} {m : Mutation} :
    (prewrite txnId startTs key m).run b = (.ok (), b') ↔
      (Held b txnId startTs ⟨key, m.value⟩ ∧ b' = b) ∨
      (Free b startTs key ∧ b' = b.putIntent ⟨key, txnId, startTs, m, none⟩) := by
  unfold prewrite Held Free Intent.heldBy
  rw [run_getIntent]
  cases hi : b.getIntent key with
  | some i =>
    by_cases h1 : i.txnId = txnId <;> by_cases h2 : i.startTs = startTs <;>
      by_cases h3 : i.mutation = m <;>
        simp [h1, h2, h3, Mutation.ofValue_value, eq_comm (a := b)]
  | none =>
    dsimp only
    rw [run_getLatestCommitTs, ← latest_any]
    cases hl : (b.getLatestCommitTs key).any (startTs < ·) with
    | true => simp
    | false =>
      simp only [Bool.false_eq_true, if_false]
      show (Except.ok (), b.putIntent _) = _ ↔ _
      simp [eq_comm]

theorem commit_ok {key : Key} :
    (commit txnId key startTs commitTs).run b = (.ok (), b') ↔
      startTs < commitTs ∧ Committable b txnId startTs commitTs key ∧
      b' = b.commitIntentsBatch [commitOf b commitTs key] [(key, txnId, startTs)] := by
  unfold commit
  rw [run_getIntent]
  cases hi : b.getIntent key with
  | none => simp [Committable, hi]
  | some i =>
    rw [committable_iff hi, commitOf_eq hi]
    dsimp only
    by_cases h1 : i.txnId = txnId
    · by_cases h2 : i.startTs = startTs
      · by_cases h3 : commitTs ≤ startTs
        · simp [h1, h2, h3]
        · simp only [h1, h2, h3, ne_eq, not_true_eq_false, if_false, true_and]
          -- too early for the intent, or not above the latest version
          cases i.minCommitTs.filter (commitTs < ·) with
          | some m => simp
          | none =>
            dsimp only
            rw [run_getLatestCommitTs]
            cases (b.getLatestCommitTs key).filter (commitTs ≤ ·) with
            | some t =>
              dsimp only
              split <;> simp
            | none =>
              show (Except.ok (), b.commitIntentsBatch _ _) = _ ↔ _
              simp [lt_of_not_ge h3, eq_comm]
      · simp [h1, h2]
    · simp [h1]

/-! The validation loops of the batches. -/

theorem checkWrites_ok {ws : List PhysicalWrite} :
    ((checkWrites commitTs ws).run b).1 = .ok () ↔ ∀ w ∈ ws, Writable b commitTs w.key := by
  unfold Writable
  induction ws with
  | nil => simp [checkWrites]
  | cons w ws ih =>
    rw [List.forall_mem_cons]
    unfold checkWrites
    rw [run_getIntent]
    cases hi : b.getIntent w.key with
    | some i => simp
    | none =>
      dsimp only
      rw [run_getLatestCommitTs, ← latest_filter_le]
      cases hl : (b.getLatestCommitTs w.key).filter (commitTs ≤ ·) with
      | some t => simp
      | none =>
        dsimp only
        rw [ih]
        simp

theorem checkGuards_ok {gs : List ReadGuard} :
    ((checkGuards commitTs gs).run b).1 = .ok () ↔ ∀ g ∈ gs, g.Holds b commitTs := by
  unfold ReadGuard.Holds
  induction gs with
  | nil => simp [checkGuards]
  | cons g gs ih =>
    rw [List.forall_mem_cons]
    unfold checkGuards
    by_cases hc : commitTs ≤ g.readTs
    · simp [hc]
    · rw [if_neg hc, run_getIntent]
      cases hi : b.getIntent g.key with
      | some i => simp
      | none =>
        dsimp only
        rw [run_getLatestCommitTs, ← latest_filter_lt]
        cases hl : (b.getLatestCommitTs g.key).filter (g.readTs < ·) with
        | some t => simp
        | none =>
          dsimp only
          rw [run_getVisibleCommitted]
          cases hv : g.verdict (b.getVisibleCommitted g.key g.readTs) with
          | error e => simp
          | ok u =>
            dsimp only
            rw [ih]
            simp [lt_of_not_ge hc]

theorem collectCommits_ok {keys : List Key} {vs : List CommittedVersion} :
    ((collectCommits txnId startTs commitTs keys).run b).1 = .ok vs ↔
      (∀ k ∈ keys, Committable b txnId startTs commitTs k) ∧ vs = keys.map (commitOf b commitTs) := by
  induction keys generalizing vs with
  | nil => simp [collectCommits, eq_comm]
  | cons k keys ih =>
    rw [List.forall_mem_cons, List.map_cons]
    unfold collectCommits
    rw [run_getIntent]
    cases hi : b.getIntent k with
    | none => simp [Committable, hi]
    | some i =>
      rw [committable_iff hi, commitOf_eq hi]
      dsimp only
      by_cases h1 : i.txnId = txnId
      · by_cases h2 : i.startTs = startTs
        · simp only [h1, h2, ne_eq, not_true_eq_false, if_false, true_and]
          cases i.minCommitTs.filter (commitTs < ·) with
          | some m => simp
          | none =>
            dsimp only
            rw [run_getLatestCommitTs]
            cases (b.getLatestCommitTs k).filter (commitTs ≤ ·) with
            | some t => simp
            | none =>
              dsimp only
              rw [run_bind]
              -- the rest of the loop either fails, or has collected its versions
              rcases hr : (collectCommits txnId startTs commitTs keys).run b with ⟨r, b₁⟩
              cases r with
              | error e =>
                have hno : ¬ ∀ k ∈ keys, Committable b txnId startTs commitTs k := by
                  intro hall
                  have := ih.mpr ⟨hall, rfl⟩
                  rw [hr] at this
                  cases this
                simp [hno]
              | ok ws =>
                obtain ⟨hall, rfl⟩ := ih.mp (by rw [hr])
                constructor
                · rintro ⟨⟩
                  exact ⟨⟨⟨rfl, rfl⟩, hall⟩, rfl⟩
                · rintro ⟨-, rfl⟩
                  rfl
        · simp [h1, h2]
      · simp [h1]

theorem collectAborts_run {keys : List Key} :
    (collectAborts txnId startTs keys).run b =
      (.ok ((keys.filter fun k => (b.getIntent k).any
        (fun i => i.txnId = txnId ∧ i.startTs = startTs)).map fun k => (k, txnId, startTs)), b) := by
  induction keys with
  | nil => rfl
  | cons k keys ih =>
    unfold collectAborts
    rw [run_getIntent, run_bind, ih, List.filter_cons]
    dsimp only
    split <;> rfl

/-- The number of keys the loop of `prewrite_batch` counts. -/
theorem countExisting_ok {ws : List PhysicalWrite} {n m : Nat} :
    ((countExisting txnId startTs ws n).run b).1 = .ok m ↔
      (∀ w ∈ ws, Held b txnId startTs w ∨ Free b startTs w.key) ∧
        m = n + ws.countP (fun w => (b.getIntent w.key).isSome) := by
  induction ws generalizing n with
  | nil => simp [countExisting, eq_comm]
  | cons w ws ih =>
    rw [List.forall_mem_cons, List.countP_cons]
    unfold countExisting
    rw [run_getIntent]
    cases hi : b.getIntent w.key with
    | some i =>
      have hfree : ¬ Free b startTs w.key := by simp [Free, hi]
      rw [held_iff hi]
      dsimp only
      by_cases h1 : i.txnId = txnId
      · by_cases h2 : i.startTs = startTs ∧ i.mutation = Mutation.ofValue w.value
        · have h2' : ¬ (i.startTs ≠ startTs ∨ i.mutation ≠ Mutation.ofValue w.value) := by tauto
          rw [if_neg (not_not.mpr h1), if_neg h2', ih]
          simp only [h1, h2, and_self, true_or, true_and, Option.isSome_some, if_true]
          constructor <;> rintro ⟨hall, rfl⟩ <;> exact ⟨hall, by omega⟩
        · have h2' : i.startTs ≠ startTs ∨ i.mutation ≠ Mutation.ofValue w.value := by tauto
          rw [if_neg (not_not.mpr h1), if_pos h2']
          simp [h1, h2, hfree]
      · rw [if_pos h1]
        simp [h1, hfree]
    | none =>
      have hheld : ¬ Held b txnId startTs w := by simp [Held, hi]
      dsimp only
      rw [run_getLatestCommitTs]
      cases hl : (b.getLatestCommitTs w.key).any (startTs < ·) with
      | true =>
        have hfree : ¬ Free b startTs w.key := by
          rintro ⟨-, hle⟩
          rw [latest_any.mpr hle] at hl
          cases hl
        simp [hheld, hfree]
      | false =>
        have hfree : Free b startTs w.key := ⟨hi, latest_any.mp hl⟩
        simp only [Bool.false_eq_true, if_false]
        rw [ih]
        simp [hfree]

/-! Batches. -/

section Prologue
variable {ε α : Type} {p : Engine ε α} {v : α}

theorem throwIf_ok {c : Prop} [Decidable c] {e : ε} :
    (if c then throw e else p).run b = (.ok v, b') ↔ ¬ c ∧ p.run b = (.ok v, b') := by
  by_cases h : c <;> simp [h]

theorem rejectDuplicates_ok {keys : List Key} {e : Key → ε} :
    (rejectDuplicates keys e p).run b = (.ok v, b') ↔ keys.Nodup ∧ p.run b = (.ok v, b') := by
  unfold rejectDuplicates
  cases hd : firstDuplicate [] keys with
  | some k =>
    have hnd : ¬ keys.Nodup := by
      intro hnd
      rw [firstDuplicate_eq_none.mpr ⟨hnd, by simp⟩] at hd
      cases hd
    simp [hnd]
  | none => simp [(firstDuplicate_eq_none.mp hd).1]

end Prologue

theorem prewriteBatch_ok {ws : List PhysicalWrite} :
    (prewriteBatch txnId startTs ws).run b = (.ok (), b') ↔
      ws ≠ [] ∧ (ws.map (·.key)).Nodup ∧
      (((∀ w ∈ ws, Held b txnId startTs w) ∧ b' = b) ∨
       ((∀ w ∈ ws, Free b startTs w.key) ∧ b' = b.putIntentsBatch (intentsOf txnId startTs ws))) := by
  unfold prewriteBatch
  rw [throwIf_ok, rejectDuplicates_ok, run_bind_readOnly (readOnly_countExisting _ _ _ _),
    List.isEmpty_iff]
  refine and_congr_right fun hne => and_congr_right fun _ => ?_
  simp only [countExisting_ok, Nat.zero_add]
  have hpos : 0 < ws.length := List.length_pos_iff.mpr hne
  -- all keys hold an intent, none does, or the batch is a partial replay
  by_cases hall : ∀ w ∈ ws, (b.getIntent w.key).isSome = true
  · have hcount : ws.countP (fun w => (b.getIntent w.key).isSome) = ws.length :=
      List.countP_eq_length.mpr hall
    have hnf : ∀ w ∈ ws, ¬ Free b startTs w.key := by
      intro w hw hfree
      have hsome := hall w hw
      rw [hfree.isSome] at hsome
      cases hsome
    constructor
    · rintro ⟨n, ⟨hv, rfl⟩, h⟩
      rw [if_pos hcount] at h
      cases h
      exact .inl ⟨fun w hw => (hv w hw).resolve_right (hnf w hw), rfl⟩
    · rintro (⟨hheld, rfl⟩ | ⟨hfree, -⟩)
      · exact ⟨_, ⟨fun w hw => .inl (hheld w hw), rfl⟩, by rw [if_pos hcount]; rfl⟩
      · obtain ⟨w, hw⟩ := List.exists_mem_of_length_pos hpos
        exact absurd (hfree w hw) (hnf w hw)
  · have hlt : ws.countP (fun w => (b.getIntent w.key).isSome) ≠ ws.length :=
      fun h => hall (List.countP_eq_length.mp h)
    constructor
    · rintro ⟨n, ⟨hv, rfl⟩, h⟩
      rw [if_neg hlt, throwIf_ok] at h
      obtain ⟨hzero, h⟩ := h
      cases h
      have hnone := List.countP_eq_zero.mp (Nat.eq_zero_of_not_pos hzero)
      refine .inr ⟨fun w hw => (hv w hw).resolve_left ?_, rfl⟩
      exact fun hheld => hnone w hw hheld.isSome
    · rintro (⟨hheld, -⟩ | ⟨hfree, rfl⟩)
      · exact absurd (fun w hw => (hheld w hw).isSome) hall
      · have hzero : ws.countP (fun w => (b.getIntent w.key).isSome) = 0 := by
          refine List.countP_eq_zero.mpr ?_
          intro w hw
          rw [(hfree w hw).isSome]
          exact Bool.false_ne_true
        refine ⟨_, ⟨fun w hw => .inr (hfree w hw), rfl⟩, ?_⟩
        rw [if_neg hlt, throwIf_ok]
        exact ⟨by omega, rfl⟩

theorem commitBatch_ok {keys : List Key} :
    (commitBatch txnId startTs commitTs keys).run b = (.ok (), b') ↔
      keys ≠ [] ∧ keys.Nodup ∧ startTs < commitTs ∧
      (∀ k ∈ keys, Committable b txnId startTs commitTs k) ∧
      b' = b.commitIntentsBatch (keys.map (commitOf b commitTs))
        (keys.map fun k => (k, txnId, startTs)) := by
  unfold commitBatch
  rw [throwIf_ok, rejectDuplicates_ok, throwIf_ok, run_bind_readOnly (readOnly_collectCommits _ _ _ _)]
  simp only [collectCommits_ok, List.isEmpty_iff, not_le, ne_eq]
  refine and_congr_right fun _ => and_congr_right fun _ => and_congr_right fun _ => ?_
  constructor
  · rintro ⟨vs, ⟨hall, rfl⟩, h⟩
    cases h
    exact ⟨hall, rfl⟩
  · rintro ⟨hall, rfl⟩
    exact ⟨_, ⟨hall, rfl⟩, rfl⟩

theorem abortBatch_ok {keys : List Key} :
    (abortBatch txnId startTs keys).run b = (.ok (), b') ↔
      keys.Nodup ∧ b' = b.removeIntentsBatch ((keys.filter fun k => (b.getIntent k).any
        (fun i => i.txnId = txnId ∧ i.startTs = startTs)).map fun k => (k, txnId, startTs)) := by
  unfold abortBatch
  cases keys with
  | nil =>
    show (Except.ok (), b) = (Except.ok (), b') ↔ _ ∧ b' = b
    simp [eq_comm]
  | cons k keys =>
    rw [if_neg (by simp), rejectDuplicates_ok, run_bind, collectAborts_run]
    refine and_congr_right fun _ => ?_
    show (Except.ok (), b.removeIntentsBatch _) = (Except.ok (), b') ↔ _
    constructor
    · intro h
      cases h
      rfl
    · rintro rfl
      rfl

theorem applyDirectBatch_ok {ws : List PhysicalWrite} :
    (applyDirectBatch commitTs ws).run b = (.ok (), b') ↔
      ws ≠ [] ∧ (ws.map (·.key)).Nodup ∧ (∀ w ∈ ws, Writable b commitTs w.key) ∧
      b' = b.putCommittedBatch (commitsOf commitTs ws) := by
  unfold applyDirectBatch
  rw [throwIf_ok, rejectDuplicates_ok, run_bind_readOnly (readOnly_checkWrites _ _), List.isEmpty_iff]
  refine and_congr_right fun _ => and_congr_right fun _ => ?_
  rw [← checkWrites_ok]
  constructor
  · rintro ⟨_, hok, h⟩
    cases h
    exact ⟨hok, rfl⟩
  · rintro ⟨hok, rfl⟩
    exact ⟨(), hok, rfl⟩

theorem applyGuardedBatch_ok {gs : List ReadGuard} {ws : List PhysicalWrite} :
    (applyGuardedBatch commitTs gs ws).run b = (.ok (), b') ↔
      ws ≠ [] ∧ gs ≠ [] ∧ (ws.map (·.key)).Nodup ∧ (∀ g ∈ gs, g.Holds b commitTs) ∧
      (∀ w ∈ ws, Writable b commitTs w.key) ∧
      b' = b.putCommittedBatch (commitsOf commitTs ws) := by
  unfold applyGuardedBatch
  rw [throwIf_ok, throwIf_ok, rejectDuplicates_ok, run_bind_readOnly (readOnly_checkGuards _ _),
    List.isEmpty_iff, List.isEmpty_iff]
  refine and_congr_right fun _ => and_congr_right fun _ => and_congr_right fun _ => ?_
  rw [← checkWrites_ok, ← checkGuards_ok]
  constructor
  · rintro ⟨_, hg, h⟩
    obtain ⟨_, hw, h⟩ := (run_bind_readOnly (readOnly_checkWrites _ _)).mp h
    cases h
    exact ⟨hg, hw, rfl⟩
  · rintro ⟨hg, hw, rfl⟩
    exact ⟨(), hg, (run_bind_readOnly (readOnly_checkWrites _ _)).mpr ⟨(), hw, rfl⟩⟩

end NexirMvcc
