import NexirMvcc.Update

/- All-or-nothing. Every mutating operation of the engine reads and validates
   first and makes one mutating backend call at most, as its last call, whose
   outcome it returns (`OneShot`). On any backend whose reads and failed calls
   leave its state alone, an operation that returns an error has therefore
   changed nothing. -/
namespace NexirMvcc
open CallTree

section Loops
variable {ε α β : Type}

/-- Reading first keeps a tree one-shot. -/
theorem oneShot_read {c : BackendCall} {wrap : String → ε} {f : c.Reply → Engine ε α}
    (hc : c.mutates = false) (hf : ∀ a, OneShot BackendCall.mutates (f a)) :
    OneShot BackendCall.mutates (backend c wrap >>= f) :=
  OneShot.bind (readOnly_ask hc) hf

theorem readOnly_read {c : BackendCall} {wrap : String → ε} {f : c.Reply → Engine ε α}
    (hc : c.mutates = false) (hf : ∀ a, ReadOnly BackendCall.mutates (f a)) :
    ReadOnly BackendCall.mutates (backend c wrap >>= f) :=
  ReadOnly.bind (readOnly_ask hc) hf

theorem oneShot_write {c : BackendCall} {wrap : String → ε} :
    OneShot BackendCall.mutates (backend c wrap >>= fun _ => (pure () : Engine ε Unit)) :=
  oneShot_last

/-- The loops of the batch operations only read. -/
theorem readOnly_countExisting (txnId : TxnId) (startTs : Timestamp) (ws : List PhysicalWrite)
    (n : Nat) : ReadOnly BackendCall.mutates (countExisting txnId startTs ws n) := by
  induction ws generalizing n with
  | nil => trivial
  | cons w ws ih =>
    apply readOnly_read rfl
    intro intent
    cases intent with
    | some i =>
      dsimp only
      split
      · trivial
      · split
        · trivial
        · exact ih _
    | none =>
      apply readOnly_read rfl
      intro latest
      split
      · trivial
      · exact ih _

theorem readOnly_collectCommits (txnId : TxnId) (startTs commitTs : Timestamp) (keys : List Key) :
    ReadOnly BackendCall.mutates (collectCommits txnId startTs commitTs keys) := by
  induction keys with
  | nil => trivial
  | cons key keys ih =>
    apply readOnly_read rfl
    intro intent
    cases intent with
    | none => trivial
    | some i =>
      dsimp only
      split
      · trivial
      · split
        · trivial
        · split
          · trivial
          · apply readOnly_read rfl
            intro latest
            split
            · trivial
            · exact ReadOnly.bind ih fun _ => trivial

theorem readOnly_collectAborts (txnId : TxnId) (startTs : Timestamp) (keys : List Key) :
    ReadOnly BackendCall.mutates (collectAborts txnId startTs keys) := by
  induction keys with
  | nil => trivial
  | cons key keys ih =>
    apply readOnly_read rfl
    intro intent
    refine ReadOnly.bind ih ?_
    intro removed
    split <;> trivial

theorem readOnly_checkWrites (commitTs : Timestamp) (ws : List PhysicalWrite) :
    ReadOnly BackendCall.mutates (checkWrites commitTs ws) := by
  induction ws with
  | nil => trivial
  | cons w ws ih =>
    apply readOnly_read rfl
    intro intent
    cases intent with
    | some i => trivial
    | none =>
      apply readOnly_read rfl
      intro latest
      split
      · trivial
      · exact ih

theorem readOnly_checkGuards (commitTs : Timestamp) (gs : List ReadGuard) :
    ReadOnly BackendCall.mutates (checkGuards commitTs gs) := by
  induction gs with
  | nil => trivial
  | cons g gs ih =>
    unfold checkGuards
    split
    · trivial
    · apply readOnly_read rfl
      intro intent
      cases intent with
      | some i => trivial
      | none =>
        apply readOnly_read rfl
        intro latest
        split
        · trivial
        · apply readOnly_read rfl
          intro visible
          split
          · trivial
          · exact ih

end Loops

/-! The operations. -/

theorem oneShot_rejectDuplicates {ε α : Type} {keys : List Key} {e : Key → ε} {p : Engine ε α}
    (hp : OneShot BackendCall.mutates p) :
    OneShot BackendCall.mutates (rejectDuplicates keys e p) := by
  unfold rejectDuplicates
  split
  · trivial
  · exact hp

theorem oneShot_prewrite (txnId : TxnId) (startTs : Timestamp) (key : Key) (mutation : Mutation) :
    OneShot BackendCall.mutates (prewrite txnId startTs key mutation) := by
  apply oneShot_read rfl
  intro intent
  cases intent with
  | some i =>
    dsimp only
    split
    · trivial
    · split
      · trivial
      · split <;> trivial
  | none =>
    apply oneShot_read rfl
    intro latest
    split
    · trivial
    · exact oneShot_write

theorem oneShot_commit (txnId : TxnId) (key : Key) (startTs commitTs : Timestamp) :
    OneShot BackendCall.mutates (commit txnId key startTs commitTs) := by
  apply oneShot_read rfl
  intro intent
  cases intent with
  | none => trivial
  | some i =>
    dsimp only
    split
    · trivial
    · split
      · trivial
      · split
        · trivial
        · split
          · trivial
          · apply oneShot_read rfl
            intro latest
            split
            · split <;> trivial
            · exact oneShot_write

theorem oneShot_abort (txnId : TxnId) (key : Key) (startTs : Timestamp) :
    OneShot BackendCall.mutates (abort txnId key startTs) := oneShot_write

theorem oneShot_prewriteBatch (txnId : TxnId) (startTs : Timestamp) (ws : List PhysicalWrite) :
    OneShot BackendCall.mutates (prewriteBatch txnId startTs ws) := by
  unfold prewriteBatch
  split
  · trivial
  · apply oneShot_rejectDuplicates
    refine OneShot.bind (readOnly_countExisting txnId startTs ws 0) ?_
    intro existing
    split
    · trivial
    · split
      · trivial
      · exact oneShot_write

theorem oneShot_commitBatch (txnId : TxnId) (startTs commitTs : Timestamp) (keys : List Key) :
    OneShot BackendCall.mutates (commitBatch txnId startTs commitTs keys) := by
  unfold commitBatch
  split
  · trivial
  · apply oneShot_rejectDuplicates
    split
    · trivial
    · exact OneShot.bind (readOnly_collectCommits txnId startTs commitTs keys)
        fun _ => oneShot_write

theorem oneShot_abortBatch (txnId : TxnId) (startTs : Timestamp) (keys : List Key) :
    OneShot BackendCall.mutates (abortBatch txnId startTs keys) := by
  unfold abortBatch
  split
  · trivial
  · apply oneShot_rejectDuplicates
    exact OneShot.bind (readOnly_collectAborts txnId startTs keys) fun _ => oneShot_write

theorem oneShot_applyDirectBatch (commitTs : Timestamp) (ws : List PhysicalWrite) :
    OneShot BackendCall.mutates (applyDirectBatch commitTs ws) := by
  unfold applyDirectBatch
  split
  · trivial
  · apply oneShot_rejectDuplicates
    exact OneShot.bind (readOnly_checkWrites commitTs ws) fun _ => oneShot_write

theorem oneShot_applyGuardedBatch (commitTs : Timestamp) (gs : List ReadGuard)
    (ws : List PhysicalWrite) :
    OneShot BackendCall.mutates (applyGuardedBatch commitTs gs ws) := by
  unfold applyGuardedBatch
  split
  · trivial
  · split
    · trivial
    · apply oneShot_rejectDuplicates
      exact OneShot.bind (readOnly_checkGuards commitTs gs) fun _ =>
        OneShot.bind (readOnly_checkWrites commitTs ws) fun _ => oneShot_write

/-- On every backend whose reads and failed calls leave its state alone, and in
every execution: an error leaves the state as it was; at most one call mutates,
and it is the last; and the operation succeeds whenever that call does. -/
def AllOrNothing {ε α : Type} (p : Engine ε α) : Prop :=
  ∀ (σ : Type) (D : Device BackendCall.Reply String σ), Atomic BackendCall.mutates D →
    ∀ s es r s', Exec D p s es r s' →
      (∀ e, r = .error e → s' = s) ∧
      es.countP (fun ev => ev.1.mutates) ≤ 1 ∧
      (∀ i (hi : i < es.length), es[i].1.mutates = true → i + 1 = es.length) ∧
      (∀ ev ∈ es, ev.1.mutates = true → (∃ a, ev.2 = .ok a) → ∃ v, r = .ok v)

theorem allOrNothing_of_oneShot {ε α : Type} {p : Engine ε α} (hp : OneShot BackendCall.mutates p) :
    AllOrNothing p :=
  fun _ _ hD _ _ _ _ he => hp.exec hD he

theorem mutations_all_or_nothing :
    (∀ txnId startTs key mutation, AllOrNothing (prewrite txnId startTs key mutation)) ∧
    (∀ txnId key startTs commitTs, AllOrNothing (commit txnId key startTs commitTs)) ∧
    (∀ txnId key startTs, AllOrNothing (abort txnId key startTs)) ∧
    (∀ txnId startTs writes, AllOrNothing (prewriteBatch txnId startTs writes)) ∧
    (∀ txnId startTs commitTs keys, AllOrNothing (commitBatch txnId startTs commitTs keys)) ∧
    (∀ txnId startTs keys, AllOrNothing (abortBatch txnId startTs keys)) ∧
    (∀ commitTs writes, AllOrNothing (applyDirectBatch commitTs writes)) ∧
    (∀ commitTs guards writes, AllOrNothing (applyGuardedBatch commitTs guards writes)) :=
  ⟨fun txnId startTs key mutation =>
      allOrNothing_of_oneShot (oneShot_prewrite txnId startTs key mutation),
    fun txnId key startTs commitTs =>
      allOrNothing_of_oneShot (oneShot_commit txnId key startTs commitTs),
    fun txnId key startTs => allOrNothing_of_oneShot (oneShot_abort txnId key startTs),
    fun txnId startTs writes =>
      allOrNothing_of_oneShot (oneShot_prewriteBatch txnId startTs writes),
    fun txnId startTs commitTs keys =>
      allOrNothing_of_oneShot (oneShot_commitBatch txnId startTs commitTs keys),
    fun txnId startTs keys => allOrNothing_of_oneShot (oneShot_abortBatch txnId startTs keys),
    fun commitTs writes => allOrNothing_of_oneShot (oneShot_applyDirectBatch commitTs writes),
    fun commitTs guards writes =>
      allOrNothing_of_oneShot (oneShot_applyGuardedBatch commitTs guards writes)⟩

/-! The in-memory backend, with or without faults, is such a backend. -/

theorem memCall_reads {c : BackendCall} {b : InMemoryBackend} (hc : c.mutates = false) :
    (memCall c b).2 = b := by
  cases c <;> first | rfl | cases hc

theorem memCall_ok (c : BackendCall) (b : InMemoryBackend) : ∃ a, (memCall c b).1 = .ok a := by
  cases c <;> exact ⟨_, rfl⟩

theorem memCall_error (c : BackendCall) (b : InMemoryBackend) (msg : String) (b' : InMemoryBackend)
    (h : memCall c b = (.error msg, b')) : b' = b := by
  obtain ⟨a, ha⟩ := memCall_ok c b
  rw [h] at ha
  cases ha

theorem atomic_memCall_faulty : Atomic BackendCall.mutates memCall.faulty := by
  constructor
  · rintro c s x s' hc (h | ⟨-, rfl⟩)
    · have := memCall_reads (b := s) hc
      rw [h] at this
      exact this
    · rfl
  · rintro c s f s' (h | ⟨-, rfl⟩)
    · exact memCall_error c s f s' h
    · rfl

/-- A prewrite whose last call, the one that stores the intent, fails. -/
theorem mutations_all_or_nothing_failed_put :
    ∃ es, Exec memCall.faulty (prewrite 1 5 [7] .delete) .new es
        (.error (.backend "disk full")) .new ∧
      es.countP (fun ev => ev.1.mutates) ≤ 1 := by
  have he : Exec memCall.faulty (prewrite 1 5 [7] .delete) .new
      [⟨.getIntent [7], .ok none⟩, ⟨.getLatestCommitTs [7], .ok none⟩,
        ⟨.putIntent ⟨[7], 1, 5, .delete, none⟩, .error "disk full"⟩]
      (.error (.backend "disk full")) .new := by
    have hintent : memCall.faulty (.getIntent [7]) .new (.ok none) .new := .inl rfl
    have hlatest : memCall.faulty (.getLatestCommitTs [7]) .new (.ok none) .new := .inl rfl
    exact .call hintent (.call hlatest (.call (.inr ⟨⟨_, rfl⟩, rfl⟩) .ret))
  exact ⟨_, he, (mutations_all_or_nothing.1 1 5 [7] .delete _ _ atomic_memCall_faulty _ _ _ _ he).2.1⟩

/-- On the in-memory backend, an operation that fails leaves the state as it was. -/
theorem run_error_unchanged {ε α : Type} {p : Engine ε α} (hp : OneShot BackendCall.mutates p)
    {b b' : InMemoryBackend} {e : ε} (h : p.run b = (.error e, b')) : b' = b := by
  obtain ⟨es, he⟩ := exec_eval memCall p b
  have h' : eval memCall p b = (.error e, b') := h
  rw [h'] at he
  exact (hp.exec atomic_memCall_faulty he).1 e rfl

end NexirMvcc
