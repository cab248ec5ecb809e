import NexirMvcc.Conflicts

/- The ledger: what the engine is for, stated without backends. It knows only
   which operations succeeded. It keeps the writes that are prewritten and not
   yet resolved, and a log of the writes committed, one entry for each key of
   each batch. A read returns the value of the log's newest entry at or below the
   read timestamp. Every run of the engine refines it, with collections anywhere
   that do not collapse tombstones. -/
namespace NexirMvcc
open VersionHistory StepRun

/-- A committed write. -/
structure LogEntry where
  key : Key
  commitTs : Timestamp
  value : Option Value
  deriving DecidableEq, Repr

/-- A prewritten value and its transaction. -/
structure Pending where
  txnId : TxnId
  startTs : Timestamp
  value : Option Value
  deriving DecidableEq, Repr

structure Ledger where
  pending : Key → Option Pending
  log : List LogEntry

namespace Ledger

def empty : Ledger := ⟨fun _ => none, []⟩

/-- The effect of an operation that succeeded. A prewrite is recorded for the keys
that have none pending; a commit logs what is pending for its keys. -/
def apply (L : Ledger) : Effect → Ledger
  | .none => L
  | .lock txnId startTs ws =>
    let new := fun k => (ws.find? (·.key = k)).map fun w => ⟨txnId, startTs, w.value⟩
    { L with pending := fun k => (L.pending k).or (new k) }
  | .commit _ _ commitTs keys =>
    { pending := fun k => if k ∈ keys then none else L.pending k
      log := L.log ++ keys.map fun k => ⟨k, commitTs, (L.pending k).bind (·.value)⟩ }
  | .release txnId startTs keys =>
    { L with pending := fun k => (L.pending k).filter fun p =>
        ¬ (k ∈ keys ∧ p.txnId = txnId ∧ p.startTs = startTs) }
  | .write commitTs _ ws =>
    { L with log := L.log ++ ws.map fun w => ⟨w.key, commitTs, w.value⟩ }
  | .collect _ _ => L

/-- One step of a run: only an operation that succeeded counts. -/
def record (L : Ledger) (x : Step InMemoryBackend Op Result) : Ledger :=
  if x.result.isOk then L.apply x.op.effect else L

/-- The value of the entry of `key` with the largest timestamp at or below `readTs`. -/
def read (L : Ledger) (key : Key) (readTs : Timestamp) : Option Value :=
  ((L.log.filter fun e => e.key = key ∧ e.commitTs ≤ readTs).argmax (·.commitTs)).bind (·.value)

end Ledger

/-- The ledger of a run from the empty backend. -/
def ledgerAfter (ops : List Op) : Ledger := (steps ops).foldl Ledger.record .empty

/-! The log against the histories. -/

/-- Every history is that of the log, pruned below cutoffs in `S`. -/
def LogMatches (S : Set Timestamp) (log : List LogEntry) (b : InMemoryBackend) : Prop :=
  ∃ H : Key → Timestamp → Option (Option Value),
    (∀ k t v, H k t = some v ↔ ⟨k, t, v⟩ ∈ log) ∧ ∀ k, Pruned S (H k) (b.history k)

section Log
variable {S : Set Timestamp} {log : List LogEntry} {b b' : InMemoryBackend}

theorem LogMatches.congr (h : LogMatches S log b) (hb : ∀ k, b'.history k = b.history k) :
    LogMatches S log b' := by
  obtain ⟨H, hH, hp⟩ := h
  exact ⟨H, hH, fun k => (hb k).symm ▸ hp k⟩

/-- A batch of new versions, logged. -/
theorem LogMatches.append {new : List LogEntry} {c : Timestamp} (h : LogMatches S log b)
    (hts : ∀ e ∈ new, e.commitTs = c) (hnd : (new.map (·.key)).Nodup)
    (hlt : ∀ e ∈ new, ∀ t ∈ dom (b.history e.key), t < c)
    (here : ∀ e ∈ new, b'.history e.key = Function.update (b.history e.key) c (some e.value))
    (off : ∀ k, k ∉ new.map (·.key) → b'.history k = b.history k) :
    LogMatches S (log ++ new) b' := by
  obtain ⟨H, hH, hp⟩ := h
  refine ⟨fun k => match new.find? (·.key = k) with
    | some e => Function.update (H k) c (some e.value)
    | none => H k, ?_, ?_⟩
  · intro k t v
    rw [List.mem_append, ← hH]
    cases hf : new.find? (·.key = k) with
    | none =>
      simp only [hf]
      have hnot : (⟨k, t, v⟩ : LogEntry) ∉ new := fun hm => by
        simpa using List.find?_eq_none.mp hf _ hm
      simp [hnot]
    | some e =>
      have he : e ∈ new := List.mem_of_find?_eq_some hf
      obtain rfl : e.key = k := by simpa using List.find?_some hf
      simp only [hf]
      by_cases ht : t = c
      · subst ht
        -- no entry of the log has the new timestamp
        have hnone : ∀ v, H e.key t ≠ some v := by
          intro v hv
          rcases (hp e.key).shadowed_dom (mem_dom.mpr ⟨v, hv⟩) with hd | ⟨u, hu, htu, -⟩
          · exact lt_irrefl t (hlt e he t hd)
          · exact lt_asymm htu (hlt e he u hu)
        simp only [Function.update_self, Option.some.injEq, hnone, false_or]
        constructor
        · rintro rfl
          have : e = ⟨e.key, t, e.value⟩ := by rw [← hts e he]
          rwa [← this]
        · intro hm
          have := List.inj_on_of_nodup_map hnd he hm rfl
          rw [this]
      · have hnot : (⟨e.key, t, v⟩ : LogEntry) ∉ new := fun hm => ht (hts _ hm)
        simp only [Function.update_of_ne ht, hnot, or_false]
  · intro k
    cases hf : new.find? (·.key = k) with
    | none =>
      simp only [hf]
      rw [off k]
      · exact hp k
      · intro hm
        obtain ⟨e, he, hk⟩ := List.mem_map.mp hm
        simpa [hk] using List.find?_eq_none.mp hf e he
    | some e =>
      have he : e ∈ new := List.mem_of_find?_eq_some hf
      obtain rfl : e.key = k := by simpa using List.find?_some hf
      simp only [hf]
      rw [here e he]
      exact (hp e.key).update c e.value

/-- What is read is what the log says, above all cutoffs. -/
theorem LogMatches.read_run {pending : Key → Option Pending} (h : LogMatches S log b) {k : Key}
    {r : Timestamp} (hr : ∀ sp ∈ S, sp ≤ r) :
    (read k r).run b = (.ok (Ledger.read ⟨pending, log⟩ k r), b) := by
  obtain ⟨H, hH, hp⟩ := h
  rw [read_ok, ← (hp k).reads_iff hr]
  unfold Ledger.read
  have hmem : ∀ e : LogEntry, e ∈ log.filter (fun e => e.key = k ∧ e.commitTs ≤ r) ↔
      e.key = k ∧ e.commitTs ≤ r ∧ H k e.commitTs = some e.value := by
    intro e
    rw [List.mem_filter, decide_eq_true_iff]
    constructor
    · rintro ⟨hm, rfl, hle⟩
      exact ⟨rfl, hle, (hH _ _ _).mpr hm⟩
    · rintro ⟨rfl, hle, hv⟩
      exact ⟨(hH _ _ _).mp hv, rfl, hle⟩
  cases hmax : (log.filter fun e => e.key = k ∧ e.commitTs ≤ r).argmax (·.commitTs) with
  | none =>
    refine .inr ⟨?_, rfl⟩
    intro t ht
    by_contra hne
    obtain ⟨v, hv⟩ := Option.ne_none_iff_exists'.mp hne
    have hin := (hmem ⟨k, t, v⟩).mpr ⟨rfl, ht, hv⟩
    rw [List.argmax_eq_none.mp hmax] at hin
    cases hin
  | some e =>
    obtain ⟨rfl, hle, hv⟩ := (hmem e).mp (List.argmax_mem hmax)
    refine .inl ⟨e.commitTs, ⟨⟨mem_dom.mpr ⟨_, hv⟩, hle⟩, ?_⟩, hv⟩
    rintro u ⟨hu, hur⟩
    obtain ⟨v, huv⟩ := mem_dom.mp hu
    exact List.le_of_mem_argmax ((hmem ⟨e.key, u, v⟩).mpr ⟨rfl, hur, huv⟩) hmax

end Log

/-! The simulation. -/

/-- An intent as the ledger sees it. -/
def Intent.pending (i : Intent) : Pending := ⟨i.txnId, i.startTs, i.mutation.value⟩

/-- The ledger has the intents as pending, and its log matches the histories. -/
structure Represents (S : Set Timestamp) (L : Ledger) (b : InMemoryBackend) : Prop where
  pending : ∀ k, L.pending k = (b.getIntent k).map Intent.pending
  log : LogMatches S L.log b

section Step
variable {S : Set Timestamp} {L : Ledger} {b b' : InMemoryBackend} {txnId : TxnId}
  {startTs commitTs : Timestamp}

theorem represents_empty : Represents S .empty .new := by
  refine ⟨fun k => by simp [Ledger.empty], fun _ _ => none, by simp [Ledger.empty], ?_⟩
  intro k
  rw [InMemoryBackend.history_new]
  exact Pruned.refl S _

theorem Represents.lock {ws : List PhysicalWrite} (h : Represents S L b)
    (hl : Locks b b' txnId startTs ws) : Represents S (L.apply (.lock txnId startTs ws)) b' := by
  refine ⟨?_, h.log.congr hl.histories⟩
  intro k
  show (L.pending k).or _ = _
  rw [h.pending k]
  cases hf : ws.find? (·.key = k) with
  | none =>
    have hk : k ∉ ws.map (·.key) := by
      intro hm
      obtain ⟨w, hw, he⟩ := List.mem_map.mp hm
      simpa [he] using List.find?_eq_none.mp hf w hw
    rw [hl.off k hk]
    simp [hf]
  | some w =>
    have hw : w ∈ ws := List.mem_of_find?_eq_some hf
    obtain rfl : w.key = k := by simpa using List.find?_some hf
    rcases hl.here with ⟨hheld, rfl⟩ | hnew
    · obtain ⟨i, hi, -⟩ := hheld w hw
      simp [hi]
    · obtain ⟨⟨hnone, -⟩, hi⟩ := hnew w hw
      simp [hf, hnone, hi, Intent.pending]

/-- What a commit succeeds on is pending, under its transaction. -/
theorem Represents.pending_of_commits {keys : List Key} (h : Represents S L b)
    (hc : Commits b b' txnId startTs commitTs keys) {k : Key} (hk : k ∈ keys) :
    L.pending k = some ⟨txnId, startTs, (commitOf b commitTs k).value⟩ := by
  obtain ⟨i, hi, ⟨rfl, rfl⟩, -⟩ := hc.committable k hk
  simp [h.pending k, hi, Intent.pending, commitOf]

theorem Represents.commit {keys : List Key} (h : Represents S L b)
    (hc : Commits b b' txnId startTs commitTs keys) :
    Represents S (L.apply (.commit txnId startTs commitTs keys)) b' := by
  constructor
  · intro k
    show (if k ∈ keys then none else L.pending k) = _
    split
    · next hk => rw [(hc.here k hk).1]; rfl
    · next hk => rw [(hc.off k hk).1, h.pending k]
  · have hkeys : (keys.map fun k => (⟨k, commitTs, (L.pending k).bind (·.value)⟩ : LogEntry)).map
        (·.key) = keys := by
      rw [List.map_map]
      exact List.map_id' keys
    refine h.log.append (c := commitTs) ?_ (by rw [hkeys]; exact hc.nodup) ?_ ?_ ?_
    · intro e he
      obtain ⟨k, -, rfl⟩ := List.mem_map.mp he
      rfl
    · intro e he
      obtain ⟨k, hk, rfl⟩ := List.mem_map.mp he
      obtain ⟨i, -, -, -, hlt⟩ := hc.committable k hk
      exact hlt
    · intro e he
      obtain ⟨k, hk, rfl⟩ := List.mem_map.mp he
      rw [h.pending_of_commits hc hk]
      exact (hc.here k hk).2
    · intro k hk
      rw [hkeys] at hk
      exact (hc.off k hk).2

theorem Represents.release {keys : List Key} (h : Represents S L b)
    (hr : Releases b b' txnId startTs keys) :
    Represents S (L.apply (.release txnId startTs keys)) b' := by
  refine ⟨?_, h.log.congr hr.histories⟩
  intro k
  show (L.pending k).filter _ = _
  rw [h.pending k, hr.intents k]
  cases b.getIntent k with
  | none => rfl
  | some i =>
    rw [Option.map_some, Option.filter_some, Option.filter_some]
    show (if decide (¬ (k ∈ keys ∧ i.heldBy txnId startTs)) = true then some i.pending else none) =
      Option.map Intent.pending
        (if decide (¬ (k ∈ keys ∧ i.heldBy txnId startTs)) = true then some i else none)
    split <;> rfl

theorem Represents.write {gs : List ReadGuard} {ws : List PhysicalWrite} (h : Represents S L b)
    (hw : Writes b b' commitTs gs ws) : Represents S (L.apply (.write commitTs gs ws)) b' := by
  have hkeys : (ws.map fun w => (⟨w.key, commitTs, w.value⟩ : LogEntry)).map (·.key) =
      ws.map (·.key) := by
    rw [List.map_map]
    rfl
  refine ⟨fun k => by rw [hw.intents k]; exact h.pending k, ?_⟩
  refine h.log.append (c := commitTs) ?_ (by rw [hkeys]; exact hw.nodup) ?_ ?_ ?_
  · intro e he
    obtain ⟨w, -, rfl⟩ := List.mem_map.mp he
    rfl
  · intro e he
    obtain ⟨w, hmem, rfl⟩ := List.mem_map.mp he
    exact (hw.writable w hmem).2
  · intro e he
    obtain ⟨w, hmem, rfl⟩ := List.mem_map.mp he
    exact hw.here w hmem
  · intro k hk
    rw [hkeys] at hk
    exact hw.off k hk

theorem Represents.collect {sp : Timestamp} (h : Represents S L b) (hs : sp ∈ S)
    (hrel : GcRel sp false b b') : Represents S L b' := by
  refine ⟨fun k => by rw [hrel.intents k]; exact h.pending k, ?_⟩
  obtain ⟨H, hH, hp⟩ := h.log
  refine ⟨H, hH, fun k => (hp k).trans ((hrel.pruned k).mono ?_)⟩
  rintro _ rfl
  exact ⟨_, hs, le_rfl⟩

/-- Every step of the engine is a step of the ledger. -/
theorem Represents.step (op : Op) (h : Represents S L b) (hop : op.NonCollapsing)
    (hS : ∀ sp options, op.effect = .collect sp options → sp ∈ S) :
    Represents S (L.record (stepOf Op.exec b op)) (op.exec b).2 := by
  cases hok : (op.exec b).1.isOk with
  | false =>
    have : L.record (stepOf Op.exec b op) = L := if_neg (by simp [stepOf, hok])
    rw [this, exec_error op hok]
    exact h
  | true =>
    have : L.record (stepOf Op.exec b op) = L.apply op.effect := if_pos hok
    rw [this]
    have ha := exec_ok op hok
    cases he : op.effect with
    | none =>
      rw [he] at ha
      rw [show (op.exec b).2 = b from ha]
      exact h
    | lock txnId startTs ws => exact h.lock (by rwa [he] at ha)
    | commit txnId startTs commitTs keys => exact h.commit (by rwa [he] at ha)
    | release txnId startTs keys => exact h.release (by rwa [he] at ha)
    | write commitTs gs ws => exact h.write (by rwa [he] at ha)
    | collect sp options =>
      rw [he] at ha
      have hc := hop sp options he
      have hrel := ha.2 (.inr hc)
      rw [hc] at hrel
      exact h.collect (hS sp options he) hrel

end Step

theorem represents_run {ops : List Op} (hgc : ∀ op ∈ ops, op.NonCollapsing) :
    Represents {sp | sp ∈ safePoints ops} (ledgerAfter ops) (stateAfter ops) := by
  have hstep : ∀ L b op, op ∈ ops → Represents {sp | sp ∈ safePoints ops} L b →
      Represents {sp | sp ∈ safePoints ops} (L.record (stepOf Op.exec b op)) (op.exec b).2 :=
    fun L b op hop h => h.step op (hgc op hop) fun sp options he =>
      List.mem_filterMap.mpr ⟨op, hop, by rw [he]; rfl⟩
  exact fold_inv hstep (fun op hop => hop) represents_empty

/-- Refinement: in every run, at every read timestamp at or above the safe points
used, a read returns what the log of the committed writes says. -/
theorem read_refines_ledger {ops : List Op} (hgc : ∀ op ∈ ops, op.NonCollapsing) {k : Key}
    {r : Timestamp} (hr : ∀ sp ∈ safePoints ops, sp ≤ r) :
    (read k r).run (stateAfter ops) = (.ok ((ledgerAfter ops).read k r), stateAfter ops) :=
  (represents_run hgc).log.read_run hr

/-- Two transactions, a failed prewrite and a collection. -/
theorem read_refines_ledger_two_transactions :
    let ops : List Op := [.prewriteBatch 1 5 [⟨[1], some [7]⟩, ⟨[2], some [8]⟩],
      .prewrite 2 5 [1] (.put [9]), .commitBatch 1 5 6 [[1], [2]], .prewrite 2 6 [1] .delete,
      .commit 2 [1] 6 8, .gc 9 7 ⟨⟨3, 3⟩, false⟩]
    (read [1] 7).run (stateAfter ops) = (.ok ((ledgerAfter ops).read [1] 7), stateAfter ops) ∧
      (ledgerAfter ops).read [1] 7 = some [7] := by
  intro ops
  have hgc : ∀ op ∈ ops, op.NonCollapsing := by decide
  have hr : ∀ sp ∈ safePoints ops, sp ≤ 7 := List.forall_mem_singleton.mpr (by decide)
  exact ⟨read_refines_ledger hgc hr, by decide +kernel⟩

end NexirMvcc
