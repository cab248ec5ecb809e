import NexirMvcc.Erasure

/- Committed history over time. A step that is not a collection adds versions
   only, each above every version its key ever had, also those a collection has
   removed since (`Reaches`). So a snapshot at or below the latest version of a
   key is fixed: only a collection with a safe point above it changes what is
   read there. A guard on a version rests on the same order: what was visible at
   the read is still the latest version when the guard passes, so nothing was
   written to the key in between. -/
namespace NexirMvcc
open VersionHistory StepRun

section Step
variable {b : InMemoryBackend} {op : Op} {k : Key} {r : Timestamp}

theorem stateAfter_append (pre post : List Op) :
    stateAfter (pre ++ post) = final Op.exec (stateAfter pre) post :=
  final_append Op.exec .new pre post

theorem Reaches.run {post : List Op} {ts : Timestamp} (hgc : ∀ op ∈ post, op.NonCollapsing)
    (h : Reaches b k ts) : Reaches (final Op.exec b post) k ts :=
  final_inv (P := fun b => Reaches b k ts)
    (fun _ op (hop : op.NonCollapsing) hr => hr.step hop) hgc h

/-- The versions a step other than a collection finds, it leaves. -/
theorem exec_keeps_versions (hgc : op.isGc = false) {t : Timestamp} {v : Option Value}
    (h : b.history k t = some v) : (op.exec b).2.history k t = some v := by
  rcases exec_history hgc b k with hsame | ⟨c, x, -, hlt, hnew⟩
  · rw [hsame, h]
  · have hne : t ≠ c := (hlt t (mem_dom.mpr ⟨v, h⟩)).ne
    rw [hnew, Function.update_of_ne hne, h]

/-- The versions it adds are above all that its key ever had. -/
theorem exec_adds_above (hgc : op.isGc = false) {t u : Timestamp} (hu : Reaches b k u)
    (ht : t ∈ dom ((op.exec b).2.history k)) (hnew : t ∉ dom (b.history k)) : u < t := by
  rcases exec_history hgc b k with hsame | ⟨c, x, -, hlt, hup⟩
  · rw [hsame] at ht
    exact absurd ht hnew
  · rw [hup, dom_update_some] at ht
    rcases ht with rfl | ht
    · exact hu.lt hlt
    · exact absurd ht hnew

/-- No step changes what is read at or below the latest version, but for a
collection with a safe point above. -/
theorem exec_keeps_snapshot (hop : op.NonCollapsing) (hr : Reaches b k r)
    (hsp : ∀ sp options, op.effect = .collect sp options → sp ≤ r) :
    ((readWithVersion k r).run (op.exec b).2).1 = ((readWithVersion k r).run b).1 := by
  cases hgc : op.isGc with
  | true =>
    obtain ⟨sp, options, he, hrel⟩ := hop.gcRel hgc b
    exact hrel.readWithVersion_eq (hsp sp options he)
  | false =>
    have hvis : (op.exec b).2.getVisibleCommitted k r = b.getVisibleCommitted k r := by
      rcases exec_history hgc b k with hsame | ⟨c, x, -, hlt, hup⟩
      · exact getVisibleCommitted_of_history hsame
      -- the new version is above `r`
      · refine getVisibleCommitted_of_le fun t ht => ?_
        rw [hup, Function.update_of_ne (ht.trans_lt (hr.lt hlt)).ne]
    rw [readWithVersion_run, readWithVersion_run, hvis]

end Step

/-- The step writes the value `v` to `key` at `commitTs`: that of the intent it
commits, or that of a write of its batch. -/
def WroteValue (x : Step InMemoryBackend Op Result) (key : Key) (commitTs : Timestamp)
    (v : Option Value) : Prop :=
  x.result.isOk = true ∧
    ((∃ txnId startTs keys i, x.op.effect = .commit txnId startTs commitTs keys ∧ key ∈ keys ∧
        x.before.getIntent key = some i ∧ i.mutation.value = v) ∨
      ∃ guards ws, x.op.effect = .write commitTs guards ws ∧ ⟨key, v⟩ ∈ ws)

section Written
variable {b : InMemoryBackend} {op : Op} {k : Key} {c : Timestamp} {v : Option Value}

theorem WroteValue.history (h : WroteValue (stepOf Op.exec b op) k c v) :
    (∀ t ∈ dom (b.history k), t < c) ∧
      (op.exec b).2.history k = Function.update (b.history k) c (some v) := by
  obtain ⟨hok, ⟨txnId, startTs, keys, i, he, hk, hi, rfl⟩ | ⟨guards, ws, he, hw⟩⟩ := h
  · have ha := exec_ok op hok
    rw [show op.effect = _ from he] at ha
    obtain ⟨i', -, -, -, hlt⟩ := Commits.committable ha k hk
    refine ⟨hlt, ?_⟩
    rw [(Commits.here ha k hk).2]
    rw [commitOf_eq (show b.getIntent k = some i from hi)]
  · have ha := exec_ok op hok
    rw [show op.effect = _ from he] at ha
    exact ⟨(Writes.writable ha _ hw).2, Writes.here ha _ hw⟩

/-- Right after the step the value is read at its timestamp. -/
theorem WroteValue.read (h : WroteValue (stepOf Op.exec b op) k c v) :
    ((readWithVersion k c).run (op.exec b).2).1 = .ok (some (c, v)) := by
  obtain ⟨hlt, hup⟩ := h.history
  have hmem : c ∈ dom ((op.exec b).2.history k) := by
    rw [hup, dom_update_some]
    exact Set.mem_insert _ _
  have hvis : (op.exec b).2.getVisibleCommitted k c = some ⟨k, c, v⟩ := by
    refine InMemoryBackend.getVisibleCommitted_eq_some.mpr ⟨rfl, ⟨⟨hmem, le_refl c⟩, ?_⟩, ?_⟩
    · exact fun t ht => ht.2
    · rw [hup]
      exact Function.update_self _ _ _
  rw [readWithVersion_run, hvis]
  rfl

/-- And so it is until a collection with a higher safe point. -/
theorem read_kept {post : List Op} (hgc : ∀ o ∈ post, o.NonCollapsing) (hreach : Reaches b k c)
    (hsp : ∀ o ∈ post, ∀ sp options, o.effect = .collect sp options → sp ≤ c) :
    ((readWithVersion k c).run (final Op.exec b post)).1 = ((readWithVersion k c).run b).1 := by
  induction post generalizing b with
  | nil => rfl
  | cons o post ih =>
    obtain ⟨ho, hpost⟩ := List.forall_mem_cons.mp hgc
    obtain ⟨hspo, hsppost⟩ := List.forall_mem_cons.mp hsp
    calc ((readWithVersion k c).run (final Op.exec (o.exec b).2 post)).1
        = ((readWithVersion k c).run (o.exec b).2).1 := ih hpost (hreach.step ho) hsppost
      _ = ((readWithVersion k c).run b).1 := exec_keeps_snapshot ho hreach hspo

end Written

/-- A run cut at two moments, after `pre` and after `pre ++ mid`, with one more
step `op`. A step that is not a collection keeps all versions and adds only
versions above all earlier ones, removed ones included. What is read at or below a
latest version of an earlier moment changes only by a collection with a safe point
above. What `op` writes stays readable at its timestamp until such a collection. -/
theorem committed_history_append_only (pre mid : List Op) (op : Op)
    (hgc : ∀ o ∈ pre ++ mid ++ [op], o.NonCollapsing) :
    (op.isGc = false →
      (∀ k t v, (stateAfter (pre ++ mid)).history k t = some v →
        (stateAfter (pre ++ mid ++ [op])).history k t = some v) ∧
      ∀ k t, t ∈ dom ((stateAfter (pre ++ mid ++ [op])).history k) →
        t ∉ dom ((stateAfter (pre ++ mid)).history k) →
        ∀ u ∈ dom ((stateAfter pre).history k), u < t) ∧
    (∀ k l r, (stateAfter pre).getLatestCommitTs k = some l → r ≤ l →
      (∀ sp options, op.effect = .collect sp options → sp ≤ r) →
      ((readWithVersion k r).run (stateAfter (pre ++ mid ++ [op]))).1 =
        ((readWithVersion k r).run (stateAfter (pre ++ mid))).1) ∧
    (∀ c post, (∀ o ∈ post, o.NonCollapsing) →
      (∀ o ∈ post, ∀ sp options, o.effect = .collect sp options → sp ≤ c) →
      ∀ k v, WroteValue (stepOf Op.exec (stateAfter (pre ++ mid)) op) k c v →
        ((readWithVersion k c).run (stateAfter (pre ++ mid ++ [op] ++ post))).1 =
          .ok (some (c, v))) := by
  rw [List.forall_mem_append, List.forall_mem_append, List.forall_mem_singleton] at hgc
  obtain ⟨⟨-, hmid⟩, hop⟩ := hgc
  have hnext : stateAfter (pre ++ mid ++ [op]) = (op.exec (stateAfter (pre ++ mid))).2 :=
    stateAfter_append (pre ++ mid) [op]
  have hreach : ∀ k u, u ∈ dom ((stateAfter pre).history k) →
      Reaches (stateAfter (pre ++ mid)) k u := by
    intro k u hu
    rw [stateAfter_append]
    exact Reaches.run hmid ⟨u, hu, le_rfl⟩
  rw [hnext]
  refine ⟨fun hop' => ⟨?_, ?_⟩, ?_, ?_⟩
  · exact fun k t v h => exec_keeps_versions hop' h
  · exact fun k t ht hnew u hu => exec_adds_above hop' (hreach k u hu) ht hnew
  · intro k l r hl hr hsp
    obtain ⟨t, ht, hlt⟩ := hreach k l (InMemoryBackend.getLatestCommitTs_eq_some.mp hl).1
    exact exec_keeps_snapshot hop ⟨t, ht, hr.trans hlt⟩ hsp
  · intro c post hpost hsp k v hw
    have hc : Reaches (op.exec (stateAfter (pre ++ mid))).2 k c := by
      refine ⟨c, ?_, le_rfl⟩
      rw [hw.history.2, dom_update_some]
      exact Set.mem_insert _ _
    rw [stateAfter_append, hnext, read_kept hpost hc hsp]
    exact hw.read

/-- A batch over two keys, a newer write to one of them and a collection: the batch
is still read at its timestamp. -/
theorem committed_history_append_only_batch :
    let b := stateAfter [.applyDirectBatch 3 [⟨[1], some [7]⟩, ⟨[2], none⟩],
      .applyDirectBatch 5 [⟨[1], some [8]⟩], .gc 9 3 ⟨⟨4, 4⟩, false⟩]
    ((readWithVersion [1] 3).run b).1 = .ok (some (3, some [7])) ∧
      ((readWithVersion [2] 3).run b).1 = .ok (some (3, none)) := by
  intro b
  have hfirst : ∀ o ∈ ([] ++ [] ++ [.applyDirectBatch 3 [⟨[1], some [7]⟩, ⟨[2], none⟩]] : List Op),
      o.NonCollapsing := by decide
  have hrest : ∀ o ∈ ([.applyDirectBatch 5 [⟨[1], some [8]⟩], .gc 9 3 ⟨⟨4, 4⟩, false⟩] : List Op),
      o.NonCollapsing := by decide
  have hsp : ∀ o ∈ ([.applyDirectBatch 5 [⟨[1], some [8]⟩], .gc 9 3 ⟨⟨4, 4⟩, false⟩] : List Op),
      ∀ sp options, o.effect = .collect sp options → sp ≤ 3 := by
    simp only [List.forall_mem_cons]
    refine ⟨?_, ?_, by simp⟩ <;> rintro sp options ⟨⟩
    exact le_rfl
  have hread := (committed_history_append_only [] [] _ hfirst).2.2 3 _ hrest hsp
  exact ⟨hread [1] (some [7]) ⟨by decide +kernel, .inr ⟨[], _, rfl, by simp⟩⟩,
    hread [2] none ⟨by decide +kernel, .inr ⟨[], _, rfl, by simp⟩⟩⟩

/-! Guards on versions. -/

/-- A write to a key in the course of a run: above all versions from before, and
not above the latest one after. -/
theorem Wrote.between {b : InMemoryBackend} {mid : List Op} {k : Key} {c : Timestamp}
    {z : Step InMemoryBackend Op Result} (hgc : ∀ o ∈ mid, o.NonCollapsing)
    (hz : z ∈ trace Op.exec b mid) (hw : Wrote z k c) :
    (∀ t ∈ dom (b.history k), t < c) ∧ Reaches (final Op.exec b mid) k c := by
  obtain ⟨before, op, after, rfl, rfl⟩ := (mem_trace Op.exec).mp hz
  obtain ⟨hbefore, hrest⟩ := List.forall_mem_append.mp hgc
  obtain ⟨-, hafter⟩ := List.forall_mem_cons.mp hrest
  constructor
  · intro t ht
    have hreach : Reaches (final Op.exec b before) k t := Reaches.run hbefore ⟨t, ht, le_rfl⟩
    exact hreach.lt hw.spec.1
  · rw [final_append]
    show Reaches (final Op.exec (op.exec (final Op.exec b before)).2 after) k c
    exact Reaches.run hafter hw.reaches

/-- A guarded batch that passes with the version read before: since the read
nothing was written to the key, and no intent is on it. -/
theorem version_guard_aba_free {pre mid : List Op} {k : Key} {r commitTs : Timestamp}
    {x : Option (Timestamp × Option Value)} {guards : List ReadGuard} {writes : List PhysicalWrite}
    (hgc : ∀ o ∈ mid, o.NonCollapsing)
    (hread : ((Op.readWithVersion k r).exec (stateAfter pre)).1 = .readWithVersion (.ok x))
    (hguard : ReadGuard.expectedVersion k r (x.map (·.1)) ∈ guards)
    (hok : ((Op.applyGuardedBatch commitTs guards writes).exec
      (stateAfter (pre ++ .readWithVersion k r :: mid))).1.isOk = true) :
    (∀ z ∈ trace Op.exec (stateAfter (pre ++ [.readWithVersion k r])) mid, ∀ c, ¬ Wrote z k c) ∧
      (stateAfter (pre ++ .readWithVersion k r :: mid)).getIntent k = none := by
  have hafter : stateAfter (pre ++ [.readWithVersion k r]) = stateAfter pre :=
    stateAfter_append pre [.readWithVersion k r]
  have hend : stateAfter (pre ++ .readWithVersion k r :: mid) =
      final Op.exec (stateAfter pre) mid := stateAfter_append pre (.readWithVersion k r :: mid)
  have ha := exec_ok _ hok
  obtain ⟨-, hfree, hle, hverdict⟩ := Writes.guards ha _ hguard
  refine ⟨?_, hfree⟩
  intro z hz c hw
  rw [hafter] at hz
  rw [hend] at hle hverdict
  obtain ⟨hold, t, ht, hct⟩ := Wrote.between hgc hz hw
  -- the version visible to the guard is the one visible to the read
  have hsame : ((final Op.exec (stateAfter pre) mid).getVisibleCommitted k r).map (·.commitTs) =
      ((stateAfter pre).getVisibleCommitted k r).map (·.commitTs) := by
    have hx : ((stateAfter pre).getVisibleCommitted k r).map (fun v => (v.commitTs, v.value)) = x := by
      injection hread with h
      injection h
    rw [← hx] at hverdict
    simpa [ReadGuard.verdict, ReadGuard.key, ReadGuard.readTs, Function.comp_def] using hverdict
  obtain ⟨u, hu⟩ := exists_visible ht (hle t ht)
  have hcu : c ≤ u := hct.trans (hu.2 ⟨ht, hle t ht⟩)
  obtain ⟨y, hy⟩ := mem_dom.mp hu.1.1
  have hfound : (final Op.exec (stateAfter pre) mid).getVisibleCommitted k r = some ⟨k, u, y⟩ :=
    InMemoryBackend.getVisibleCommitted_eq_some.mpr ⟨rfl, hu, hy⟩
  rw [hfound, Option.map_some] at hsame
  obtain ⟨v, hv, rfl⟩ := Option.map_eq_some_iff.mp hsame.symm
  have hmem := (InMemoryBackend.getVisibleCommitted_eq_some.mp hv).2.1.1.1
  exact absurd (hold v.commitTs hmem) hcu.not_gt

/-- The version read at 5 is still there for the guard, after a write to another
key and a collection. -/
theorem version_guard_aba_free_other_key :
    let pre : List Op := [.applyDirectBatch 3 [⟨[1], some [7]⟩]]
    let mid : List Op := [.applyDirectBatch 4 [⟨[2], some [8]⟩], .gc 9 4 ⟨⟨3, 3⟩, false⟩]
    (∀ z ∈ trace Op.exec (stateAfter (pre ++ [.readWithVersion [1] 5])) mid, ∀ c,
        ¬ Wrote z [1] c) ∧
      (stateAfter (pre ++ .readWithVersion [1] 5 :: mid)).getIntent [1] = none := by
  intro pre mid
  have hread : ((Op.readWithVersion [1] 5).exec (stateAfter pre)).1 =
      .readWithVersion (.ok (some (3, some [7]))) := by
    show Result.readWithVersion ((readWithVersion [1] 5).run (stateAfter pre)).1 = _
    congr 1
  have hok : ((Op.applyGuardedBatch 6 [.expectedVersion [1] 5 (some 3)] [⟨[1], some [9]⟩]).exec
      (stateAfter (pre ++ .readWithVersion [1] 5 :: mid))).1.isOk = true := by decide +kernel
  exact version_guard_aba_free (by decide) hread (by simp) hok

end NexirMvcc
