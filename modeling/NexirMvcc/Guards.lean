import NexirMvcc.Batches
import NexirMvcc.KeyIndex

/- Guarded batches. A guard is checked against the version visible at its read
   timestamp, after a check that nothing newer exists; the two together compare
   with the latest version, so a guarded batch is a compare-and-swap on the latest
   versions followed by a direct batch (`guarded_is_compare_and_swap`).

   A guard on a version takes a tombstone for a version, and a collapsed tombstone
   is gone at every timestamp. So a collapse is seen also above the safe point, by
   `read_with_version` and by guards on versions: on the collapsed key, and on no
   other (`collapse_seen_on_collapsed`). -/
namespace NexirMvcc
open VersionHistory CallTree

/-- The guard's expectation, of the latest version of its key. -/
def ReadGuard.Matches (latest : Option CommittedVersion) : ReadGuard → Prop
  | .expectedVersion _ _ expected => latest.map (·.commitTs) = expected
  | .expectedValue _ _ expected => latest.bind (·.value) = expected

section
variable {b b' : InMemoryBackend} {commitTs : Timestamp}

theorem ReadGuard.verdict_eq_ok {g : ReadGuard} {visible : Option CommittedVersion} :
    g.verdict visible = .ok () ↔ g.Matches visible := by
  cases g <;> simp [ReadGuard.verdict, ReadGuard.Matches]

/-- Where no version is above `r`, the visible version is the latest. -/
theorem visible_eq_latest {key : Key} {r : Timestamp} (h : ∀ t ∈ dom (b.history key), t ≤ r) :
    b.getVisibleCommitted key r = b.getLatestCommitted key := by
  rw [InMemoryBackend.getVisibleCommitted_eq_getLast?,
    InMemoryBackend.getLatestCommitted_eq_getLast?, List.filter_eq_self.mpr]
  intro v hv
  have hmem := (InMemoryBackend.mem_getCommittedVersions.mp hv).2
  simpa using h v.commitTs (mem_dom.mpr ⟨_, hmem⟩)

theorem forall_versions_le {key : Key} {r : Timestamp} :
    (∀ v ∈ b.getCommittedVersions key, v.commitTs ≤ r) ↔ ∀ t ∈ dom (b.history key), t ≤ r := by
  constructor
  · intro h t ht
    obtain ⟨x, hx⟩ := mem_dom.mp ht
    exact h ⟨key, t, x⟩ (InMemoryBackend.mem_getCommittedVersions.mpr ⟨rfl, hx⟩)
  · intro h v hv
    exact h v.commitTs (mem_dom.mpr ⟨_, (InMemoryBackend.mem_getCommittedVersions.mp hv).2⟩)

theorem ReadGuard.holds_iff {g : ReadGuard} :
    g.Holds b commitTs ↔ g.readTs < commitTs ∧ b.getIntent g.key = none ∧
      (∀ v ∈ b.getCommittedVersions g.key, v.commitTs ≤ g.readTs) ∧
      g.Matches (b.getLatestCommitted g.key) := by
  unfold ReadGuard.Holds
  refine and_congr_right fun _ => and_congr_right fun _ => ?_
  rw [forall_versions_le]
  refine and_congr_right fun hle => ?_
  rw [visible_eq_latest hle, ReadGuard.verdict_eq_ok]

end

/-- A guarded batch compares the latest versions and then writes as a direct batch
does; the order of its guards and writes does not decide whether it succeeds. -/
theorem guarded_is_compare_and_swap (b : InMemoryBackend) (commitTs : Timestamp)
    (guards : List ReadGuard) (writes : List PhysicalWrite) :
    (((applyGuardedBatch commitTs guards writes).run b).1.isOk = true ↔
      guards ≠ [] ∧ ((applyDirectBatch commitTs writes).run b).1.isOk = true ∧
      ∀ g ∈ guards, g.readTs < commitTs ∧ b.getIntent g.key = none ∧
        (∀ v ∈ b.getCommittedVersions g.key, v.commitTs ≤ g.readTs) ∧
        g.Matches (b.getLatestCommitted g.key)) ∧
    (((applyGuardedBatch commitTs guards writes).run b).1.isOk = true →
      ((applyGuardedBatch commitTs guards writes).run b).2 =
        ((applyDirectBatch commitTs writes).run b).2) ∧
    ∀ guards' writes', guards.Perm guards' → writes.Perm writes' →
      ((applyGuardedBatch commitTs guards' writes').run b).1.isOk =
        ((applyGuardedBatch commitTs guards writes).run b).1.isOk := by
  have hguarded : ∀ gs ws, ((applyGuardedBatch commitTs gs ws).run b).1.isOk = true ↔ _ :=
    fun gs ws => @applyGuardedBatch_isOk b commitTs gs ws
  have hdirect : ((applyDirectBatch commitTs writes).run b).1.isOk = true ↔ _ :=
    @applyDirectBatch_isOk b commitTs writes
  refine ⟨?_, ?_, ?_⟩
  · simp only [hguarded, hdirect, ← ReadGuard.holds_iff]
    constructor
    · rintro ⟨hne, hgne, hnd, hg, hw⟩
      exact ⟨hgne, ⟨hne, hnd, hw⟩, hg⟩
    · rintro ⟨hgne, ⟨hne, hnd, hw⟩, hg⟩
      exact ⟨hne, hgne, hnd, hg, hw⟩
  · intro h
    obtain ⟨b₁, hrun⟩ := (run_isOk _).mp h
    obtain ⟨hne, -, hnd, -, hw, rfl⟩ := applyGuardedBatch_ok.mp hrun
    rw [hrun, applyDirectBatch_ok.mpr ⟨hne, hnd, hw, rfl⟩]
  · intro guards' writes' hg hw
    rw [Bool.eq_iff_iff, hguarded, hguarded]
    -- each condition is about the members of the lists
    have hkeys : (writes'.map (·.key)).Nodup ↔ (writes.map (·.key)).Nodup :=
      (hw.map _).nodup_iff.symm
    simp only [ne_eq, ← List.isEmpty_iff, hg.isEmpty_eq, hw.isEmpty_eq, hkeys, hg.mem_iff, hw.mem_iff]

/-- Two guards on a deleted key, one on its version and one on its value, in either
order. -/
theorem guarded_is_compare_and_swap_deleted_key :
    let b := stateAfter [.applyDirectBatch 3 [⟨[1], none⟩]]
    let guards : List ReadGuard := [.expectedVersion [1] 5 (some 3), .expectedValue [1] 3 none]
    let writes : List PhysicalWrite := [⟨[1], some [7]⟩, ⟨[2], none⟩]
    ((applyGuardedBatch 6 guards writes).run b).2 = ((applyDirectBatch 6 writes).run b).2 ∧
    ((applyGuardedBatch 6 guards.reverse writes.reverse).run b).1.isOk = true := by
  intro b guards writes
  have hok : ((applyGuardedBatch 6 guards writes).run b).1.isOk = true := by decide +kernel
  have hcas := guarded_is_compare_and_swap b 6 guards writes
  refine ⟨hcas.2.1 hok, ?_⟩
  rw [hcas.2.2 _ _ (List.reverse_perm guards).symm (List.reverse_perm writes).symm, hok]

/-! Collapsed keys. -/

/-- Between `b` and `b'` the key's final tombstone at or below `sp` was collapsed. -/
def Collapsed (sp : Timestamp) (b b' : InMemoryBackend) (k : Key) : Prop :=
  (∃ t ≤ sp, b.getLatestCommitted k = some ⟨k, t, none⟩) ∧ b.getIntent k = none ∧
    b'.getCommittedVersions k = []

section
variable {sp : Timestamp} {collapse : Bool} {b b' : InMemoryBackend} {k : Key}

theorem getLatestCommitted_of_latest {t : Timestamp} {x : Option Value}
    (hl : Latest (b.history k) t) (hx : b.history k t = some x) :
    b.getLatestCommitted k = some ⟨k, t, x⟩ :=
  InMemoryBackend.getVisibleCommitted_eq_some.mpr
    ⟨rfl, hl.visible (InMemoryBackend.le_maxTs t), hx⟩

theorem getCommittedVersions_eq_nil :
    b.getCommittedVersions k = [] ↔ ∀ t, b.history k t = none := by
  rw [List.eq_nil_iff_forall_not_mem]
  constructor
  · intro h t
    by_contra ht
    obtain ⟨x, hx⟩ := Option.ne_none_iff_exists'.mp ht
    exact h ⟨k, t, x⟩ (InMemoryBackend.mem_getCommittedVersions.mpr ⟨rfl, hx⟩)
  · intro h v hv
    have hx := (InMemoryBackend.mem_getCommittedVersions.mp hv).2
    rw [h] at hx
    cases hx

/-- A key that a collection has not collapsed has its history pruned. -/
theorem GcRel.pruned_or_collapsed (h : GcRel sp collapse b b') (k : Key) :
    Pruned {sp} (b.history k) (b'.history k) ∨ Collapsed sp b b' k := by
  rcases h.histories k with hp | ⟨⟨-, hi⟩, ⟨t, ht, hl, hx⟩, hn⟩
  · exact .inl hp
  · exact .inr ⟨⟨t, ht, getLatestCommitted_of_latest hl hx⟩, hi, getCommittedVersions_eq_nil.mpr hn⟩

/-- Above the safe point a collection changes no latest timestamp. -/
theorem GcRel.sameFrom (h : GcRel sp collapse b b') {ts : Timestamp} (hts : sp < ts) (k : Key) :
    SameFrom ts k b b' := by
  have hsim : Sim (ReadAlike [sp]) b b' := by
    refine ⟨fun k => (h.intents k).symm, fun k => ⟨fun t ht => ?_, fun r x hr => ?_⟩⟩
    · exact ((h.histories k).eq_above (ht sp (by simp))).symm
    · exact (h.histories k).reads_iff (hr sp (by simp))
  exact hsim.sameFrom_above (by simpa using hts) k

theorem GcRel.sameGuard (h : GcRel sp collapse b b') {g : ReadGuard} (hr : sp < g.readTs)
    (hc : ¬ Collapsed sp b b' g.key) : SameGuard g b b' := by
  refine ⟨h.sameFrom hr g.key, fun _ => ?_⟩
  rw [visible_eq_of_pruned ((h.pruned_or_collapsed g.key).resolve_right hc) hr.le]

/-- A guard above the commit timestamp fails before anything is looked up. -/
theorem applyGuardedBatch_early {commitTs : Timestamp} {gs : List ReadGuard}
    {ws : List PhysicalWrite} (h : ∀ g ∈ gs, commitTs ≤ g.readTs) :
    ((applyGuardedBatch commitTs gs ws).run b).1 = ((applyGuardedBatch commitTs gs ws).run b').1 := by
  unfold applyGuardedBatch
  split
  · rfl
  · rcases gs with _ | ⟨g, gs⟩
    · rfl
    · rw [if_neg (by simp)]
      apply rejectDuplicates_congr
      unfold checkGuards
      rw [if_pos (h g List.mem_cons_self)]
      rfl

/-- A guarded batch whose guards are above the safe point and on keys that were not
collapsed returns the same. -/
theorem GcRel.applyGuardedBatch_eq (h : GcRel sp collapse b b') {commitTs : Timestamp}
    {gs : List ReadGuard} {ws : List PhysicalWrite} (hr : ∀ g ∈ gs, sp < g.readTs)
    (hc : ∀ g ∈ gs, ¬ Collapsed sp b b' g.key) :
    ((applyGuardedBatch commitTs gs ws).run b').1 = ((applyGuardedBatch commitTs gs ws).run b).1 := by
  rcases le_or_gt commitTs sp with hle | hlt
  · exact applyGuardedBatch_early fun g hg => hle.trans (hr g hg).le
  · refine (applyGuardedBatch_congr (fun g hg => ?_) (fun w _ => ?_)).symm
    · exact h.sameGuard (hr g hg) (hc g hg)
    · exact h.sameFrom hlt w.key

end

/-- A collection is seen above the safe point on the keys it has collapsed, where
the version read vanishes, and on no other key. -/
theorem collapse_seen_on_collapsed {sp : Timestamp} {options : GcOptions} (hm : BelowMax options)
    {op : Op} (hop : (∃ cursor, op = .gcIncremental sp cursor options) ∨
      ∃ fuel, op = .gc fuel sp options) (b : InMemoryBackend) :
    let b' := (op.exec b).2
    (∀ k r, sp < r → ¬ Collapsed sp b b' k →
      ((readWithVersion k r).run b').1 = ((readWithVersion k r).run b).1) ∧
    (∀ k r, sp < r → Collapsed sp b b' k → ∃ t ≤ sp,
      ((readWithVersion k r).run b).1 = .ok (some (t, none)) ∧
      ((readWithVersion k r).run b').1 = .ok none) ∧
    ∀ commitTs guards writes,
      (∀ g ∈ guards, g.isExpectedValue = false ∧ sp < g.readTs ∧ ¬ Collapsed sp b b' g.key) →
      ((applyGuardedBatch commitTs guards writes).run b').1 =
        ((applyGuardedBatch commitTs guards writes).run b).1 := by
  intro b'
  have heff : op.effect = .collect sp options := by
    rcases hop with ⟨cursor, rfl⟩ | ⟨fuel, rfl⟩ <;> rfl
  have hrel : GcRel sp options.collapseFinalTombstones b b' := (exec_collects heff b).2 hm.keepsContract
  refine ⟨?_, ?_, ?_⟩
  · intro k r hr hc
    rw [readWithVersion_run, readWithVersion_run,
      visible_eq_of_pruned ((hrel.pruned_or_collapsed k).resolve_right hc) hr.le]
  · rintro k r hr ⟨⟨t, ht, hlat⟩, -, hnil⟩
    refine ⟨t, ht, ?_, ?_⟩
    · have hv := InMemoryBackend.getVisibleCommitted_eq_some.mp hlat
      have hle : ∀ u ∈ dom (b.history k), u ≤ r := fun u hu =>
        (hv.2.1.2 ⟨hu, InMemoryBackend.le_maxTs u⟩).trans (ht.trans hr.le)
      rw [readWithVersion_run, visible_eq_latest hle, hlat]
      rfl
    · have hnone := getCommittedVersions_eq_nil.mp hnil
      rw [readWithVersion_run, InMemoryBackend.getVisibleCommitted_eq_none.mpr fun u _ => hnone u]
      rfl
  · intro commitTs guards writes hg
    exact hrel.applyGuardedBatch_eq (fun g hmem => (hg g hmem).2.1) fun g hmem => (hg g hmem).2.2

/-- One key is collapsed beside a key that is only pruned. -/
theorem collapse_seen_on_collapsed_two_keys :
    let b := stateAfter [.applyDirectBatch 1 [⟨[2], some [7]⟩],
      .applyDirectBatch 2 [⟨[1], none⟩, ⟨[2], some [8]⟩]]
    let b' := ((Op.gcIncremental 2 none ⟨⟨5, 5⟩, true⟩).exec b).2
    (∃ t ≤ (2 : Timestamp), ((readWithVersion [1] 3).run b).1 = .ok (some (t, none)) ∧
      ((readWithVersion [1] 3).run b').1 = .ok none) ∧
    ((readWithVersion [2] 3).run b').1 = ((readWithVersion [2] 3).run b).1 ∧
    ((applyGuardedBatch 4 [.expectedVersion [2] 3 (some 2)] [⟨[1], some [9]⟩]).run b').1 =
      ((applyGuardedBatch 4 [.expectedVersion [2] 3 (some 2)] [⟨[1], some [9]⟩]).run b).1 := by
  intro b b'
  have hgone : Collapsed 2 b b' [1] :=
    ⟨⟨2, le_rfl, by decide +kernel⟩, by decide +kernel, by decide +kernel⟩
  have hstays : ¬ Collapsed 2 b b' [2] := fun hc => absurd hc.2.2 (by decide +kernel)
  have hseen := @collapse_seen_on_collapsed 2 ⟨⟨5, 5⟩, true⟩ ⟨by decide, by decide⟩ _
    (.inl ⟨none, rfl⟩) b
  refine ⟨hseen.2.1 [1] 3 (by decide) hgone, hseen.1 [2] 3 (by decide) hstays, ?_⟩
  refine hseen.2.2 4 _ _ ?_
  intro g hg
  obtain rfl := List.mem_singleton.mp hg
  exact ⟨rfl, by decide, hstays⟩

/-- A key deleted at 2 and collapsed at safe point 2: at 3 its version is gone, and a
guard that held fails. -/
theorem collapse_seen_above_safe_point :
    let b := stateAfter [.applyDirectBatch 2 [⟨[1], none⟩]]
    let b' := ((gcIncremental 2 none ⟨⟨5, 5⟩, true⟩).run b).2
    (((readWithVersion [1] 3).run b).1 = .ok (some (2, none)) ∧
      ((readWithVersion [1] 3).run b').1 = .ok none) ∧
    ((applyGuardedBatch 4 [.expectedVersion [1] 3 (some 2)] [⟨[2], none⟩]).run b).1 = .ok () ∧
    ((applyGuardedBatch 4 [.expectedVersion [1] 3 (some 2)] [⟨[2], none⟩]).run b').1 =
      .error (.guardFailedVersionMismatch [1] (some 2) none) := by
  decide +kernel

end NexirMvcc
