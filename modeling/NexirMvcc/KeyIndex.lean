import NexirMvcc.GcPass
import NexirMvcc.Foundation.KeyOrder

/- The in-memory backend's redundant views of its data. The key set is kept by
   hand in every method that writes; `Mutator` lists these methods with their
   arguments, and whatever is called in whatever order, the set holds exactly the
   keys with a version or an intent. The lookups are range queries of different
   shapes over one map of `(key, ts)` entries; all of them answer from the list
   `get_committed_versions` returns.

   What is proved:
     1. `keys_exact` — after any sequence of mutators the key set is exact, every
        intent is stored under its own key, `all_keys` is ascending and complete,
        and `keys_from` is a page of it.
     2. `lookups_agree` — in every state and for every key, the latest version, the
        visible version and the older timestamps are read off the list of all the
        key's versions, which ascends in the timestamps. -/
namespace NexirMvcc
open VersionHistory

/-- The methods of the trait that write, with their arguments. -/
inductive Mutator where
  | putIntent (intent : Intent)
  | removeIntent (key : Key) (txnId : TxnId) (startTs : Timestamp)
  | putCommitted (version : CommittedVersion)
  | putCommittedBatch (versions : List CommittedVersion)
  | removeCommittedVersion (key : Key) (commitTs : Timestamp)
  | putIntentsBatch (intents : List Intent)
  | commitIntentsBatch (commits : List CommittedVersion)
      (removedIntents : List (Key × TxnId × Timestamp))
  | removeIntentsBatch (intents : List (Key × TxnId × Timestamp))
  | collapseTombstone (key : Key) (tombstoneTs : Timestamp) (olderTs : List Timestamp)

/-- What a mutator makes of a state. -/
def Mutator.apply (b : InMemoryBackend) : Mutator → InMemoryBackend
  | .putIntent intent => b.putIntent intent
  | .removeIntent key txnId startTs => (b.removeIntent key txnId startTs).2
  | .putCommitted version => b.putCommitted version
  | .putCommittedBatch versions => b.putCommittedBatch versions
  | .removeCommittedVersion key commitTs => b.removeCommittedVersion key commitTs
  | .putIntentsBatch intents => b.putIntentsBatch intents
  | .commitIntentsBatch commits removedIntents => b.commitIntentsBatch commits removedIntents
  | .removeIntentsBatch intents => b.removeIntentsBatch intents
  | .collapseTombstone key tombstoneTs olderTs => b.collapseTombstone key tombstoneTs olderTs

theorem Mutator.apply_wf {b : InMemoryBackend} (hb : b.Wf) (m : Mutator) : (m.apply b).Wf := by
  cases m with
  | putIntent i => exact hb.putIntent i
  | removeIntent key txnId startTs => exact hb.removeIntent key txnId startTs
  | putCommitted v => exact hb.putCommitted v
  | putCommittedBatch vs => exact hb.putCommittedBatch vs
  | removeCommittedVersion key ts => exact hb.removeCommittedVersion key ts
  | putIntentsBatch is => exact hb.putIntentsBatch is
  | commitIntentsBatch vs is => exact (hb.putCommittedBatch vs).removeIntentsBatch is
  | removeIntentsBatch is => exact hb.removeIntentsBatch is
  | collapseTombstone key ts older => exact hb.collapseTombstone key ts older

theorem foldl_apply_wf {b : InMemoryBackend} (hb : b.Wf) (ms : List Mutator) :
    (ms.foldl Mutator.apply b).Wf := by
  induction ms generalizing b with
  | nil => exact hb
  | cons m ms ih => exact ih (m.apply_wf hb)

namespace InMemoryBackend

/-- The key has a committed version or an intent. -/
def Live (b : InMemoryBackend) (k : Key) : Prop :=
  (∃ (ts : Timestamp) (value : Option Value), b.committed[toLex (k, ts)]? = some value) ∨
    ∃ i, b.intents[k]? = some i

theorem Wf.mem_allKeysSet {b : InMemoryBackend} (hb : b.Wf) {k : Key} :
    k ∈ b.allKeysSet ↔ b.Live k := by
  rw [hb.keys, Option.isSome_iff_exists]
  simp only [mem_dom]
  rfl

end InMemoryBackend

/-- The key set is exact after any sequence of mutators. -/
theorem keys_exact (ms : List Mutator) :
    let b := ms.foldl Mutator.apply .new
    (∀ k, k ∈ b.allKeysSet ↔ b.Live k) ∧
    (∀ (k : Key) (i : Intent), b.intents[k]? = some i → i.key = k) ∧
    (b.allKeys.Pairwise (· < ·) ∧ ∀ k, k ∈ b.allKeys ↔ b.Live k) ∧
    ∀ start limit, ∃ ks : List Key, ks.Pairwise (· < ·) ∧
      (∀ k, k ∈ ks ↔ b.Live k ∧ ∀ s, start = some s → s ≤ k) ∧
      b.keysFrom start limit = ks.take limit := by
  intro b
  have hb : b.Wf := foldl_apply_wf InMemoryBackend.wf_new ms
  refine ⟨fun k => hb.mem_allKeysSet, hb.intentKey, ⟨OrderedSet.toList_sorted _, ?_⟩, ?_⟩
  · intro k
    rw [InMemoryBackend.allKeys, Std.ExtTreeSet.mem_toList, hb.mem_allKeysSet]
  · intro start limit
    refine ⟨b.keysAt start, b.keysAt_sorted start, ?_, InMemoryBackend.keysFrom_eq⟩
    intro k
    rw [InMemoryBackend.mem_keysAt, hb.mem_allKeysSet]

/-! Lookups. -/

namespace InMemoryBackend
variable {b : InMemoryBackend} {key : Key}

/-- From `(key, 0)` on, the entries of `key` stand before all others. -/
theorem rangeFrom_lowest (b : InMemoryBackend) (key : Key) :
    (b.committed.rangeFrom (lowest key)).Pairwise
      (fun x y => (ofLex y.1).1 = key → (ofLex x.1).1 = key) := by
  refine List.Pairwise.imp_of_mem ?_ (OrderedMap.between_sorted b.committed _)
  rintro ⟨a, x⟩ ⟨a', x'⟩ hm - hlt hkey
  obtain ⟨k, t, rfl⟩ := exists_toLex a
  obtain ⟨k', t', rfl⟩ := exists_toLex a'
  obtain rfl : k' = key := hkey
  have hlow : lowest k' ≤ toLex (k, t) := by
    simpa using (OrderedMap.mem_between.mp hm).2
  have hlt' : toLex (k, t) < toLex (k', t') := hlt
  exact (range_incl.mp ⟨hlow, hlt'.le⟩).1

theorem getCommittedVersions_eq :
    b.getCommittedVersions key = ((b.committed.rangeFrom (lowest key)).filter
      (fun e => (ofLex e.1).1 = key)).map fun e => ⟨(ofLex e.1).1, (ofLex e.1).2, e.2⟩ := by
  unfold getCommittedVersions
  rw [KeyOrder.takeWhile_eq_filter]
  simpa using b.rangeFrom_lowest key

theorem mem_getCommittedVersions {v : CommittedVersion} :
    v ∈ b.getCommittedVersions key ↔ v.key = key ∧ b.history key v.commitTs = some v.value := by
  rw [getCommittedVersions_eq, List.mem_map]
  constructor
  · rintro ⟨⟨a, x⟩, hm, rfl⟩
    obtain ⟨k, t, rfl⟩ := exists_toLex a
    obtain ⟨hm, hk⟩ := List.mem_filter.mp hm
    obtain rfl : k = key := of_decide_eq_true hk
    exact ⟨rfl, (OrderedMap.mem_between.mp hm).1⟩
  · rintro ⟨rfl, hv⟩
    refine ⟨(toLex (v.key, v.commitTs), v.value), ?_, rfl⟩
    have hlow : lowest v.key ≤ toLex (v.key, v.commitTs) := (range_incl.mpr ⟨rfl, le_refl _⟩).1
    refine List.mem_filter.mpr ⟨OrderedMap.mem_between.mpr ⟨hv, ?_⟩, ?_⟩
    · simpa using hlow
    · simp

theorem getCommittedVersions_sorted (b : InMemoryBackend) (key : Key) :
    (b.getCommittedVersions key).Pairwise (fun v w => v.commitTs < w.commitTs) := by
  rw [getCommittedVersions_eq, List.pairwise_map]
  refine List.Pairwise.imp_of_mem ?_ ((OrderedMap.between_sorted b.committed _).filter _)
  rintro ⟨a, x⟩ ⟨a', x'⟩ hm hm' hlt
  obtain ⟨k, t, rfl⟩ := exists_toLex a
  obtain ⟨k', t', rfl⟩ := exists_toLex a'
  obtain rfl : k = key := of_decide_eq_true (List.mem_filter.mp hm).2
  obtain rfl : k' = k := of_decide_eq_true (List.mem_filter.mp hm').2
  have := toLex_lt_toLex.mp hlt
  simpa using this

/-- The version visible at `ts` is the last one listed at or before it. -/
theorem getVisibleCommitted_eq_getLast? (ts : Timestamp) :
    b.getVisibleCommitted key ts =
      ((b.getCommittedVersions key).filter (·.commitTs ≤ ts)).getLast? := by
  have hs := (b.getCommittedVersions_sorted key).filter (·.commitTs ≤ ts)
  ext v
  rw [getVisibleCommitted_eq_some, KeyOrder.getLast?_eq_some_iff_of_sorted hs]
  simp only [List.mem_filter, mem_getCommittedVersions, decide_eq_true_eq]
  constructor
  · rintro ⟨hk, ⟨⟨-, hle⟩, hmax⟩, hv⟩
    refine ⟨⟨⟨hk, hv⟩, hle⟩, ?_⟩
    rintro w ⟨⟨-, hw⟩, hle'⟩
    exact hmax ⟨mem_dom.mpr ⟨_, hw⟩, hle'⟩
  · rintro ⟨⟨⟨hk, hv⟩, hle⟩, hmax⟩
    refine ⟨hk, ⟨⟨mem_dom.mpr ⟨_, hv⟩, hle⟩, ?_⟩, hv⟩
    rintro u ⟨hu, hle'⟩
    obtain ⟨x, hx⟩ := mem_dom.mp hu
    exact hmax ⟨key, u, x⟩ ⟨⟨rfl, hx⟩, hle'⟩

theorem getLatestCommitted_eq_getLast? :
    b.getLatestCommitted key = (b.getCommittedVersions key).getLast? := by
  rw [getLatestCommitted_eq, getVisibleCommitted_eq_getLast?, List.filter_eq_self.mpr]
  intro v _
  simpa using le_maxTs v.commitTs

/-- The older timestamps are those listed before `ts`, newest first. -/
theorem olderThan_eq (ts : Timestamp) :
    b.olderThan key ts =
      (((b.getCommittedVersions key).map (·.commitTs)).filter (· < ts)).reverse := by
  have hs : (((b.getCommittedVersions key).map (·.commitTs)).filter (· < ts)).reverse.Pairwise
      (· > ·) := by
    rw [List.pairwise_reverse]
    exact (List.pairwise_map.mpr (b.getCommittedVersions_sorted key)).filter _
  refine (b.olderThan_sorted key ts).eq_of_mem_iff hs ?_
  intro u
  rw [mem_olderThan, List.mem_reverse, List.mem_filter, List.mem_map, decide_eq_true_eq, mem_dom]
  constructor
  · rintro ⟨⟨x, hx⟩, hu⟩
    exact ⟨⟨⟨key, u, x⟩, mem_getCommittedVersions.mpr ⟨rfl, hx⟩, rfl⟩, hu⟩
  · rintro ⟨⟨v, hv, rfl⟩, hu⟩
    exact ⟨⟨v.value, (mem_getCommittedVersions.mp hv).2⟩, hu⟩

end InMemoryBackend

/-- The fast lookups agree with the list of a key's versions. -/
theorem lookups_agree (b : InMemoryBackend) (key : Key) :
    let versions := b.getCommittedVersions key
    (∀ v, v ∈ versions ↔ v.key = key ∧ b.committed[toLex (key, v.commitTs)]? = some v.value) ∧
    versions.Pairwise (fun v w => v.commitTs < w.commitTs) ∧
    b.getLatestCommitted key = versions.getLast? ∧
    b.getLatestCommitTs key = versions.getLast?.map (·.commitTs) ∧
    (∀ ts, b.getVisibleCommitted key ts = (versions.filter (·.commitTs ≤ ts)).getLast?) ∧
    ∀ ts limit, b.getCommittedTimestampsBefore key ts limit =
      ((versions.map (·.commitTs)).filter (· < ts)).reverse.take limit := by
  intro versions
  refine ⟨fun v => InMemoryBackend.mem_getCommittedVersions, b.getCommittedVersions_sorted key,
    InMemoryBackend.getLatestCommitted_eq_getLast?, ?_,
    InMemoryBackend.getVisibleCommitted_eq_getLast?, ?_⟩
  · rw [← InMemoryBackend.getLatestCommitted_eq_getLast?]
    rfl
  · intro ts limit
    rw [InMemoryBackend.getCommittedTimestampsBefore_eq, InMemoryBackend.olderThan_eq]

end NexirMvcc
