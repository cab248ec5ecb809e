import NexirMvcc.Lookup

/- The updates of the in-memory backend, as seen through the histories and the
   intents of single keys, and its representation invariant: the key set holds
   exactly the keys with a version or an intent, and every intent is stored under
   its own key. Two states that satisfy it and agree on histories and intents are
   the same state. -/
namespace NexirMvcc
open VersionHistory

/-- The intent belongs to transaction `txnId` at `startTs`. -/
def Intent.heldBy (i : Intent) (txnId : TxnId) (startTs : Timestamp) : Prop :=
  i.txnId = txnId ∧ i.startTs = startTs

instance (i : Intent) (txnId : TxnId) (startTs : Timestamp) : Decidable (i.heldBy txnId startTs) :=
  inferInstanceAs (Decidable (_ ∧ _))

namespace InMemoryBackend
variable {b : InMemoryBackend} {key k : Key}

@[simp] theorem history_new : new.history key = fun _ => none := by
  funext t
  simp [history, new]

@[simp] theorem getIntent_new : new.getIntent key = none := by simp [getIntent, new]

/-! Forgetting a key changes the key set only. -/

@[simp] theorem committed_maybeRemoveFromKeys :
    (b.maybeRemoveFromKeys key).committed = b.committed := by
  unfold maybeRemoveFromKeys
  split
  · rfl
  · split <;> rfl

@[simp] theorem intents_maybeRemoveFromKeys :
    (b.maybeRemoveFromKeys key).intents = b.intents := by
  unfold maybeRemoveFromKeys
  split
  · rfl
  · split <;> rfl

@[simp] theorem history_maybeRemoveFromKeys :
    (b.maybeRemoveFromKeys key).history k = b.history k := by
  funext t
  simp [history]

@[simp] theorem getIntent_maybeRemoveFromKeys :
    (b.maybeRemoveFromKeys key).getIntent k = b.getIntent k := by
  simp [getIntent]

/-! Intents. -/

@[simp] theorem history_putIntent {i : Intent} : (b.putIntent i).history k = b.history k := rfl

theorem getIntent_putIntent {i : Intent} :
    (b.putIntent i).getIntent k = if i.key = k then some i else b.getIntent k := by
  simp only [getIntent, putIntent, OrderedMap.get_insert]

@[simp] theorem history_putIntentsBatch {is : List Intent} :
    (b.putIntentsBatch is).history k = b.history k := by
  unfold putIntentsBatch
  induction is generalizing b with
  | nil => rfl
  | cons i is ih => rw [List.foldl_cons, ih, history_putIntent]

theorem getIntent_putIntentsBatch_of_not_mem {is : List Intent} (h : ∀ i ∈ is, i.key ≠ k) :
    (b.putIntentsBatch is).getIntent k = b.getIntent k := by
  unfold putIntentsBatch
  induction is generalizing b with
  | nil => rfl
  | cons i is ih =>
    rw [List.foldl_cons, ih (fun j hj => h j (List.mem_cons_of_mem i hj)), getIntent_putIntent,
      if_neg (h i List.mem_cons_self)]

theorem getIntent_putIntentsBatch_of_mem {is : List Intent} (hnd : (is.map (·.key)).Nodup)
    {i : Intent} (hi : i ∈ is) : (b.putIntentsBatch is).getIntent i.key = some i := by
  induction is generalizing b with
  | nil => cases hi
  | cons j is ih =>
    simp only [List.map_cons, List.nodup_cons, List.mem_map, not_exists, not_and] at hnd
    rcases List.mem_cons.mp hi with rfl | hi
    · have hrest : ∀ j ∈ is, j.key ≠ i.key := fun j hj he => hnd.1 j hj he
      show ((b.putIntent i).putIntentsBatch is).getIntent i.key = some i
      rw [getIntent_putIntentsBatch_of_not_mem hrest, getIntent_putIntent, if_pos rfl]
    · exact ih (b := b.putIntent j) hnd.2 hi

theorem removeIntent_eq {txnId : TxnId} {startTs : Timestamp} :
    (b.removeIntent key txnId startTs).2 =
      if ∃ i, b.getIntent key = some i ∧ i.heldBy txnId startTs then
        { b with intents := b.intents.erase key }.maybeRemoveFromKeys key
      else b := by
  unfold removeIntent getIntent
  cases h : b.intents[key]? with
  | none => simp
  | some i => by_cases hm : i.txnId = txnId ∧ i.startTs = startTs <;> simp [hm, Intent.heldBy]

@[simp] theorem history_removeIntent {txnId : TxnId} {startTs : Timestamp} :
    (b.removeIntent key txnId startTs).2.history k = b.history k := by
  rw [removeIntent_eq]
  split
  · rw [history_maybeRemoveFromKeys]; rfl
  · rfl

theorem getIntent_removeIntent {txnId : TxnId} {startTs : Timestamp} :
    (b.removeIntent key txnId startTs).2.getIntent k =
      (b.getIntent k).filter (fun i => ¬ (key = k ∧ i.heldBy txnId startTs)) := by
  rw [removeIntent_eq]
  by_cases hk : key = k
  · subst hk
    split
    · next h =>
      obtain ⟨i, hi, hm⟩ := h
      rw [getIntent_maybeRemoveFromKeys, hi]
      simp [getIntent, hm, Option.filter_some]
    · next h =>
      cases hi : b.getIntent key with
      | none => rfl
      | some i =>
        have hm : ¬ i.heldBy txnId startTs := fun hm => h ⟨i, hi, hm⟩
        simp [hm, Option.filter_some]
  · have hkeep : ∀ o : Option Intent, o.filter (fun i => ¬ (key = k ∧ i.heldBy txnId startTs)) = o := by
      intro o
      cases o <;> simp [hk, Option.filter_some]
    rw [hkeep]
    split
    · rw [getIntent_maybeRemoveFromKeys]
      simp only [getIntent, OrderedMap.get_erase, if_neg hk]
    · rfl

@[simp] theorem history_removeIntentsBatch {is : List (Key × TxnId × Timestamp)} :
    (b.removeIntentsBatch is).history k = b.history k := by
  unfold removeIntentsBatch
  induction is generalizing b with
  | nil => rfl
  | cons i is ih => rw [List.foldl_cons, ih, history_removeIntent]

theorem getIntent_removeIntentsBatch {is : List (Key × TxnId × Timestamp)} :
    (b.removeIntentsBatch is).getIntent k =
      (b.getIntent k).filter (fun i => (k, i.txnId, i.startTs) ∉ is) := by
  unfold removeIntentsBatch
  induction is generalizing b with
  | nil => cases h : b.getIntent k <;> simp [h, Option.filter_some]
  | cons j is ih =>
    obtain ⟨key, txnId, startTs⟩ := j
    rw [List.foldl_cons, ih, getIntent_removeIntent, Option.filter_filter]
    congr 1
    funext i
    by_cases hk : key = k <;> simp [hk, Intent.heldBy, Prod.ext_iff, eq_comm]

/-! Committed versions. -/

/-- One entry changed is one timestamp of one key changed. -/
theorem history_change {H : Timestamp → Option (Option Value)} {t : Timestamp}
    {y : Option (Option Value)} :
    (fun ts => if toLex (key, t) = toLex (k, ts) then y else H ts) =
      if key = k then Function.update H t y else H := by
  funext ts
  by_cases hk : key = k
  · by_cases ht : t = ts
    · simp [hk, ht]
    · simp [hk, ht, Function.update_of_ne (Ne.symm ht)]
  · simp [hk]

theorem history_insert {m : OrderedMap (Key ×ₗ Timestamp) (Option Value)} {t : Timestamp}
    {x : Option Value} :
    (fun ts => (m.insert (toLex (key, t)) x)[toLex (k, ts)]?) =
      if key = k then Function.update (fun ts => m[toLex (k, ts)]?) t (some x)
      else fun ts => m[toLex (k, ts)]? := by
  simp only [OrderedMap.get_insert]
  exact history_change

theorem history_erase {m : OrderedMap (Key ×ₗ Timestamp) (Option Value)} {t : Timestamp} :
    (fun ts => (m.erase (toLex (key, t)))[toLex (k, ts)]?) =
      if key = k then Function.update (fun ts => m[toLex (k, ts)]?) t none
      else fun ts => m[toLex (k, ts)]? := by
  simp only [OrderedMap.get_erase]
  exact history_change

theorem history_putCommitted {v : CommittedVersion} :
    (b.putCommitted v).history k =
      if v.key = k then Function.update (b.history k) v.commitTs (some v.value) else b.history k :=
  history_insert

@[simp] theorem getIntent_putCommitted {v : CommittedVersion} :
    (b.putCommitted v).getIntent k = b.getIntent k := rfl

@[simp] theorem getIntent_putCommittedBatch {vs : List CommittedVersion} :
    (b.putCommittedBatch vs).getIntent k = b.getIntent k := by
  unfold putCommittedBatch
  induction vs generalizing b with
  | nil => rfl
  | cons v vs ih => rw [List.foldl_cons, ih, getIntent_putCommitted]

theorem history_putCommittedBatch_of_not_mem {vs : List CommittedVersion}
    (h : ∀ v ∈ vs, v.key ≠ k) : (b.putCommittedBatch vs).history k = b.history k := by
  unfold putCommittedBatch
  induction vs generalizing b with
  | nil => rfl
  | cons v vs ih =>
    rw [List.foldl_cons, ih (fun w hw => h w (List.mem_cons_of_mem v hw)), history_putCommitted,
      if_neg (h v List.mem_cons_self)]

theorem history_putCommittedBatch_of_mem {vs : List CommittedVersion}
    (hnd : (vs.map (·.key)).Nodup) {v : CommittedVersion} (hv : v ∈ vs) :
    (b.putCommittedBatch vs).history v.key =
      Function.update (b.history v.key) v.commitTs (some v.value) := by
  induction vs generalizing b with
  | nil => cases hv
  | cons w vs ih =>
    simp only [List.map_cons, List.nodup_cons, List.mem_map, not_exists, not_and] at hnd
    rcases List.mem_cons.mp hv with rfl | hv
    · have hrest : ∀ w ∈ vs, w.key ≠ v.key := fun w hw he => hnd.1 w hw he
      show ((b.putCommitted v).putCommittedBatch vs).history v.key = _
      rw [history_putCommittedBatch_of_not_mem hrest, history_putCommitted, if_pos rfl]
    · have hne : w.key ≠ v.key := fun he => hnd.1 v hv he.symm
      show ((b.putCommitted w).putCommittedBatch vs).history v.key = _
      rw [ih hnd.2 hv, history_putCommitted, if_neg hne]

@[simp] theorem history_commitIntentsBatch {vs : List CommittedVersion}
    {is : List (Key × TxnId × Timestamp)} :
    (b.commitIntentsBatch vs is).history k = (b.putCommittedBatch vs).history k :=
  history_removeIntentsBatch

theorem getIntent_commitIntentsBatch {vs : List CommittedVersion}
    {is : List (Key × TxnId × Timestamp)} :
    (b.commitIntentsBatch vs is).getIntent k =
      (b.getIntent k).filter (fun i => (k, i.txnId, i.startTs) ∉ is) := by
  unfold commitIntentsBatch
  rw [getIntent_removeIntentsBatch, getIntent_putCommittedBatch]

@[simp] theorem getIntent_removeCommittedVersion {t : Timestamp} :
    (b.removeCommittedVersion key t).getIntent k = b.getIntent k := by
  unfold removeCommittedVersion
  rw [getIntent_maybeRemoveFromKeys]
  rfl

theorem history_removeCommittedVersion {t : Timestamp} :
    (b.removeCommittedVersion key t).history k =
      if key = k then Function.update (b.history k) t none else b.history k := by
  unfold removeCommittedVersion
  rw [history_maybeRemoveFromKeys]
  exact history_erase

@[simp] theorem getIntent_collapseTombstone {t : Timestamp} {older : List Timestamp} :
    (b.collapseTombstone key t older).getIntent k = b.getIntent k := by
  unfold collapseTombstone
  rw [getIntent_maybeRemoveFromKeys]
  rfl

theorem history_collapseTombstone {t ts : Timestamp} {older : List Timestamp} :
    (b.collapseTombstone key t older).history k ts =
      if key = k ∧ ts ∈ t :: older then none else b.history k ts := by
  have hfold : ∀ (m : OrderedMap (Key ×ₗ Timestamp) (Option Value)),
      (older.foldl (fun m ts => m.erase (toLex (key, ts))) m)[toLex (k, ts)]? =
        if key = k ∧ ts ∈ older then none else m[toLex (k, ts)]? := by
    induction older with
    | nil => simp
    | cons u older ih =>
      intro m
      rw [List.foldl_cons, ih, OrderedMap.get_erase]
      by_cases hk : key = k <;> by_cases hu : u = ts <;> simp [hk, hu, eq_comm (a := ts)]
  unfold collapseTombstone
  rw [history_maybeRemoveFromKeys]
  unfold history
  rw [hfold, OrderedMap.get_erase]
  by_cases hk : key = k <;> by_cases hu : t = ts <;> simp [hk, hu, eq_comm (a := ts)]

theorem history_collapseTombstone_off {t : Timestamp} {older : List Timestamp} (hk : k ≠ key) :
    (b.collapseTombstone key t older).history k = b.history k := by
  funext ts
  rw [history_collapseTombstone, if_neg fun h => hk h.1.symm]

/-! The representation invariant. -/

structure Wf (b : InMemoryBackend) : Prop where
  keys : ∀ k, k ∈ b.allKeysSet ↔ (∃ t, t ∈ dom (b.history k)) ∨ (b.getIntent k).isSome
  intentKey : ∀ k i, b.getIntent k = some i → i.key = k

/-- A state is determined by its histories and intents. -/
theorem Wf.ext {b b' : InMemoryBackend} (hb : b.Wf) (hb' : b'.Wf)
    (hh : ∀ k, b.history k = b'.history k) (hi : ∀ k, b.getIntent k = b'.getIntent k) : b = b' := by
  have hc : b.committed = b'.committed := by
    apply Std.ExtTreeMap.ext_getElem?
    intro a
    obtain ⟨k, t, rfl⟩ := exists_toLex a
    exact congrFun (hh k) t
  have hin : b.intents = b'.intents := Std.ExtTreeMap.ext_getElem? hi
  have hks : b.allKeysSet = b'.allKeysSet := by
    apply Std.ExtTreeSet.ext_mem
    intro k
    rw [hb.keys, hb'.keys, hh, hi]
  cases b; cases b'
  simp_all

theorem wf_new : new.Wf := by
  constructor
  · intro k
    simp [new, history, getIntent, dom]
  · intro k i h
    simp at h

theorem range_isEmpty :
    (b.committed.rangeIncl (lowest key) (toLex (key, maxTs))).head?.isNone = true ↔
      ¬ ∃ t, t ∈ dom (b.history key) := by
  rw [Option.isNone_iff_eq_none, List.head?_eq_none_iff, OrderedMap.rangeIncl,
    OrderedMap.between_eq_nil]
  constructor
  · rintro h ⟨t, ht⟩
    obtain ⟨x, hx⟩ := mem_dom.mp ht
    have := h _ x hx
    rw [decide_eq_false_iff_not, range_incl] at this
    exact this ⟨rfl, le_maxTs t⟩
  · intro h a x hx
    obtain ⟨k', t, rfl⟩ := exists_toLex a
    rw [decide_eq_false_iff_not, range_incl]
    rintro ⟨rfl, -⟩
    exact h ⟨t, mem_dom.mpr ⟨x, hx⟩⟩

theorem mem_allKeysSet_maybeRemoveFromKeys :
    k ∈ (b.maybeRemoveFromKeys key).allKeysSet ↔
      k ∈ b.allKeysSet ∧
        (key = k → (∃ t, t ∈ dom (b.history k)) ∨ (b.getIntent k).isSome) := by
  have hint : b.intents.contains key = (b.getIntent key).isSome := by
    rw [getIntent, Std.ExtTreeMap.isSome_getElem?_eq_contains]
  unfold maybeRemoveFromKeys
  rw [hint]
  -- the key is forgotten only if it has neither an intent nor a version
  by_cases hi : (b.getIntent key).isSome = true
  · rw [if_pos hi]
    constructor
    · intro h
      refine ⟨h, ?_⟩
      rintro rfl
      exact .inr hi
    · exact fun h => h.1
  · rw [if_neg hi]
    by_cases hr : ∃ t, t ∈ dom (b.history key)
    · rw [if_neg (fun he => range_isEmpty.mp he hr)]
      constructor
      · intro h
        refine ⟨h, ?_⟩
        rintro rfl
        exact .inl hr
      · exact fun h => h.1
    · rw [if_pos (range_isEmpty.mpr hr), OrderedSet.mem_erase]
      constructor
      · rintro ⟨hne, h⟩
        exact ⟨h, fun he => absurd he hne⟩
      · rintro ⟨h, himp⟩
        refine ⟨?_, h⟩
        rintro rfl
        exact (himp rfl).elim hr hi

/-- Forgetting the key restores the invariant at the one key it may fail at. -/
theorem Wf.maybeRemoveFromKeys
    (hk : ∀ k, (∃ t, t ∈ dom (b.history k)) ∨ (b.getIntent k).isSome → k ∈ b.allKeysSet)
    (hk' : ∀ k, k ≠ key → k ∈ b.allKeysSet →
      (∃ t, t ∈ dom (b.history k)) ∨ (b.getIntent k).isSome)
    (hi : ∀ k i, b.getIntent k = some i → i.key = k) : (b.maybeRemoveFromKeys key).Wf := by
  constructor
  · intro k
    rw [mem_allKeysSet_maybeRemoveFromKeys, history_maybeRemoveFromKeys,
      getIntent_maybeRemoveFromKeys]
    constructor
    · rintro ⟨hmem, himp⟩
      by_cases he : key = k
      · exact himp he
      · exact hk' k (Ne.symm he) hmem
    · exact fun h => ⟨hk k h, fun _ => h⟩
  · intro k i h
    rw [getIntent_maybeRemoveFromKeys] at h
    exact hi k i h

theorem Wf.putIntent (hb : b.Wf) (i : Intent) : (b.putIntent i).Wf := by
  constructor
  · intro k
    rw [getIntent_putIntent, history_putIntent]
    show k ∈ b.allKeysSet.insert i.key ↔ _
    rw [OrderedSet.mem_insert, hb.keys]
    by_cases he : i.key = k <;> simp [he]
  · intro k j hj
    rw [getIntent_putIntent] at hj
    split at hj
    · next he => cases hj; exact he
    · exact hb.intentKey k j hj

theorem Wf.putIntentsBatch (hb : b.Wf) (is : List Intent) : (b.putIntentsBatch is).Wf := by
  unfold InMemoryBackend.putIntentsBatch
  induction is generalizing b with
  | nil => exact hb
  | cons i is ih => exact ih (hb.putIntent i)

theorem Wf.removeIntent (hb : b.Wf) (key : Key) (txnId : TxnId) (startTs : Timestamp) :
    (b.removeIntent key txnId startTs).2.Wf := by
  rw [removeIntent_eq]
  split
  · have hget : ∀ k, ({ b with intents := b.intents.erase key } : InMemoryBackend).getIntent k =
        if key = k then none else b.getIntent k := fun k => OrderedMap.get_erase
    have hhist : ∀ k, ({ b with intents := b.intents.erase key } : InMemoryBackend).history k =
        b.history k := fun _ => rfl
    apply Wf.maybeRemoveFromKeys
    · intro k h
      rw [hget, hhist] at h
      by_cases he : key = k
      · rw [if_pos he] at h
        exact (hb.keys k).mpr (.inl (h.resolve_right (by simp)))
      · rw [if_neg he] at h
        exact (hb.keys k).mpr h
    · intro k he h
      rw [hget, hhist, if_neg (Ne.symm he)]
      exact (hb.keys k).mp h
    · intro k i h
      rw [hget] at h
      by_cases he : key = k
      · rw [if_pos he] at h; cases h
      · rw [if_neg he] at h
        exact hb.intentKey k i h
  · exact hb

theorem Wf.removeIntentsBatch (hb : b.Wf) (is : List (Key × TxnId × Timestamp)) :
    (b.removeIntentsBatch is).Wf := by
  unfold InMemoryBackend.removeIntentsBatch
  induction is generalizing b with
  | nil => exact hb
  | cons i is ih => exact ih (hb.removeIntent i.1 i.2.1 i.2.2)

theorem Wf.putCommitted (hb : b.Wf) (v : CommittedVersion) : (b.putCommitted v).Wf := by
  constructor
  · intro k
    rw [history_putCommitted, getIntent_putCommitted]
    show k ∈ b.allKeysSet.insert v.key ↔ _
    rw [OrderedSet.mem_insert, hb.keys]
    by_cases he : v.key = k
    · simp only [he, true_or, if_true, dom_update_some, true_iff]
      exact .inl ⟨v.commitTs, by simp⟩
    · simp [he]
  · exact hb.intentKey

theorem Wf.putCommittedBatch (hb : b.Wf) (vs : List CommittedVersion) :
    (b.putCommittedBatch vs).Wf := by
  unfold InMemoryBackend.putCommittedBatch
  induction vs generalizing b with
  | nil => exact hb
  | cons v vs ih => exact ih (hb.putCommitted v)

/-- Dropping versions of `key` only and then forgetting it keeps the invariant. -/
theorem Wf.dropVersions (hb : b.Wf) {m : OrderedMap (Key ×ₗ Timestamp) (Option Value)}
    (hsub : ∀ k, dom ({ b with committed := m }.history k) ⊆ dom (b.history k))
    (hoff : ∀ k, k ≠ key → { b with committed := m }.history k = b.history k) :
    ({ b with committed := m }.maybeRemoveFromKeys key).Wf := by
  apply Wf.maybeRemoveFromKeys
  · rintro k (⟨t, ht⟩ | h)
    · exact (hb.keys k).mpr (.inl ⟨t, hsub k ht⟩)
    · exact (hb.keys k).mpr (.inr h)
  · intro k he h
    rw [hoff k he]
    exact (hb.keys k).mp h
  · exact hb.intentKey

theorem Wf.removeCommittedVersion (hb : b.Wf) (key : Key) (t : Timestamp) :
    (b.removeCommittedVersion key t).Wf := by
  have hhist := fun k => @history_removeCommittedVersion b key k t
  unfold InMemoryBackend.removeCommittedVersion at hhist ⊢
  simp only [history_maybeRemoveFromKeys] at hhist
  apply hb.dropVersions
  · intro k
    rw [hhist]
    split
    · rw [dom_update_none]; exact Set.sdiff_subset
    · exact subset_rfl
  · intro k he
    rw [hhist, if_neg (Ne.symm he)]

theorem Wf.collapseTombstone (hb : b.Wf) (key : Key) (t : Timestamp) (older : List Timestamp) :
    (b.collapseTombstone key t older).Wf := by
  have hhist := fun k ts => @history_collapseTombstone b key k t ts older
  unfold InMemoryBackend.collapseTombstone at hhist ⊢
  simp only [history_maybeRemoveFromKeys] at hhist
  apply hb.dropVersions
  · intro k ts hts
    rw [mem_dom, hhist] at hts
    obtain ⟨x, hx⟩ := hts
    split at hx
    · cases hx
    · exact mem_dom.mpr ⟨x, hx⟩
  · intro k he
    funext ts
    rw [hhist, if_neg (fun h => he h.1.symm)]

end InMemoryBackend

/-- Every call of the in-memory backend keeps its representation invariant. -/
theorem memCall_wf (c : BackendCall) {b : InMemoryBackend} (hb : b.Wf) : (memCall c b).2.Wf := by
  cases c with
  | putIntent i => exact hb.putIntent i
  | removeIntent key txnId startTs => exact hb.removeIntent key txnId startTs
  | putCommittedBatch vs => exact hb.putCommittedBatch vs
  | removeCommittedVersion key ts => exact hb.removeCommittedVersion key ts
  | putIntentsBatch is => exact hb.putIntentsBatch is
  | commitIntentsBatch vs is => exact (hb.putCommittedBatch vs).removeIntentsBatch is
  | removeIntentsBatch is => exact hb.removeIntentsBatch is
  | collapseTombstone key ts older => exact hb.collapseTombstone key ts older
  | _ => exact hb

/-- The states a sequence of backend calls can build from the empty one. -/
inductive Buildable : InMemoryBackend → Prop where
  | new : Buildable .new
  | call {b : InMemoryBackend} (c : BackendCall) : Buildable b → Buildable (memCall c b).2

theorem Buildable.wf {b : InMemoryBackend} (h : Buildable b) : b.Wf := by
  induction h with
  | new => exact InMemoryBackend.wf_new
  | call c _ ih => exact memCall_wf c ih

/-- An engine operation is a sequence of backend calls. -/
theorem run_wf {ε α : Type} (p : Engine ε α) {b : InMemoryBackend} (hb : b.Wf) : (p.run b).2.Wf :=
  CallTree.eval_inv (fun c _ h => memCall_wf c h) hb

theorem Buildable.run {ε α : Type} (p : Engine ε α) {b : InMemoryBackend} (hb : Buildable b) :
    Buildable (p.run b).2 :=
  CallTree.eval_inv (fun c _ h => Buildable.call c h) hb

end NexirMvcc
