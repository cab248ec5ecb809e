import NexirMvcc.Effects

/- What a collection step may do to the backend. `GcContract` states it call by
   call: a version is removed only where a newer version at or below the safe
   point exists, and a tombstone is collapsed only where it is the latest version
   of a key without an intent, together with the complete list of its older
   versions. Every call of the collection keeps to the contract, for every
   backend state and at every point where a call may fail.

   What keeps to the contract leaves every key's history `Collected`: it is
   pruned below the safe point, or its final tombstone has vanished with it. -/
namespace NexirMvcc
open VersionHistory CallTree

namespace InMemoryBackend
variable {b : InMemoryBackend} {key k : Key} {t u : Timestamp}

/-- All timestamps of `key` before `t`, newest first. -/
def olderThan (b : InMemoryBackend) (key : Key) (t : Timestamp) : List Timestamp :=
  ((b.committed.rangeExcl (lowest key) (toLex (key, t))).map (fun e => (ofLex e.1).2)).reverse

theorem mem_rangeExcl {a : Key ×ₗ Timestamp} {x : Option Value} :
    (a, x) ∈ b.committed.rangeExcl (lowest key) (toLex (key, t)) ↔
      ∃ u, a = toLex (key, u) ∧ b.history key u = some x ∧ u < t := by
  rw [OrderedMap.rangeExcl, OrderedMap.mem_between, decide_eq_true_iff]
  constructor
  · rintro ⟨hx, hin⟩
    obtain ⟨k', u, rfl⟩ := exists_toLex a
    obtain ⟨rfl, hu⟩ := range_excl.mp hin
    exact ⟨u, rfl, hx, hu⟩
  · rintro ⟨u, rfl, hx, hu⟩
    exact ⟨hx, range_excl.mpr ⟨rfl, hu⟩⟩

theorem getCommittedTimestampsBefore_eq {limit : Nat} :
    b.getCommittedTimestampsBefore key t limit = (b.olderThan key t).take limit := by
  unfold getCommittedTimestampsBefore olderThan
  rw [← List.map_reverse, ← List.map_take, List.filter_eq_self.mpr]
  rintro ⟨a, x⟩ hm
  have hm' := List.mem_reverse.mp (List.mem_of_mem_take hm)
  obtain ⟨u, rfl, -⟩ := mem_rangeExcl.mp hm'
  simp

theorem mem_olderThan : u ∈ b.olderThan key t ↔ u ∈ dom (b.history key) ∧ u < t := by
  unfold olderThan
  rw [List.mem_reverse, List.mem_map, mem_dom]
  constructor
  · rintro ⟨⟨a, x⟩, hm, rfl⟩
    obtain ⟨u, rfl, hx, hu⟩ := mem_rangeExcl.mp hm
    exact ⟨⟨x, hx⟩, hu⟩
  · rintro ⟨⟨x, hx⟩, hu⟩
    exact ⟨(toLex (key, u), x), mem_rangeExcl.mpr ⟨u, rfl, hx, hu⟩, rfl⟩

theorem olderThan_sorted (b : InMemoryBackend) (key : Key) (t : Timestamp) :
    (b.olderThan key t).Pairwise (· > ·) := by
  unfold olderThan
  rw [List.pairwise_reverse, List.pairwise_map]
  refine List.Pairwise.imp_of_mem ?_ (OrderedMap.between_sorted b.committed _)
  rintro ⟨a, x⟩ ⟨a', x'⟩ hm hm' hlt
  obtain ⟨u, rfl, -⟩ := mem_rangeExcl.mp hm
  obtain ⟨u', rfl, -⟩ := mem_rangeExcl.mp hm'
  have := toLex_lt_toLex.mp hlt
  simpa using this

theorem olderThan_nodup (b : InMemoryBackend) (key : Key) (t : Timestamp) :
    (b.olderThan key t).Nodup :=
  (olderThan_sorted b key t).imp (fun h => ne_of_gt h)

/-! Counting versions. -/

theorem size_erase_of_mem {m : OrderedMap (Key ×ₗ Timestamp) (Option Value)}
    {a : Key ×ₗ Timestamp} {x : Option Value} (h : m[a]? = some x) :
    (m.erase a).size + 1 = m.size := by
  have hmem : a ∈ m := by
    rw [Std.ExtTreeMap.mem_iff_isSome_getElem?, h]; rfl
  rw [Std.ExtTreeMap.size_erase, if_pos (Std.ExtTreeMap.mem_iff_contains.mp hmem)]
  have : m.size ≠ 0 := by
    intro h0
    rw [Std.ExtTreeMap.eq_empty_iff_size_eq_zero.mpr h0] at h
    simp at h
  omega

/-- Erasing distinct versions that are there. -/
theorem size_eraseAll {l : List Timestamp} (hnd : l.Nodup)
    {m : OrderedMap (Key ×ₗ Timestamp) (Option Value)}
    (hl : ∀ u ∈ l, ∃ x, m[toLex (key, u)]? = some x) :
    (l.foldl (fun m ts => m.erase (toLex (key, ts))) m).size + l.length = m.size := by
  induction l generalizing m with
  | nil => rfl
  | cons u l ih =>
    obtain ⟨x, hx⟩ := hl u List.mem_cons_self
    have hrest : ∀ w ∈ l, ∃ x, (m.erase (toLex (key, u)))[toLex (key, w)]? = some x := by
      intro w hw
      have hne : u ≠ w := fun he => (List.nodup_cons.mp hnd).1 (he ▸ hw)
      obtain ⟨y, hy⟩ := hl w (List.mem_cons_of_mem u hw)
      refine ⟨y, ?_⟩
      rw [OrderedMap.get_erase, if_neg (by simpa using hne)]
      exact hy
    have h1 := ih (List.nodup_cons.mp hnd).2 hrest
    have h2 := size_erase_of_mem hx
    simp only [List.foldl_cons, List.length_cons]
    omega

theorem size_removeCommittedVersion (h : t ∈ dom (b.history key)) :
    (b.removeCommittedVersion key t).committed.size + 1 = b.committed.size := by
  obtain ⟨x, hx⟩ := mem_dom.mp h
  unfold removeCommittedVersion
  rw [committed_maybeRemoveFromKeys]
  exact size_erase_of_mem hx

theorem size_collapseTombstone {older : List Timestamp} (hnd : (t :: older).Nodup)
    (h : ∀ u ∈ t :: older, u ∈ dom (b.history key)) :
    (b.collapseTombstone key t older).committed.size + (older.length + 1) = b.committed.size := by
  unfold collapseTombstone
  rw [committed_maybeRemoveFromKeys]
  exact size_eraseAll (l := t :: older) hnd fun u hu => mem_dom.mp (h u hu)

end InMemoryBackend

/-! The contract. -/

/-- The calls a collection at `sp` may issue in state `b`. -/
def GcContract (sp : Timestamp) (collapse : Bool) : BackendCall → InMemoryBackend → Prop
  | .collapseTombstone key t older, b =>
    collapse = true ∧ b.getIntent key = none ∧ t ≤ sp ∧ Latest (b.history key) t ∧
      b.history key t = some none ∧ older.Nodup ∧
      ∀ u, u ∈ older ↔ u ∈ dom (b.history key) ∧ u < t
  | .removeCommittedVersion key t, b =>
    t ∈ dom (b.history key) ∧ ∃ u, Visible (b.history key) sp u ∧ t < u
  | c, _ => c.mutates = false

/-- What a collection at `sp` may make of a state: intents stay, and every
history is collected; only a key without an intent may vanish. -/
structure GcRel (sp : Timestamp) (collapse : Bool) (b b' : InMemoryBackend) : Prop where
  intents : ∀ k, b'.getIntent k = b.getIntent k
  histories : ∀ k, Collected sp (collapse = true ∧ b.getIntent k = none) (b.history k) (b'.history k)

namespace GcRel
variable {sp : Timestamp} {collapse : Bool} {b b' b'' : InMemoryBackend}

protected theorem refl (sp : Timestamp) (collapse : Bool) (b : InMemoryBackend) :
    GcRel sp collapse b b := ⟨fun _ => rfl, fun _ => Collected.refl _ _ _⟩

theorem trans (h : GcRel sp collapse b b') (h' : GcRel sp collapse b' b'') :
    GcRel sp collapse b b'' := by
  refine ⟨fun k => (h'.intents k).trans (h.intents k), ?_⟩
  intro k
  have hk := h'.histories k
  rw [h.intents k] at hk
  exact (h.histories k).trans hk

theorem mono {sp' : Timestamp} (h : GcRel sp collapse b b') (hle : sp ≤ sp') :
    GcRel sp' collapse b b' :=
  ⟨h.intents, fun k => (h.histories k).mono hle⟩

/-- Without collapsing, every history is pruned. -/
theorem pruned (h : GcRel sp false b b') (k : Key) : Pruned {sp} (b.history k) (b'.history k) :=
  (h.histories k).pruned (by simp)

end GcRel

/-- Removing a version that a newer one at or below the cutoff shadows is a pruning. -/
theorem pruned_drop {sp t u : Timestamp} {H : Timestamp → Option (Option Value)}
    (hu : Visible H sp u) (ht : t < u) : Pruned {sp} H (Function.update H t none) := by
  constructor
  · intro w v hw
    by_cases he : w = t
    · rw [he, Function.update_self] at hw; cases hw
    · rwa [Function.update_of_ne he] at hw
  · intro w v hw
    by_cases he : w = t
    · refine .inr ⟨u, ?_, he ▸ ht, sp, rfl, hu.1.2⟩
      have hmem : u ∈ dom H := hu.1.1
      simpa [dom, Function.update_of_ne ht.ne'] using hmem
    · exact .inl (by rwa [Function.update_of_ne he])

/-- Collapsing the latest version with everything older leaves nothing. -/
theorem collapseTombstone_empties {b : InMemoryBackend} {key : Key} {t : Timestamp}
    {older : List Timestamp} (hlat : Latest (b.history key) t)
    (hold : ∀ u, u ∈ older ↔ u ∈ dom (b.history key) ∧ u < t) (u : Timestamp) :
    (b.collapseTombstone key t older).history key u = none := by
  rw [InMemoryBackend.history_collapseTombstone]
  split
  · rfl
  · next hn =>
    refine not_mem_dom.mp fun hu => hn ⟨rfl, ?_⟩
    rcases (hlat.2 hu).eq_or_lt with he | hlt
    · rw [he]; exact List.mem_cons_self
    · exact List.mem_cons_of_mem t ((hold u).mpr ⟨hu, hlt⟩)

/-- A call that keeps to the contract collects. -/
theorem gcRel_of_contract {sp : Timestamp} {collapse : Bool} {c : BackendCall} {b : InMemoryBackend}
    (h : GcContract sp collapse c b) : GcRel sp collapse b (memCall c b).2 := by
  by_cases hc : c.mutates = false
  · rw [memCall_reads hc]
    exact GcRel.refl sp collapse b
  · cases c with
    | removeCommittedVersion key t =>
      obtain ⟨-, u, hu, ht⟩ := h
      refine ⟨fun k => InMemoryBackend.getIntent_removeCommittedVersion, ?_⟩
      intro k
      show Collected _ _ _ ((b.removeCommittedVersion key t).history k)
      rw [InMemoryBackend.history_removeCommittedVersion]
      by_cases hk : key = k
      · subst hk
        rw [if_pos rfl]
        exact .inl (pruned_drop hu ht)
      · rw [if_neg hk]
        exact Collected.refl _ _ _
    | collapseTombstone key t older =>
      obtain ⟨hcol, hi, ht, hlat, htomb, -, hold⟩ := h
      refine ⟨fun k => InMemoryBackend.getIntent_collapseTombstone, ?_⟩
      intro k
      by_cases hk : key = k
      · subst hk
        exact .inr ⟨⟨hcol, hi⟩, ⟨t, ht, hlat, htomb⟩, collapseTombstone_empties hlat hold⟩
      · show Collected _ _ _ ((b.collapseTombstone key t older).history k)
        rw [InMemoryBackend.history_collapseTombstone_off (Ne.symm hk)]
        exact Collected.refl _ _ _
    | _ => exact absurd h (by simpa [GcContract] using hc)

/-- So does every execution whose calls keep to it, also when calls fail. -/
theorem gcRel_of_meets {ε α : Type} {sp : Timestamp} {collapse : Bool} {b b' : InMemoryBackend}
    {p : Engine ε α} {Q : Except ε α → InMemoryBackend → Prop}
    {es : List (CallEvent BackendCall.Reply String)} {r : Except ε α}
    (hp : Meets memCall.faulty (GcContract sp collapse) Q p b)
    (he : Exec memCall.faulty p b es r b') : GcRel sp collapse b b' :=
  hp.exec_rel he (GcRel sp collapse) (GcRel.refl sp collapse) (fun _ _ _ => GcRel.trans)
    (fun _ _ => gcRel_of_contract)

/-- It also never adds a key to the key set. -/
theorem keys_of_meets {ε α : Type} {sp : Timestamp} {collapse : Bool} {b b' : InMemoryBackend}
    {p : Engine ε α} {Q : Except ε α → InMemoryBackend → Prop}
    {es : List (CallEvent BackendCall.Reply String)} {r : Except ε α}
    (hp : Meets memCall.faulty (GcContract sp collapse) Q p b)
    (he : Exec memCall.faulty p b es r b') : ∀ k ∈ b'.allKeysSet, k ∈ b.allKeysSet := by
  refine hp.exec_rel he (fun b b' => ∀ k ∈ b'.allKeysSet, k ∈ b.allKeysSet) (fun _ _ h => h)
    (fun _ _ _ h h' k hk => h k (h' k hk)) ?_
  intro c b hc k hk
  by_cases hm : c.mutates = false
  · rwa [memCall_reads hm] at hk
  · cases c with
    | removeCommittedVersion key t =>
      exact (InMemoryBackend.mem_allKeysSet_maybeRemoveFromKeys.mp hk).1
    | collapseTombstone key t older =>
      exact (InMemoryBackend.mem_allKeysSet_maybeRemoveFromKeys.mp hk).1
    | _ => exact absurd hc (by simpa [GcContract] using hm)

end NexirMvcc
