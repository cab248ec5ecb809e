import NexirMvcc.GcPass

/- The full collection. Its loop ends, after at most as many steps as there are
   versions and keys, and what it leaves does not depend on the budget: the
   versions above the safe point and the newest one at or below it, less final
   tombstones where those are collapsed. -/
namespace NexirMvcc
open VersionHistory CallTree

/-! The calls of a collection. -/

/-- The calls of a collection: reads, and removals of versions. -/
def BackendCall.Collects : BackendCall → Prop
  | .removeCommittedVersion _ _ => True
  | .collapseTombstone _ _ _ => True
  | c => c.mutates = false

section Steady
variable {α : Type} {options : GcOptions} {key : Key} {keeper : CommittedVersion}

/-- One call of a collection and its continuation. -/
theorem steady_call {c : BackendCall} {wrap : String → GcError} {f : c.Reply → Engine GcError α}
    (hc : c.Collects) (hf : ∀ a, Steady BackendCall.Collects (f a)) :
    Steady BackendCall.Collects (backend c wrap >>= f) :=
  Steady.ask_bind hc hf

theorem steady_isFinalTombstone {hasIntent : Bool} :
    Steady BackendCall.Collects (isFinalTombstone release options key keeper hasIntent) := by
  unfold isFinalTombstone
  split
  · exact steady_call rfl fun _ => Steady.pure _
  · exact Steady.pure _

theorem steady_removeVersions {l : List Timestamp} {scan : GcScan} :
    Steady BackendCall.Collects (removeVersions release key l scan) := by
  induction l generalizing scan with
  | nil => exact Steady.pure _
  | cons t l ih => exact steady_call trivial fun _ => ih

theorem steady_gcKeyExhausted {hasIntent : Bool} {scan : GcScan} :
    Steady BackendCall.Collects (gcKeyExhausted release options key keeper hasIntent scan) := by
  refine steady_call rfl fun more => ?_
  split
  · exact Steady.pure _
  · refine Steady.bind steady_isFinalTombstone fun final => ?_
    split <;> exact Steady.pure _

theorem steady_gcKeyFinal {limit : Nat} {scan : GcScan} :
    Steady BackendCall.Collects (gcKeyFinal release key keeper limit scan) := by
  refine steady_call rfl fun older => ?_
  dsimp only
  split
  · rw [release_sub (by omega)]
    exact Steady.bind steady_removeVersions fun _ => Steady.pure _
  · split
    · exact steady_call trivial fun _ => Steady.pure _
    · exact Steady.bind steady_removeVersions fun _ => Steady.pure _

theorem steady_gcKeyNormal {limit : Nat} {scan : GcScan} :
    Steady BackendCall.Collects (gcKeyNormal release key keeper limit scan) := by
  refine steady_call rfl fun older => ?_
  dsimp only
  split
  · rw [release_sub (by omega)]
    exact Steady.bind steady_removeVersions fun _ => Steady.pure _
  · exact steady_removeVersions

theorem steady_gcKey {sp : Timestamp} {scan : GcScan} :
    Steady BackendCall.Collects (gcKey release sp options key scan) := by
  refine steady_call rfl fun intent => steady_call rfl fun keeper => ?_
  cases keeper with
  | none => exact Steady.pure _
  | some keeper =>
    dsimp only
    unfold gcKeyKeeper
    -- whatever the limit is
    refine Steady.bind (Steady.pure _) fun limit => ?_
    split
    · exact steady_gcKeyExhausted
    · refine Steady.bind steady_isFinalTombstone fun final => ?_
      split
      · exact steady_gcKeyFinal
      · exact steady_gcKeyNormal

theorem steady_gcKeys {sp : Timestamp} {ks : List Key} {scan : GcScan} :
    Steady BackendCall.Collects (gcKeys release sp options ks scan) := by
  induction ks generalizing scan with
  | nil => exact Steady.pure _
  | cons key ks ih =>
    refine Steady.bind steady_gcKey fun scan' => ?_
    split
    · exact Steady.pure _
    · exact ih

/-- A budget that passes the check of `gc_incremental`. -/
def GcBudget.Valid (budget : GcBudget) : Prop := budget.maxKeys ≠ 0 ∧ budget.maxVersions ≠ 0

theorem steady_gcIncremental (hv : options.budget.Valid) (sp : Timestamp)
    (cursor : Option IncrementalGcCursor) :
    Steady BackendCall.Collects (gcIncremental sp cursor options) := by
  unfold gcIncremental Build.gcIncremental
  rw [if_neg (not_or.mpr hv)]
  refine steady_call rfl fun keys => ?_
  exact Steady.bind steady_gcKeys fun _ => Steady.pure _

theorem steady_gcLoop {sp : Timestamp} {fuel total : Nat} {cursor : Option IncrementalGcCursor}
    (hv : options.budget.Valid) :
    Steady BackendCall.Collects (gcLoop sp options fuel cursor total) := by
  induction fuel generalizing cursor total with
  | zero => exact Steady.pure _
  | succ fuel ih =>
    refine Steady.bind (steady_gcIncremental hv sp cursor) fun res => ?_
    dsimp only
    split
    · exact Steady.pure _
    · exact ih

theorem steady_countIntents {keys : List Key} {n : Nat} :
    Steady BackendCall.Collects (countIntents keys n) := by
  induction keys generalizing n with
  | nil => exact Steady.pure _
  | cons key keys ih => exact steady_call rfl fun _ => ih

theorem steady_gc (hv : options.budget.Valid) (fuel : Nat) (sp : Timestamp) :
    Steady BackendCall.Collects (gc fuel sp options) := by
  refine Steady.bind (steady_gcLoop hv) fun total => ?_
  cases total with
  | none => exact Steady.pure _
  | some total =>
    refine steady_call rfl fun keys => ?_
    exact Steady.bind steady_countIntents fun _ => Steady.pure _

end Steady

/-- Some versions are gone, all else is as it was. -/
structure Shrunk (b b' : InMemoryBackend) : Prop where
  intents : ∀ k, b'.getIntent k = b.getIntent k
  sub : ∀ k t v, b'.history k t = some v → b.history k t = some v

protected theorem Shrunk.refl (b : InMemoryBackend) : Shrunk b b := ⟨fun _ => rfl, fun _ _ _ h => h⟩

theorem Shrunk.trans {b b' b'' : InMemoryBackend} (h : Shrunk b b') (h' : Shrunk b' b'') :
    Shrunk b b'' :=
  ⟨fun k => (h'.intents k).trans (h.intents k), fun k t v hv => h.sub k t v (h'.sub k t v hv)⟩

theorem shrunk_of_collects {c : BackendCall} {b : InMemoryBackend} (hc : c.Collects) :
    Shrunk b (memCall c b).2 := by
  by_cases hm : c.mutates = false
  · rw [memCall_reads hm]
    exact Shrunk.refl b
  · cases c with
    | removeCommittedVersion key t =>
      refine ⟨fun k => InMemoryBackend.getIntent_removeCommittedVersion, ?_⟩
      intro k u v (h : (b.removeCommittedVersion key t).history k u = some v)
      rw [InMemoryBackend.history_removeCommittedVersion] at h
      split at h
      · by_cases hu : u = t
        · rw [hu, Function.update_self] at h; cases h
        · rwa [Function.update_of_ne hu] at h
      · exact h
    | collapseTombstone key t older =>
      refine ⟨fun k => InMemoryBackend.getIntent_collapseTombstone, ?_⟩
      intro k u v (h : (b.collapseTombstone key t older).history k u = some v)
      rw [InMemoryBackend.history_collapseTombstone] at h
      split at h
      · cases h
      · exact h
    | _ => exact absurd hc hm

/-- On the in-memory backend a collection returns, whatever its budget. -/
theorem collects_run {α : Type} {p : Engine GcError α} (hp : Steady BackendCall.Collects p)
    (b : InMemoryBackend) : ∃ v b', p.run b = (.ok v, b') ∧ Shrunk b b' := by
  obtain ⟨⟨v, hv⟩, hs⟩ := hp.eval (s := b) memCall_ok Shrunk.refl (fun _ _ _ => Shrunk.trans)
    (fun _ _ => shrunk_of_collects)
  exact ⟨v, _, Prod.ext hv rfl, hs⟩

section Run
variable {sp : Timestamp} {options : GcOptions} {b b' : InMemoryBackend}

/-- A specification, read off the run: the part returns as specified, its calls
have kept to the contract, and it has added no key. -/
theorem Spec.run {α : Type} {collapse : Bool} {p : Engine GcError α}
    {P : α → InMemoryBackend → Prop} (h : Spec sp collapse b p P)
    (hp : Steady BackendCall.Collects p) :
    ∃ v b', p.run b = (.ok v, b') ∧ P v b' ∧ GcRel sp collapse b b' ∧
      ∀ k ∈ b'.allKeysSet, k ∈ b.allKeysSet := by
  obtain ⟨v, b', hrun, -⟩ := collects_run hp b
  obtain ⟨es, hexec⟩ := exec_eval memCall p b
  rw [show eval memCall p b = _ from hrun] at hexec
  exact ⟨v, b', hrun, h.exec hexec, gcRel_of_meets h hexec, keys_of_meets h hexec⟩

theorem gcIncremental_run (hv : options.budget.Valid) (hm : BelowMax options) (sp : Timestamp)
    (cursor : Option IncrementalGcCursor) (b : InMemoryBackend) :
    ∃ res b', (gcIncremental sp cursor options).run b = (.ok res, b') ∧
      (∃ visited, IncrStep sp options (cursor.bind (·.nextKey)) visited b res b') ∧
      GcRel sp options.collapseFinalTombstones b b' ∧ ∀ k ∈ b'.allKeysSet, k ∈ b.allKeysSet :=
  (gcIncremental_spec hm rfl).run (steady_gcIncremental hv sp cursor)

theorem gcLoop_contract {fuel total : Nat} {cursor : Option IncrementalGcCursor}
    (hk : options.KeepsContract) :
    Spec sp options.collapseFinalTombstones b (gcLoop sp options fuel cursor total)
      fun _ _ => True := by
  induction fuel generalizing b cursor total with
  | zero => exact Spec.pure trivial
  | succ fuel ih =>
    refine Spec.bind (gcIncremental_contract hk) ?_
    intro res b' _
    dsimp only
    split
    · exact Spec.pure trivial
    · exact ih

theorem countIntents_contract {collapse : Bool} {keys : List Key} {n : Nat} :
    Spec sp collapse b (countIntents keys n) fun _ _ => True := by
  induction keys generalizing n with
  | nil => exact Spec.pure trivial
  | cons key keys ih => exact Spec.call rfl rfl ih

theorem gc_contract {fuel : Nat} (hk : options.KeepsContract) :
    Spec sp options.collapseFinalTombstones b (gc fuel sp options) fun _ _ => True := by
  refine Spec.bind (gcLoop_contract hk) ?_
  intro total b' _
  cases total with
  | none => exact Spec.pure trivial
  | some total =>
    refine Spec.call rfl rfl ?_
    exact Spec.bind countIntents_contract fun _ _ _ => Spec.pure trivial

/-- Versions and keys a pass from `start` on may still deal with. -/
def gcMeasure (b : InMemoryBackend) (start : Option Key) : Nat :=
  b.committed.size + (b.keysAt start).length

/-- A step that is not the last makes progress. -/
theorem IncrStep.measure_lt {start : Option Key} {visited : List Key} {res : IncrementalGcResult}
    {n : Key} (h : IncrStep sp options start visited b res b')
    (hkeys : ∀ k ∈ b'.allKeysSet, k ∈ b.allKeysSet) (hn : res.cursor.nextKey = some n) :
    gcMeasure b' (some n) < gcMeasure b start := by
  obtain ⟨hmem, hne, -, hprog⟩ := h.next n hn
  have hsub : ∀ k ∈ b'.keysAt (some n), k ∈ b.keysAt start := by
    intro k hk
    obtain ⟨hk', hle⟩ := InMemoryBackend.mem_keysAt.mp hk
    refine InMemoryBackend.mem_keysAt.mpr ⟨hkeys k hk', fun s hs => ?_⟩
    exact ((InMemoryBackend.mem_keysAt.mp hmem).2 s hs).trans (hle n rfl)
  have hnd := InMemoryBackend.keysAt_nodup b' (some n)
  have hle : (b'.keysAt (some n)).length ≤ (b.keysAt start).length :=
    (List.subperm_of_subset hnd hsub).length_le
  have hsize := h.removed
  unfold gcMeasure
  rcases hprog with hrem | hlt
  · omega
  · -- nothing removed, but the visited keys are behind the cursor
    obtain ⟨v, hv⟩ := List.exists_mem_of_ne_nil visited hne
    have hvn : v ∉ b'.keysAt (some n) := fun hm =>
      absurd ((InMemoryBackend.mem_keysAt.mp hm).2 n rfl) (hlt v hv).not_ge
    have hlen := (List.subperm_of_subset (List.nodup_cons.mpr ⟨hvn, hnd⟩)
      (List.forall_mem_cons.mpr ⟨h.visits.subset hv, hsub⟩)).length_le
    rw [List.length_cons] at hlen
    omega

theorem InMemoryBackend.Wf.clean_of_not_mem {collapse : Bool} {k : Key} (hb : b.Wf)
    (hk : k ∉ b.allKeysSet) : Clean sp collapse b k := by
  apply clean_of_invisible
  intro t _
  refine not_mem_dom.mp fun ht => hk ((hb.keys k).mpr (.inl ⟨t, ht⟩))

/-- The loop ends, with every key clean. -/
theorem gcLoop_run {m : Nat} (sp : Timestamp) (cursor : Option IncrementalGcCursor)
    (hv : options.budget.Valid) (hm : BelowMax options) (hb : b.Wf) (hmeas : gcMeasure b (cursor.bind (·.nextKey)) ≤ m)
    (hclean : ∀ k, k ∉ b.keysAt (cursor.bind (·.nextKey)) →
      Clean sp options.collapseFinalTombstones b k) :
    ∃ n b', (∀ fuel total, m < fuel →
        (gcLoop sp options fuel cursor total).run b = (.ok (some (total + n)), b')) ∧
      n + b'.committed.size = b.committed.size ∧
      GcRel sp options.collapseFinalTombstones b b' ∧
      ∀ k, Clean sp options.collapseFinalTombstones b' k := by
  induction m using Nat.strong_induction_on generalizing b cursor with
  | _ m ih =>
    obtain ⟨res, b₁, hrun, ⟨visited, hstep⟩, hrel, hkeys⟩ := gcIncremental_run hv hm sp cursor b
    have hb₁ : b₁.Wf := by
      have := run_wf (gcIncremental sp cursor options) hb
      rwa [hrun] at this
    have hoff : ∀ k, k ∉ b.keysAt (cursor.bind (·.nextKey)) →
        Clean sp options.collapseFinalTombstones b₁ k := fun k hk =>
      (hclean k hk).congr (hstep.off k fun hv => hk (hstep.visits.subset hv)) (hstep.intents k)
    cases hn : res.cursor.nextKey with
    | none =>
      have hdone : res.done = true := hstep.done.mpr hn
      refine ⟨res.versionsRemoved, b₁, ?_, hstep.removed, hrel, ?_⟩
      · intro fuel total hfuel
        obtain ⟨fuel, rfl⟩ := Nat.exists_eq_succ_of_ne_zero (by omega : fuel ≠ 0)
        simp only [gcLoop, run_bind, hrun, hdone, if_true, run_pure]
      · intro k
        by_cases hk : k ∈ b.keysAt (cursor.bind (·.nextKey))
        · exact hstep.clean k hk (by simp [hn])
        · exact hoff k hk
    | some n =>
      have hnotdone : res.done = false := by
        cases hd : res.done with
        | false => rfl
        | true => rw [hstep.done.mp hd] at hn; cases hn
      have hlt := hstep.measure_lt hkeys hn
      -- behind the new cursor a key was passed, has vanished, or was clean before
      have hclean₁ : ∀ k, k ∉ b₁.keysAt (some n) →
          Clean sp options.collapseFinalTombstones b₁ k := by
        intro k hk
        by_cases hk₀ : k ∈ b.keysAt (cursor.bind (·.nextKey))
        · by_cases hkn : k < n
          · refine hstep.clean k hk₀ ?_
            intro n' hn'
            rw [hn] at hn'
            cases hn'
            exact hkn
          · refine hb₁.clean_of_not_mem fun hmem => hk (InMemoryBackend.mem_keysAt.mpr ⟨hmem, ?_⟩)
            intro s hs
            cases hs
            exact le_of_not_gt hkn
        · exact hoff k hk₀
      obtain ⟨r, b', hloop, hsize, hrel', hall⟩ := ih (gcMeasure b₁ (some n)) (by omega)
        (some res.cursor) hb₁ (by rw [Option.bind_some, hn])
        (by rw [Option.bind_some, hn]; exact hclean₁)
      refine ⟨res.versionsRemoved + r, b', ?_, ?_, hrel.trans hrel', hall⟩
      · intro fuel total hfuel
        obtain ⟨fuel, rfl⟩ := Nat.exists_eq_succ_of_ne_zero (by omega : fuel ≠ 0)
        simp only [gcLoop, run_bind, hrun, hnotdone, Bool.false_eq_true, if_false]
        rw [hloop fuel _ (by omega), Nat.add_assoc]
      · have := hstep.removed
        omega

/-- The number of intents found is the number of keys that have one. -/
theorem countIntents_run {keys : List Key} {n : Nat} :
    (countIntents keys n).run b =
      (.ok (n + keys.countP fun k => (b.getIntent k).isSome), b) := by
  induction keys generalizing n with
  | nil => rfl
  | cons key keys ih =>
    unfold countIntents
    rw [run_getIntent, ih, List.countP_cons]
    cases (b.getIntent key).isSome with
    | true =>
      simp only [if_true]
      rw [Nat.add_right_comm, Nat.add_assoc]
    | false => rfl

/-- Every intent is on one of the keys. -/
theorem InMemoryBackend.Wf.countP_intents (hb : b.Wf) :
    b.allKeys.countP (fun k => (b.getIntent k).isSome) = b.intents.size := by
  rw [List.countP_eq_length_filter, ← Std.ExtTreeMap.length_keys]
  refine List.Perm.length_eq ((List.perm_ext_iff_of_nodup ?_ Std.ExtTreeMap.nodup_keys).mpr ?_)
  · exact (InMemoryBackend.keysAt_nodup b none).filter _
  · intro k
    rw [List.mem_filter, OrderedMap.mem_keys]
    constructor
    · exact fun h => h.2
    · exact fun h => ⟨Std.ExtTreeSet.mem_toList.mpr ((hb.keys k).mpr (.inr h)), h⟩

/-- The steps the loop of `gc` needs at most. -/
def gcFuel (b : InMemoryBackend) : Nat := gcMeasure b none + 1

/-- `b'` holds exactly what a full collection at `sp` is to leave of `b`: of every
key the versions above `sp` and the newest one at or below it, and nothing of a
key without an intent whose latest version is a tombstone at or below `sp`, where
those are collapsed. -/
structure FullyCollected (sp : Timestamp) (collapse : Bool) (b b' : InMemoryBackend) : Prop where
  versions : ∀ k t v, b'.history k t = some v ↔
    b.history k t = some v ∧ (sp < t ∨ Visible (b.history k) sp t) ∧ ¬ Collapsible sp collapse b k
  intents : b'.intents = b.intents

/-- There is one such state only. -/
theorem FullyCollected.unique {collapse : Bool} {b₁ b₂ : InMemoryBackend}
    (h₁ : FullyCollected sp collapse b b₁) (h₂ : FullyCollected sp collapse b b₂)
    (hb₁ : b₁.Wf) (hb₂ : b₂.Wf) : b₁ = b₂ := by
  refine hb₁.ext hb₂ ?_ ?_
  · intro k
    funext t
    exact Option.ext fun v => (h₁.versions k t v).trans (h₂.versions k t v).symm
  · intro k
    unfold InMemoryBackend.getIntent
    rw [h₁.intents, h₂.intents]

/-- What a collection leaves of a clean key. -/
theorem GcRel.exact_of_clean {collapse : Bool} {k : Key} (h : GcRel sp collapse b b')
    (hc : Clean sp collapse b' k) (t : Timestamp) (v : Option Value) :
    b'.history k t = some v ↔ b.history k t = some v ∧ (sp < t ∨ Visible (b.history k) sp t) ∧
      ¬ Collapsible sp collapse b k := by
  obtain ⟨hold, hfin⟩ := hc
  unfold Collapsible at hfin ⊢
  rw [h.intents, ← and_assoc] at hfin
  rw [(h.histories k).exact hold hfin, and_assoc (a := collapse = true)]

/-- With every key clean, a collection is the full one. -/
theorem GcRel.fullyCollected {collapse : Bool} (h : GcRel sp collapse b b')
    (hc : ∀ k, Clean sp collapse b' k) : FullyCollected sp collapse b b' :=
  ⟨fun k => h.exact_of_clean (hc k), Std.ExtTreeMap.ext_getElem? h.intents⟩

/-- `gc` on a well-formed state. -/
theorem gc_run (sp : Timestamp) (hv : options.budget.Valid) (hm : BelowMax options) (hb : b.Wf) :
    ∃ stats b', (∀ fuel, gcFuel b ≤ fuel → (gc fuel sp options).run b = (.ok (some stats), b')) ∧
      b'.Wf ∧ GcRel sp options.collapseFinalTombstones b b' ∧
      (∀ k, Clean sp options.collapseFinalTombstones b' k) ∧
      stats.versionsRemoved + b'.committed.size = b.committed.size ∧
      stats.intentsPreserved = b.intents.size := by
  obtain ⟨n, b', hloop, hsize, hrel, hclean⟩ :=
    gcLoop_run sp none hv hm hb le_rfl
      (fun k hk => hb.clean_of_not_mem fun hmem => hk (Std.ExtTreeSet.mem_toList.mpr hmem))
  have hwf : b'.Wf := by
    have := run_wf (gcLoop sp options (gcFuel b) none 0) hb
    rwa [hloop (gcFuel b) 0 (Nat.lt_succ_self _)] at this
  refine ⟨⟨n, b'.intents.size⟩, b', ?_, hwf, hrel, hclean, hsize, ?_⟩
  · intro fuel hfuel
    unfold gc
    rw [run_bind, hloop fuel 0 hfuel, Nat.zero_add]
    show (backend .allKeys GcError.backend >>= _ : Engine GcError _).run b' = _
    show (countIntents b'.allKeys 0 >>= _ : Engine GcError _).run b' = _
    rw [run_bind, countIntents_run, hwf.countP_intents, Nat.zero_add]
    rfl
  · rw [(hrel.fullyCollected hclean).intents]

/-- A full collection ends and is exact, and neither what it leaves nor what it
reports depends on the budget. -/
theorem gc_exact (sp : Timestamp) (options : GcOptions) {b : InMemoryBackend} (hb : Buildable b)
    (hv : options.budget.Valid) (hm : BelowMax options) :
    ∃ stats b',
      (∀ options' : GcOptions, options'.budget.Valid → BelowMax options' →
        options'.collapseFinalTombstones = options.collapseFinalTombstones →
        ∀ fuel, gcFuel b ≤ fuel → (gc fuel sp options').run b = (.ok (some stats), b')) ∧
      FullyCollected sp options.collapseFinalTombstones b b' ∧
      stats.versionsRemoved + b'.committed.size = b.committed.size ∧
      stats.intentsPreserved = b.intents.size := by
  obtain ⟨stats, b', -, hwf, hrel, hclean, hsize, hint⟩ := gc_run sp hv hm hb.wf
  have hfull := hrel.fullyCollected hclean
  refine ⟨stats, b', ?_, hfull, hsize, hint⟩
  intro options' hv' hm' hflag fuel hfuel
  obtain ⟨stats', b'', hrun, hwf', hrel', hclean', hsize', hint'⟩ := gc_run sp hv' hm' hb.wf
  rw [hflag] at hrel' hclean'
  obtain rfl : b'' = b' := (hrel'.fullyCollected hclean').unique hfull hwf' hwf
  obtain rfl : stats' = stats := by
    cases stats
    cases stats'
    simp only [GcStats.mk.injEq] at *
    omega
  exact hrun fuel hfuel

/-- Two keys with three versions each, one of them deleted, collected with a budget
of one key and one version a step. -/
theorem gc_exact_smallest_budget :
    let b := (memCall (.putCommittedBatch
      [⟨[1], 1, some [7]⟩, ⟨[1], 2, some [8]⟩, ⟨[1], 3, none⟩,
       ⟨[2], 1, some [7]⟩, ⟨[2], 2, some [8]⟩, ⟨[2], 4, some [9]⟩]) .new).2
    ∃ stats b', (gc (gcFuel b) 3 ⟨⟨1, 1⟩, true⟩).run b = (.ok (some stats), b') ∧
      FullyCollected 3 true b b' ∧ stats.versionsRemoved + b'.committed.size = 6 := by
  intro b
  have hb : Buildable b := .call _ .new
  obtain ⟨stats, b', hrun, hfull, hsize, -⟩ :=
    gc_exact 3 ⟨⟨1, 1⟩, true⟩ hb ⟨by decide, by decide⟩ ⟨by decide, by decide⟩
  exact ⟨stats, b', hrun _ ⟨by decide, by decide⟩ ⟨by decide, by decide⟩ rfl _ le_rfl, hfull,
    hsize.trans (by decide +kernel)⟩

end Run

end NexirMvcc
