import NexirMvcc.GcSafety

/- Budgets at the end of `usize`. The look-ahead limits `max_keys + 1` and
   `limit + 1` wrap to zero where the budget is `usize::MAX`, and a query with
   limit zero finds nothing.

   With `max_keys = usize::MAX` a step scans no key and reports that it is done.
   With `max_versions = usize::MAX` it removes no version until it meets the
   first final tombstone, which it collapses without the versions below it; from
   there on the remaining budget is below the maximum, and it does what it
   should. -/
namespace NexirMvcc
open VersionHistory CallTree

section Unlimited
variable {sp : Timestamp} {options : GcOptions} {key : Key} {keeper : CommittedVersion}
  {scan : GcScan} {b : InMemoryBackend}

theorem run_lookAhead_maxUsize {α : Type} {f : List Timestamp → Engine GcError α} :
    (backend (.getCommittedTimestampsBefore key keeper.commitTs (lookAhead maxUsize.val))
      release.failed >>= f).run b = (f []).run b := by
  rw [lookAhead_maxUsize]
  show (f (b.getCommittedTimestampsBefore key keeper.commitTs 0)).run b = _
  rw [InMemoryBackend.getCommittedTimestampsBefore_eq, List.take_zero]

theorem gcKeyNormal_unlimited : (gcKeyNormal release key keeper maxUsize.val scan).run b = (.ok scan, b) := by
  unfold gcKeyNormal
  rw [run_lookAhead_maxUsize]
  rfl

theorem gcKeyFinal_unlimited :
    (gcKeyFinal release key keeper maxUsize.val scan).run b =
      (.ok { scan with versionsRemoved := scan.versionsRemoved + 1 },
        b.collapseTombstone key keeper.commitTs []) := by
  unfold gcKeyFinal
  rw [run_lookAhead_maxUsize]
  rfl

/-- A key visited with the whole of `usize` left: its tombstone goes, if it is a
final one, and nothing else. -/
theorem gcKey_unlimited (sp : Timestamp) (key : Key) (b : InMemoryBackend)
    (hmax : options.budget.maxVersions = maxUsize) (hrun : scan.exhaustedVersions = false)
    (h0 : scan.versionsRemoved = 0) :
    ∃ scan' b', (gcKey release sp options key scan).run b = (.ok scan', b') ∧
      scan'.exhaustedVersions = false ∧
      (¬ Collapsible sp options.collapseFinalTombstones b key ∧ b' = b ∧ scan'.versionsRemoved = 0 ∨
        Collapsible sp options.collapseFinalTombstones b key ∧ scan'.versionsRemoved = 1 ∧
          ∃ t, Latest (b.history key) t ∧ Removed key [t] b b') := by
  unfold gcKey
  rw [run_getIntent, run_getVisibleCommitted]
  cases hk : b.getVisibleCommitted key sp with
  | none =>
    refine ⟨_, b, rfl, hrun, .inl ⟨?_, rfl, h0⟩⟩
    exact (clean_of_invisible (InMemoryBackend.getVisibleCommitted_eq_none.mp hk)).2
  | some keeper =>
    obtain ⟨-, hvis, -⟩ := InMemoryBackend.getVisibleCommitted_eq_some.mp hk
    have hspec : Spec sp options.collapseFinalTombstones b
        (isFinalTombstone release options key keeper (b.getIntent key).isSome) _ := isFinalTombstone_spec hk
    obtain ⟨final, b₁, hfin, ⟨rfl, hiff⟩, -⟩ := hspec.run steady_isFinalTombstone
    dsimp only
    unfold gcKeyKeeper
    -- the limit is the whole of `usize`, so the look-ahead wraps to zero
    simp only [GcScan.visit, h0, hmax]
    rw [release_sub (Nat.zero_le _), Nat.sub_zero, if_neg (by decide), run_bind, hfin]
    cases hf : final with
    | false =>
      rw [hf, Bool.false_eq_true, false_iff] at hiff
      dsimp only
      rw [if_neg Bool.false_ne_true, gcKeyNormal_unlimited]
      exact ⟨_, _, rfl, hrun, .inl ⟨hiff, rfl, rfl⟩⟩
    | true =>
      have hcol := hiff.mp hf
      have hlat := ((finalTombstone_iff hvis).mp hcol.2.2).1
      dsimp only
      rw [if_pos rfl, gcKeyFinal_unlimited]
      refine ⟨_, _, rfl, hrun, .inr ⟨hcol, rfl, keeper.commitTs, hlat, ?_⟩⟩
      exact removed_collapseTombstone (by simp) (by simpa using hvis.1.1)

/-- To stop with the budget at the maximum would take more versions than there are. -/
theorem KeysStep.not_exhausted {visited rest : List Key} {scan scan' : GcScan}
    {b b' : InMemoryBackend} (h : KeysStep sp options visited rest scan b scan' b')
    (hmax : options.budget.maxVersions = maxUsize)
    (hsize : scan.versionsRemoved + b.committed.size < 2 ^ 64) : scan'.exhaustedVersions = false := by
  rw [← Bool.not_eq_true]
  intro hx
  obtain ⟨-, key, -, -, hfull, ⟨u, hu⟩, -⟩ := h.stops hx
  have hone := InMemoryBackend.size_removeCommittedVersion hu
  have hall := h.removed
  rw [hmax] at hfull
  have hfull : scan'.versionsRemoved = 2 ^ 64 - 1 := hfull
  omega

/-- The loop from a fresh budget: it changes nothing up to the first final
tombstone, and from there on it is a collection of what that one has left. -/
theorem gcKeys_unlimited (sp : Timestamp) (b : InMemoryBackend) (scan : GcScan) {ks : List Key}
    (hmax : options.budget.maxVersions = maxUsize) (hnd : ks.Nodup)
    (hrun : scan.exhaustedVersions = false) (h0 : scan.versionsRemoved = 0) :
    ∃ scan' b', (gcKeys release sp options ks scan).run b = (.ok scan', b') ∧
      ((∀ k ∈ ks, ¬ Collapsible sp options.collapseFinalTombstones b k) ∧ b' = b ∧
          scan'.exhaustedVersions = false ∨
        ∃ pre first post t b₁ scan₁ visited rest, ks = pre ++ first :: post ∧
          (∀ k ∈ pre, ¬ Collapsible sp options.collapseFinalTombstones b k) ∧
          Collapsible sp options.collapseFinalTombstones b first ∧
          Latest (b.history first) t ∧ Removed first [t] b b₁ ∧ post = visited ++ rest ∧
          scan₁.versionsRemoved = 1 ∧ KeysStep sp options visited rest scan₁ b₁ scan' b' ∧
          GcRel sp options.collapseFinalTombstones b₁ b') := by
  induction ks generalizing scan with
  | nil => exact ⟨scan, b, rfl, .inl ⟨by simp, rfl, hrun⟩⟩
  | cons key ks ih =>
    obtain ⟨-, hnd⟩ := List.nodup_cons.mp hnd
    obtain ⟨scan₁, b₁, hkey, hrun₁, h⟩ := gcKey_unlimited sp key b hmax hrun h0
    unfold gcKeys
    rw [run_bind, hkey]
    dsimp only
    rw [if_neg (by rw [hrun₁]; exact Bool.false_ne_true)]
    rcases h with ⟨hn, rfl, h1⟩ | ⟨hcol, h1, t, hlat, hrem⟩
    · obtain ⟨scan', b', hrest, h⟩ := ih scan₁ hnd hrun₁ h1
      refine ⟨scan', b', hrest, ?_⟩
      rcases h with ⟨hall, h⟩ | ⟨pre, first, post, t, b₁, scan₂, visited, rest, rfl, hpre, h⟩
      · exact .inl ⟨List.forall_mem_cons.mpr ⟨hn, hall⟩, h⟩
      · exact .inr ⟨key :: pre, first, post, t, b₁, scan₂, visited, rest, rfl,
          List.forall_mem_cons.mpr ⟨hn, hpre⟩, h⟩
    -- one version is counted, so from here on the budget is an ordinary one
    · have hw : Within options scan₁ := by
        refine ⟨hrun₁, ?_, ?_⟩ <;> rw [h1, hmax] <;> decide
      have hspec : Spec sp options.collapseFinalTombstones b₁ (gcKeys release sp options ks scan₁) _ :=
        gcKeys_spec hnd hw
      obtain ⟨scan', b', hrest, ⟨visited, rest, hks, hstep⟩, hrel, -⟩ := hspec.run steady_gcKeys
      exact ⟨scan', b', hrest, .inr ⟨[], key, ks, t, b₁, scan₁, visited, rest, rfl, by simp, hcol,
        hlat, hrem, hks, h1, hstep, hrel⟩⟩

end Unlimited

section Limits
variable (sp : Timestamp) (options : GcOptions) (b : InMemoryBackend)

/-- One call without a cursor keeps every read at or above the safe point, and
reports that it is done only with nothing left to remove. -/
def CollectsSafely : Prop :=
  ∃ res b', (gcIncremental sp none options).run b = (.ok res, b') ∧
    (∀ k r, sp ≤ r → ((read k r).run b').1 = ((read k r).run b).1) ∧
    (res.done = true → ∀ k, ¬ Debt sp (b'.history k))

/-- The first of the keys scanned that ends in a tombstone to collapse. -/
def FirstCollapsed (key : Key) : Prop :=
  key ∈ b.keysFrom none options.budget.maxKeys.val ∧
  Collapsible sp options.collapseFinalTombstones b key ∧
  ∀ k ∈ b.keysFrom none options.budget.maxKeys.val, k < key →
    ¬ Collapsible sp options.collapseFinalTombstones b k

/-- With `max_keys` at the maximum no key may have a version to remove. With only
`max_versions` at the maximum, the next version below the first collapsed
tombstone must be a tombstone too; and if all keys are scanned, a key with
versions to remove must come after that first one, or be it and have one older
version only. -/
def WithinLimits : Prop :=
  (options.budget.maxKeys = maxUsize → ∀ k, ¬ Debt sp (b.history k)) ∧
  (options.budget.maxKeys ≠ maxUsize → options.budget.maxVersions = maxUsize →
    (∀ key t u, FirstCollapsed sp options b key → Latest (b.history key) t →
      IsGreatest (dom (b.history key) ∩ Set.Iio t) u → b.history key u = some none) ∧
    (b.allKeys.length ≤ options.budget.maxKeys.val → ∀ k, Debt sp (b.history k) →
      ∃ key, FirstCollapsed sp options b key ∧ (key < k ∨ key = k ∧
        ∀ t, Latest (b.history key) t → (dom (b.history key) ∩ Set.Iio t).Subsingleton)))

variable {sp options b}

/-- The result of a step from the run of its loop. -/
theorem gcIncremental_of_gcKeys {scan : GcScan} {b' : InMemoryBackend} {keys : List Key}
    (hv : options.budget.Valid)
    (hkeys : b.keysFrom none (lookAhead options.budget.maxKeys.val) = keys)
    (h : (gcKeys release sp options (keys.take options.budget.maxKeys.val) {}).run b = (.ok scan, b')) :
    ∃ res, (gcIncremental sp none options).run b = (.ok res, b') ∧
      res.done = (!scan.exhaustedVersions && keys.length ≤ options.budget.maxKeys.val) := by
  subst hkeys
  have hcall : ∀ f : List Key → Engine GcError IncrementalGcResult,
      (backend (.keysFrom none (lookAhead options.budget.maxKeys.val)) release.failed >>= f).run b =
        (f (b.keysFrom none (lookAhead options.budget.maxKeys.val))).run b := fun _ => rfl
  unfold gcIncremental Build.gcIncremental
  rw [if_neg (not_or.mpr hv), Option.bind_none, hcall, run_bind, h]
  exact ⟨_, rfl, rfl⟩

/-- Two calls on one state return the same. -/
theorem collectsSafely_iff_of_run {res : IncrementalGcResult} {b' : InMemoryBackend}
    (h : (gcIncremental sp none options).run b = (.ok res, b')) :
    CollectsSafely sp options b ↔
      (∀ k r, sp ≤ r → ((read k r).run b').1 = ((read k r).run b).1) ∧
      (res.done = true → ∀ k, ¬ Debt sp (b'.history k)) := by
  constructor
  · rintro ⟨res', b'', h', hprop⟩
    rw [h] at h'
    cases h'
    exact hprop
  · exact fun hprop => ⟨res, b', h, hprop⟩

/-- With `max_keys` at the maximum the step looks at nothing. -/
theorem collectsSafely_maxKeys (hv : options.budget.Valid)
    (hk : options.budget.maxKeys = maxUsize) :
    CollectsSafely sp options b ↔ ∀ k, ¬ Debt sp (b.history k) := by
  have hkeys : b.keysFrom none (lookAhead options.budget.maxKeys.val) = [] := by
    rw [hk, lookAhead_maxUsize, InMemoryBackend.keysFrom_eq, List.take_zero]
  have hloop : (gcKeys release sp options (([] : List Key).take options.budget.maxKeys.val) {}).run b =
      (.ok {}, b) := by
    rw [List.take_nil]
    rfl
  obtain ⟨res, hrun, hdone⟩ := gcIncremental_of_gcKeys hv hkeys hloop
  rw [collectsSafely_iff_of_run hrun]
  have hdone : res.done = true := by simp [hdone]
  simp [hdone]

/-- Below the maximum the step does what it should. -/
theorem collectsSafely_belowMax (hb : b.Wf) (hv : options.budget.Valid) (hm : BelowMax options) :
    CollectsSafely sp options b := by
  obtain ⟨res, b', hrun, ⟨visited, hstep⟩, hrel, -⟩ := gcIncremental_run hv hm sp none b
  refine ⟨res, b', hrun, fun k r hr => hrel.read_eq hr, ?_⟩
  intro hdone k
  have hnext := hstep.done.mp hdone
  by_cases hk : k ∈ b.keysAt none
  · exact (hstep.clean k hk (by simp [hnext])).1
  · rw [hstep.off k fun hvis => hk (hstep.visits.subset hvis)]
    have hk : k ∉ b.allKeysSet := fun h => hk (Std.ExtTreeSet.mem_toList.mpr h)
    have hclean : Clean sp false b k := hb.clean_of_not_mem hk
    exact hclean.1

/-- The first key collapsed, from the place where the scan found it. -/
theorem firstCollapsed_iff {pre post : List Key} {first key : Key}
    (hks : b.keysFrom none options.budget.maxKeys.val = pre ++ first :: post)
    (hpre : ∀ k ∈ pre, ¬ Collapsible sp options.collapseFinalTombstones b k)
    (hfirst : Collapsible sp options.collapseFinalTombstones b first) :
    FirstCollapsed sp options b key ↔ key = first := by
  have hsorted : (pre ++ first :: post).Pairwise (· < ·) := by
    rw [← hks, InMemoryBackend.keysFrom_eq]
    exact (InMemoryBackend.keysAt_sorted b none).sublist (List.take_sublist _ _)
  obtain ⟨-, hpost, hcross⟩ := List.pairwise_append.mp hsorted
  unfold FirstCollapsed
  rw [hks]
  constructor
  · rintro ⟨hmem, hcol, hmin⟩
    rcases List.mem_append.mp hmem with hm | hm
    · exact absurd hcol (hpre key hm)
    · rcases List.mem_cons.mp hm with rfl | hm
      · rfl
      · exact absurd hfirst (hmin first (by simp) (List.rel_of_pairwise_cons hpost hm))
  · rintro rfl
    refine ⟨by simp, hfirst, ?_⟩
    intro k hk hlt
    rcases List.mem_append.mp hk with hk | hk
    · exact hpre k hk
    · rcases List.mem_cons.mp hk with rfl | hk
      · exact absurd hlt (lt_irrefl k)
      · exact absurd hlt (List.rel_of_pairwise_cons hpost hk).asymm

section Collapse
variable {first : Key} {t : Timestamp} {b₁ b' : InMemoryBackend} {collapse : Bool}

/-- The collapsed key without its tombstone. -/
theorem Removed.history_eq_update (h : Removed first [t] b b₁) :
    b₁.history first = Function.update (b.history first) t none := by
  funext u
  rw [h.here]
  by_cases hu : u = t <;> simp [hu]

/-- Reads stay as they were exactly where the collapse uncovers no value. -/
theorem reads_kept_iff (hfirst : Collapsible sp collapse b first) (hlat : Latest (b.history first) t)
    (hrem : Removed first [t] b b₁) (hrel : GcRel sp collapse b₁ b') :
    (∀ k r, sp ≤ r → ((read k r).run b').1 = ((read k r).run b).1) ↔
      ∀ u, IsGreatest (dom (b.history first) ∩ Set.Iio t) u → b.history first u = some none := by
  obtain ⟨-, -, t', ht', hlat', htomb⟩ := hfirst
  obtain rfl : t' = t := hlat'.unique hlat
  have hdeleted : ∀ r, sp ≤ r → (read first r).run b = (.ok none, b) := fun r hr =>
    read_ok.mpr (.inl ⟨t', hlat.visible (ht'.trans hr), htomb⟩)
  have hafter : ∀ r, sp ≤ r → ((read first r).run b' = (.ok none, b') ↔
      ∀ u, IsGreatest (dom (b.history first) ∩ Set.Iio t') u → b.history first u = some none) := by
    intro r hr
    rw [read_ok, ← (hrel.histories first).reads_iff hr, hrem.history_eq_update,
      reads_dropLatest hlat (ht'.trans hr)]
  constructor
  · intro h
    refine (hafter sp le_rfl).mp (Prod.ext ?_ rfl)
    rw [h first sp le_rfl, hdeleted sp le_rfl]
  · intro h k r hr
    by_cases hk : k = first
    · subst hk
      rw [(hafter r hr).mpr h, hdeleted r hr]
    · have hsame := hrem.off k hk
      have hlookup : b₁.getVisibleCommitted k r = b.getVisibleCommitted k r :=
        getVisibleCommitted_of_history hsame
      rw [hrel.read_eq hr, read_run, read_run, hlookup]

/-- The collapsed key keeps versions to remove exactly where it has two older ones. -/
theorem debt_collapsed_iff (hfirst : Collapsible sp collapse b first)
    (hlat : Latest (b.history first) t) (hrem : Removed first [t] b b₁) :
    Debt sp (b₁.history first) ↔ ¬ (dom (b.history first) ∩ Set.Iio t).Subsingleton := by
  obtain ⟨-, -, t', ht', hlat', -⟩ := hfirst
  obtain rfl : t' = t := hlat'.unique hlat
  rw [hrem.history_eq_update, debt_dropLatest hlat ht']

/-- The same for all keys, when the scan has reached their end. -/
theorem debts_gone_iff {pre post : List Key} (hb : b.Wf) (hks : b.allKeys = pre ++ first :: post)
    (hfirst : Collapsible sp collapse b first) (hlat : Latest (b.history first) t)
    (hrem : Removed first [t] b b₁) (hoff : ∀ k, k ∉ post → b'.history k = b₁.history k)
    (hclean : ∀ k ∈ post, Clean sp collapse b' k) :
    (∀ k, ¬ Debt sp (b'.history k)) ↔ ∀ k, Debt sp (b.history k) →
      first < k ∨ first = k ∧ (dom (b.history first) ∩ Set.Iio t).Subsingleton := by
  have hsorted : (pre ++ first :: post).Pairwise (· < ·) := by
    rw [← hks]
    exact OrderedSet.toList_sorted _
  obtain ⟨-, hpost, hcross⟩ := List.pairwise_append.mp hsorted
  have hlt : ∀ k ∈ post, first < k := fun k hk => List.rel_of_pairwise_cons hpost hk
  have hnot : first ∉ post := fun h => lt_irrefl first (hlt first h)
  constructor
  · intro h k hd
    by_cases hk : k ∈ post
    · exact .inl (hlt k hk)
    · by_cases hkf : k = first
      · subst hkf
        refine .inr ⟨rfl, ?_⟩
        have := h k
        rwa [hoff k hk, debt_collapsed_iff hfirst hlat hrem, not_not] at this
      · exact absurd hd (by rw [← hrem.off k hkf, ← hoff k hk]; exact h k)
  · intro h k
    by_cases hk : k ∈ post
    · exact (hclean k hk).1
    · rw [hoff k hk]
      by_cases hkf : k = first
      · subst hkf
        rw [debt_collapsed_iff hfirst hlat hrem, not_not]
        -- with an older version at all there is debt; without one there is nothing to show
        intro u hu w hw
        have hvis : Visible (b.history k) sp t := by
          obtain ⟨-, -, t', ht', hlat', -⟩ := hfirst
          obtain rfl : t' = t := hlat'.unique hlat
          exact hlat.visible ht'
        rcases h k ⟨t, hvis, u, hu.1, hu.2⟩ with hlt | ⟨-, hs⟩
        · exact absurd hlt (lt_irrefl k)
        · exact hs hu hw
      · rw [hrem.off k hkf]
        intro hd
        rcases h k hd with hlt' | ⟨he, -⟩
        · -- a key with a version is listed, and before `first` if not after it
          obtain ⟨u, hu, -⟩ := hd
          have hmem : k ∈ b.allKeys := Std.ExtTreeSet.mem_toList.mpr ((hb.keys k).mpr (.inl ⟨u, hu.1.1⟩))
          rw [hks] at hmem
          rcases List.mem_append.mp hmem with hm | hm
          · exact lt_asymm hlt' (hcross k hm first (by simp))
          · rcases List.mem_cons.mp hm with rfl | hm
            · exact hkf rfl
            · exact hk hm
        · exact hkf he.symm

end Collapse

/-- With only `max_versions` at the maximum, everything depends on the first
final tombstone that the scan meets. -/
theorem collectsSafely_maxVersions (hb : b.Wf) (hsize : b.committed.size < 2 ^ 64)
    (hv : options.budget.Valid) (hk : options.budget.maxKeys ≠ maxUsize)
    (hmax : options.budget.maxVersions = maxUsize) :
    CollectsSafely sp options b ↔
      (∀ key t u, FirstCollapsed sp options b key → Latest (b.history key) t →
        IsGreatest (dom (b.history key) ∩ Set.Iio t) u → b.history key u = some none) ∧
      (b.allKeys.length ≤ options.budget.maxKeys.val → ∀ k, Debt sp (b.history k) →
        ∃ key, FirstCollapsed sp options b key ∧ (key < k ∨ key = k ∧
          ∀ t, Latest (b.history key) t → (dom (b.history key) ∩ Set.Iio t).Subsingleton)) := by
  have hkeys : b.keysFrom none (lookAhead options.budget.maxKeys.val) =
      b.allKeys.take (options.budget.maxKeys.val + 1) := by
    rw [lookAhead_eq (val_lt_of_ne_maxUsize hk)]
    rfl
  have hnd : (b.keysFrom none options.budget.maxKeys.val).Nodup := by
    rw [InMemoryBackend.keysFrom_eq]
    exact InMemoryBackend.take_keysAt_nodup b none _
  obtain ⟨scan, b', hloop, h⟩ := gcKeys_unlimited sp b {} hmax hnd rfl rfl
  have htake : (b.allKeys.take (options.budget.maxKeys.val + 1)).take options.budget.maxKeys.val =
      b.keysFrom none options.budget.maxKeys.val := by
    rw [List.take_take, Nat.min_eq_left (Nat.le_succ _)]
    rfl
  have hlen : (b.allKeys.take (options.budget.maxKeys.val + 1)).length ≤ options.budget.maxKeys.val ↔
      b.allKeys.length ≤ options.budget.maxKeys.val := by
    rw [List.length_take]
    omega
  obtain ⟨res, hrun, hdone⟩ := gcIncremental_of_gcKeys hv hkeys (by rw [htake]; exact hloop)
  rw [collectsSafely_iff_of_run hrun]
  rcases h with ⟨hnone, rfl, hx⟩ | ⟨pre, first, post, t, b₁, scan₁, visited, rest, hks, hpre, hfirst,
    hlat, hrem, hpost, h1, hstep, hrel⟩
  · -- no final tombstone: nothing is removed
    have hno : ∀ key, ¬ FirstCollapsed sp options b' key := fun key hf => hnone key hf.1 hf.2.1
    simp only [hdone, hx, Bool.not_false, Bool.true_and, decide_eq_true_iff, hlen]
    simp [hno]
  · have hiff := fun key => @firstCollapsed_iff sp options b pre post first key hks hpre hfirst
    simp only [hiff]
    have hx : scan.exhaustedVersions = false := by
      have hless : b₁.committed.size + 1 = b.committed.size := hrem.size
      exact hstep.not_exhausted hmax (by omega)
    obtain ⟨rfl, -, hclean⟩ := hstep.goesOn hx
    rw [List.append_nil] at hpost
    subst hpost
    simp only [hdone, hx, Bool.not_false, Bool.true_and, decide_eq_true_iff, hlen]
    refine and_congr ?_ (imp_congr_right fun hall => ?_)
    · rw [reads_kept_iff hfirst hlat hrem hrel]
      constructor
      · rintro h key t' u rfl hlat' hu
        obtain rfl : t' = t := hlat'.unique hlat
        exact h u hu
      · exact fun h u hu => h first t u rfl hlat hu
    · have hks : b.allKeys = pre ++ first :: post := by
        rw [← hks]
        exact (List.take_of_length_le hall).symm
      rw [debts_gone_iff hb hks hfirst hlat hrem hstep.off hclean]
      refine forall_congr' fun k => imp_congr_right fun _ => ?_
      constructor
      · rintro (hlt | ⟨he, hs⟩)
        · exact ⟨first, rfl, .inl hlt⟩
        · exact ⟨first, rfl, .inr ⟨he, fun t' hlat' => hlat'.unique hlat ▸ hs⟩⟩
      · rintro ⟨key, rfl, hlt | ⟨he, hs⟩⟩
        · exact .inl hlt
        · exact .inr ⟨he, hs t hlat⟩

/-- Exactly when one call collects safely, for every budget it admits. -/
theorem collectsSafely_iff (hb : Buildable b) (hsize : b.committed.size < 2 ^ 64)
    (hv : options.budget.Valid) : CollectsSafely sp options b ↔ WithinLimits sp options b := by
  unfold WithinLimits
  by_cases hk : options.budget.maxKeys = maxUsize
  · rw [collectsSafely_maxKeys hv hk]
    simp [hk]
  · by_cases hmax : options.budget.maxVersions = maxUsize
    · rw [collectsSafely_maxVersions hb.wf hsize hv hk hmax]
      simp [hk, hmax]
    · have hm : BelowMax options := ⟨val_lt_of_ne_maxUsize hk, val_lt_of_ne_maxUsize hmax⟩
      simp [hk, hmax, collectsSafely_belowMax hb.wf hv hm]

/-- A value and a tombstone over it, collected with a budget just below the maximum. -/
theorem collectsSafely_iff_below_maximum :
    CollectsSafely 2 ⟨⟨8, maxUsize - 1⟩, true⟩
      (memCall (.putCommittedBatch [⟨[1], 1, some [7]⟩, ⟨[1], 2, none⟩]) .new).2 := by
  refine (collectsSafely_iff (.call _ .new) (by decide +kernel) ⟨by decide, by decide⟩).mpr ⟨?_, ?_⟩
  · intro h
    exact absurd h (by decide)
  · intro _ h
    exact absurd h (by decide)

/-- With `max_versions` at the maximum, collecting the same state brings the
deleted value back. With `max_keys` at the maximum, two versions of a key are left
as they are by a step that is done. -/
theorem maximal_budgets_fail :
    (¬ CollectsSafely 2 ⟨⟨8, maxUsize⟩, true⟩
      (memCall (.putCommittedBatch [⟨[1], 1, some [7]⟩, ⟨[1], 2, none⟩]) .new).2) ∧
    ¬ CollectsSafely 2 ⟨⟨maxUsize, 8⟩, false⟩
      (memCall (.putCommittedBatch [⟨[1], 1, some [7]⟩, ⟨[1], 2, some [8]⟩]) .new).2 := by
  constructor
  · rintro ⟨res, b', hrun, hreads, -⟩
    have h := hreads [1] 2 le_rfl
    rw [show b' = _ from (congrArg Prod.snd hrun).symm] at h
    revert h
    decide +kernel
  · rw [collectsSafely_maxKeys ⟨by decide, by decide⟩ rfl]
    intro h
    refine h [1] ⟨2, ?_, 1, mem_dom.mpr ⟨some [7], by decide +kernel⟩, by decide⟩
    refine (InMemoryBackend.getVisibleCommitted_eq_some (v := ⟨[1], 2, some [8]⟩).mp ?_).2.1
    decide +kernel

end Limits

end NexirMvcc
