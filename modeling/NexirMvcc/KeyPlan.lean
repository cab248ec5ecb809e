import NexirMvcc.Runs

/- Plans for one key against the collection of the whole keyspace. A client
   applies the plan it is given and asks for the next one, until a plan is
   complete. Each round removes a page of the versions older than the keeper, or
   all that is left of them, and collapses a final tombstone only together with
   the last of them; so the rounds end, with the key as a full collection leaves
   it. -/
namespace NexirMvcc
open VersionHistory

section Client
variable {ε : Type}

/-- Remove the listed versions one by one. -/
def removeListed (wrap : String → ε) (key : Key) : List Timestamp → Engine ε Unit
  | [] => pure ()
  | ts :: rest => do
    let _ ← backend (.removeCommittedVersion key ts) wrap
    removeListed wrap key rest

/-- `apply_plan` of the planner's contract tests. -/
def applyPlan (wrap : String → ε) (plan : KeyGcPlan) : Engine ε Unit :=
  match plan.collapseTombstone with
  | some tombstoneTs => do
    let _ ← backend (.collapseTombstone plan.key tombstoneTs plan.versionsToRemove) wrap
    pure ()
  | none => removeListed wrap plan.key plan.versionsToRemove

/-- Plan and apply until a plan is complete, for at most `fuel` rounds: the last
plan, or `none` where none was complete. -/
def drainKey (key : Key) (safePointTs : Timestamp) (options : KeyGcOptions) :
    Nat → Engine GcError (Option KeyGcPlan)
  | 0 => pure none
  | fuel + 1 => do
    let plan ← planKeyGc key safePointTs options
    applyPlan GcError.backend plan
    if plan.complete then pure (some plan) else drainKey key safePointTs options fuel

end Client

section Removal
variable {ε : Type} {key : Key} {l : List Timestamp} {b b' : InMemoryBackend}
  {sp t : Timestamp}

theorem removeListed_run (wrap : String → ε) (hnd : l.Nodup) (hl : ∀ u ∈ l, u ∈ dom (b.history key)) :
    ∃ b', (removeListed wrap key l).run b = (.ok (), b') ∧ Removed key l b b' := by
  induction l generalizing b with
  | nil => exact ⟨b, rfl, Removed.nil key b⟩
  | cons u l ih =>
    obtain ⟨hu, hl⟩ := List.forall_mem_cons.mp hl
    obtain ⟨hul, hnd⟩ := List.nodup_cons.mp hnd
    have hone := removed_removeCommittedVersion hu
    have hrest : ∀ w ∈ l, w ∈ dom ((b.removeCommittedVersion key u).history key) := fun w hw =>
      hone.mem_dom_iff.mpr ⟨hl w hw, fun he => hul (List.mem_singleton.mp he ▸ hw)⟩
    obtain ⟨b', hrun, hrem⟩ := ih hnd hrest
    exact ⟨b', hrun, hone.cons hrem⟩

/-- Removing versions older than the keeper is a collection. -/
theorem Removed.gcRel {collapse : Bool} (h : Removed key l b b')
    (ht : Visible (b.history key) sp t) (hl : ∀ u ∈ l, u < t) : GcRel sp collapse b b' := by
  refine ⟨h.intents, fun k => ?_⟩
  by_cases hk : k = key
  · subst hk
    exact .inl (h.pruned hl ht.1.2 ht.1.1)
  · rw [h.off k hk]
    exact Collected.refl _ _ _

end Removal

section Plan
variable {key : Key} {sp : Timestamp} {options : KeyGcOptions} {b : InMemoryBackend}
  {keeper : CommittedVersion}

theorem planCollapse_run (options : KeyGcOptions)
    (hk : b.getVisibleCommitted key sp = some keeper) :
    ∃ c, (planCollapse options key keeper).run b = (.ok c, b) ∧
      (c = true ↔ Collapsible sp options.collapseFinalTombstones b key) := by
  obtain ⟨-, hvis, hval⟩ := InMemoryBackend.getVisibleCommitted_eq_some.mp hk
  unfold planCollapse Collapsible
  rw [finalTombstone_iff hvis, hval]
  split
  · next h =>
    obtain ⟨hflag, hnone⟩ := h
    rw [run_getIntent]
    split
    · next hi =>
      rw [run_getLatestCommitTs]
      refine ⟨_, rfl, ?_⟩
      simp only [hflag, Option.isNone_iff_eq_none.mp hi, Option.isNone_iff_eq_none.mp hnone,
        decide_eq_true_iff, true_and, and_true, InMemoryBackend.getLatestCommitTs_eq_some]
    · next hi =>
      refine ⟨false, rfl, ?_⟩
      simp only [Bool.false_eq_true, false_iff]
      exact fun hc => hi (by rw [hc.2.1]; rfl)
  · next h =>
    refine ⟨false, rfl, ?_⟩
    simp only [Bool.false_eq_true, false_iff]
    rintro ⟨hflag, -, -, htomb⟩
    exact h ⟨hflag, by rw [Option.some.inj htomb]; rfl⟩

/-- What the plan for `key` says in `b`: the key has no keeper, or the plan lists a
page of what is older than the keeper, and collapses it if it is a final tombstone
and the page holds all of its older versions. -/
inductive Planned (key : Key) (sp : Timestamp) (options : KeyGcOptions) (b : InMemoryBackend)
    (plan : KeyGcPlan) : Prop where
  | idle (hnone : ∀ t ≤ sp, b.history key t = none) (hplan : plan = ⟨key, [], none, 0, true⟩)
  | page (t : Timestamp) (ht : Visible (b.history key) sp t) (hkey : plan.key = key)
      (hremove : plan.versionsToRemove =
        (b.olderThan key t).take options.maxVersionsExamined.val)
      (hcomplete : plan.complete = true ↔
        (b.olderThan key t).length < options.maxVersionsExamined.val)
      (hcollapse : ∀ u, plan.collapseTombstone = some u ↔ u = t ∧ plan.complete = true ∧
        Collapsible sp options.collapseFinalTombstones b key)

theorem planKeyGc_run (hmax : options.maxVersionsExamined ≠ 0) (key : Key) (sp : Timestamp)
    (b : InMemoryBackend) :
    ∃ plan, (planKeyGc key sp options).run b = (.ok plan, b) ∧ Planned key sp options b plan := by
  unfold planKeyGc
  rw [if_neg hmax, run_getVisibleCommitted]
  cases hk : b.getVisibleCommitted key sp with
  | none =>
    exact ⟨_, rfl, .idle (InMemoryBackend.getVisibleCommitted_eq_none.mp hk) rfl⟩
  | some keeper =>
    obtain ⟨-, hvis, -⟩ := InMemoryBackend.getVisibleCommitted_eq_some.mp hk
    obtain ⟨c, hc, hiff⟩ := planCollapse_run options hk
    dsimp only
    rw [run_bind, hc]
    refine ⟨_, rfl, .page keeper.commitTs hvis rfl ?_ ?_ ?_⟩
    · rw [InMemoryBackend.getCommittedTimestampsBefore_eq, List.take_take, Nat.min_self]
    · rw [InMemoryBackend.getCommittedTimestampsBefore_eq, List.length_take, decide_eq_true_iff]
      omega
    · intro u
      rw [← hiff]
      cases c <;> simp [Option.filter_eq_some_iff, eq_comm (a := u)]

/-- A clean key has an empty plan. -/
theorem Planned.of_clean {plan : KeyGcPlan} (h : Planned key sp options b plan)
    (hc : Clean sp options.collapseFinalTombstones b key) :
    plan.versionsToRemove = [] ∧ plan.collapseTombstone = none := by
  cases h with
  | idle hnone hplan =>
    rw [hplan]
    exact ⟨rfl, rfl⟩
  | page t ht hkey hremove hcomplete hcollapse =>
    constructor
    · have hold : b.olderThan key t = [] := by
        refine List.eq_nil_iff_forall_not_mem.mpr fun u hu => hc.1 ⟨t, ht, u, ?_⟩
        exact InMemoryBackend.mem_olderThan.mp hu
      rw [hremove, hold, List.take_nil]
    · refine Option.eq_none_iff_forall_not_mem.mpr fun u hu => hc.2 ?_
      exact ((hcollapse u).mp hu).2.2

/-- What applying a plan does: part of a collection, on its key only. A complete
plan leaves the key clean, another one leaves fewer versions. -/
structure PlanRound (key : Key) (sp : Timestamp) (options : KeyGcOptions) (b : InMemoryBackend)
    (plan : KeyGcPlan) (b' : InMemoryBackend) : Prop where
  rel : GcRel sp options.collapseFinalTombstones b b'
  off : ∀ k, k ≠ key → b'.history k = b.history k
  clean : plan.complete = true → Clean sp options.collapseFinalTombstones b' key
  shrinks : plan.complete = false → b'.committed.size < b.committed.size

/-- A plan that collapses its tombstone. -/
theorem planRound_collapse {plan : KeyGcPlan} {t : Timestamp} (ht : Visible (b.history key) sp t)
    (hremove : plan.versionsToRemove = b.olderThan key t) (hcomplete : plan.complete = true)
    (hc : Collapsible sp options.collapseFinalTombstones b key) :
    PlanRound key sp options b plan (b.collapseTombstone key t plan.versionsToRemove) := by
  rw [hremove]
  obtain ⟨hflag, hi, hf⟩ := hc
  obtain ⟨hlat, htomb⟩ := (finalTombstone_iff ht).mp hf
  have hrel : GcRel sp options.collapseFinalTombstones b
      (b.collapseTombstone key t (b.olderThan key t)) :=
    gcRel_of_contract (c := .collapseTombstone key t (b.olderThan key t))
      ⟨hflag, hi, ht.1.2, hlat, htomb, InMemoryBackend.olderThan_nodup b key t,
        fun _ => InMemoryBackend.mem_olderThan⟩
  refine ⟨hrel, fun k hk => InMemoryBackend.history_collapseTombstone_off hk, fun _ => ?_, ?_⟩
  · have hempty := collapseTombstone_empties hlat fun _ => InMemoryBackend.mem_olderThan
    exact clean_of_invisible fun u _ => hempty u
  · rw [hcomplete]
    exact fun h => nomatch h

/-- A plan that only removes versions. -/
theorem planRound_remove {plan : KeyGcPlan} {b' : InMemoryBackend} {t : Timestamp}
    (hmax : options.maxVersionsExamined ≠ 0) (ht : Visible (b.history key) sp t)
    (hremove : plan.versionsToRemove =
      (b.olderThan key t).take options.maxVersionsExamined.val)
    (hcomplete : plan.complete = true ↔
      (b.olderThan key t).length < options.maxVersionsExamined.val)
    (hnot : plan.complete = true → ¬ Collapsible sp options.collapseFinalTombstones b key)
    (h : Removed key plan.versionsToRemove b b') : PlanRound key sp options b plan b' := by
  have hold : ∀ u ∈ plan.versionsToRemove, u < t := by
    intro u hu
    rw [hremove] at hu
    exact (InMemoryBackend.mem_olderThan.mp (List.mem_of_mem_take hu)).2
  refine ⟨h.gcRel ht hold, h.off, fun hc => ?_, fun hc => ?_⟩
  · have hall : plan.versionsToRemove = b.olderThan key t := by
      rw [hremove, List.take_of_length_le (hcomplete.mp hc).le]
    rw [hall] at h
    exact h.clean ht (hnot hc)
  -- a full page is not empty
  · have hmore : ¬ (b.olderThan key t).length < options.maxVersionsExamined.val := by
      rw [← hcomplete, hc]
      simp
    have hpos : options.maxVersionsExamined.val ≠ 0 := Fin.val_ne_zero_iff.mpr hmax
    have hsize := h.size
    rw [hremove, List.length_take] at hsize
    omega

/-- One round: planning changes nothing, and the plan can be applied. -/
theorem plan_round {ε : Type} (wrap : String → ε) {plan : KeyGcPlan}
    (hmax : options.maxVersionsExamined ≠ 0) (h : Planned key sp options b plan) :
    ∃ b', (applyPlan wrap plan).run b = (.ok (), b') ∧ PlanRound key sp options b plan b' := by
  cases h with
  | idle hnone hplan =>
    subst hplan
    exact ⟨b, rfl, GcRel.refl _ _ b, fun _ _ => rfl, fun _ => clean_of_invisible hnone,
      fun h => nomatch h⟩
  | page t ht hkey hremove hcomplete hcollapse =>
    unfold applyPlan
    rw [hkey]
    cases hct : plan.collapseTombstone with
    | some u =>
      obtain ⟨rfl, hc, hcol⟩ := (hcollapse u).mp hct
      have hall : plan.versionsToRemove = b.olderThan key u := by
        rw [hremove, List.take_of_length_le (hcomplete.mp hc).le]
      exact ⟨_, rfl, planRound_collapse ht hall hc hcol⟩
    | none =>
      have hsub := List.take_sublist options.maxVersionsExamined.val (b.olderThan key t)
      rw [← hremove] at hsub
      obtain ⟨b', hrun, hrem⟩ := removeListed_run wrap
        (hsub.nodup (InMemoryBackend.olderThan_nodup b key t))
        (fun u hu => (InMemoryBackend.mem_olderThan.mp (hsub.mem hu)).1)
      refine ⟨b', hrun, planRound_remove hmax ht hremove hcomplete (fun hc hcol => ?_) hrem⟩
      -- a complete plan of a collapsible key would have collapsed it
      rw [(hcollapse t).mpr ⟨rfl, hc, hcol⟩] at hct
      cases hct

/-- The rounds end with a complete plan, and then the key is clean. -/
theorem drainKey_run (hmax : options.maxVersionsExamined ≠ 0) (key : Key) (sp : Timestamp)
    (b : InMemoryBackend) :
    ∃ plan b', plan.complete = true ∧
      (∀ fuel, b.committed.size < fuel →
        (drainKey key sp options fuel).run b = (.ok (some plan), b')) ∧
      GcRel sp options.collapseFinalTombstones b b' ∧
      (∀ k, k ≠ key → b'.history k = b.history k) ∧
      Clean sp options.collapseFinalTombstones b' key := by
  -- every round but the last removes a version
  induction hn : b.committed.size using Nat.strong_induction_on generalizing b with
  | _ n ih =>
    obtain ⟨plan, hplan, hplanned⟩ := planKeyGc_run hmax key sp b
    obtain ⟨b₁, happly, hround⟩ := plan_round GcError.backend hmax hplanned
    cases hc : plan.complete with
    | true =>
      refine ⟨plan, b₁, hc, fun fuel hfuel => ?_, hround.rel, hround.off, hround.clean hc⟩
      obtain ⟨fuel, rfl⟩ := Nat.exists_eq_succ_of_ne_zero (Nat.ne_zero_of_lt hfuel)
      simp only [drainKey, run_bind, hplan, happly, hc, if_true, run_pure]
    | false =>
      have hlt := hround.shrinks hc
      obtain ⟨plan', b', hc', hrun, hrel, hoff, hclean⟩ := ih _ (hn ▸ hlt) b₁ rfl
      refine ⟨plan', b', hc', fun fuel hfuel => ?_, hround.rel.trans hrel,
        fun k hk => (hoff k hk).trans (hround.off k hk), hclean⟩
      obtain ⟨fuel, rfl⟩ := Nat.exists_eq_succ_of_ne_zero (Nat.ne_zero_of_lt hfuel)
      simp only [drainKey, run_bind, hplan, happly, hc, Bool.false_eq_true, if_false]
      exact hrun fuel (by omega)

end Plan

/-- The planner and the collection of the keyspace agree. Planning and applying
ends with a complete plan, and leaves of the key exactly the versions that `gc`
leaves, with every other key and every intent as it was. After a complete plan is
applied there is nothing more to plan. -/
theorem key_plans_match_gc {b : InMemoryBackend} (hb : Buildable b) (key : Key) (sp : Timestamp)
    (options : KeyGcOptions) (hmax : options.maxVersionsExamined ≠ 0) :
    (∃ plan b', plan.complete = true ∧
      (∀ fuel, b.committed.size < fuel →
        (drainKey key sp options fuel).run b = (.ok (some plan), b')) ∧
      (∀ gcOptions : GcOptions, gcOptions.budget.Valid → BelowMax gcOptions →
        gcOptions.collapseFinalTombstones = options.collapseFinalTombstones →
        ∃ stats b'', (∀ fuel, gcFuel b ≤ fuel →
            (gc fuel sp gcOptions).run b = (.ok (some stats), b'')) ∧
          b'.history key = b''.history key) ∧
      (∀ k, k ≠ key → b'.history k = b.history k) ∧ b'.intents = b.intents) ∧
    ∀ plan, (planKeyGc key sp options).run b = (.ok plan, b) → plan.complete = true →
      ∃ b₁ plan', (applyPlan GcError.backend plan).run b = (.ok (), b₁) ∧
        (planKeyGc key sp options).run b₁ = (.ok plan', b₁) ∧
        plan'.versionsToRemove = [] ∧ plan'.collapseTombstone = none := by
  constructor
  · obtain ⟨plan, b', hc, hrun, hrel, hoff, hclean⟩ := drainKey_run hmax key sp b
    refine ⟨plan, b', hc, hrun, ?_, hoff, Std.ExtTreeMap.ext_getElem? hrel.intents⟩
    intro gcOptions hv hm hflag
    obtain ⟨stats, b'', hgc, -, hrel', hclean', -⟩ := gc_run sp hv hm hb.wf
    rw [hflag] at hrel' hclean'
    refine ⟨stats, b'', hgc, ?_⟩
    funext t
    -- a clean key has exactly the versions that a full collection leaves
    exact Option.ext fun v => (hrel.exact_of_clean hclean t v).trans
      (hrel'.exact_of_clean (hclean' key) t v).symm
  · intro plan hplan hc
    obtain ⟨plan₀, hplan₀, hplanned⟩ := planKeyGc_run hmax key sp b
    obtain rfl : plan₀ = plan := by
      rw [hplan₀] at hplan
      injection hplan with h
      injection h
    obtain ⟨b₁, happly, hround⟩ := plan_round GcError.backend hmax hplanned
    obtain ⟨plan', hplan', hplanned'⟩ := planKeyGc_run hmax key sp b₁
    exact ⟨b₁, plan', happly, hplan', hplanned'.of_clean (hround.clean hc)⟩

/-- A deleted key whose two older versions exactly fill the page: the tombstone
waits for the second plan. -/
theorem key_plans_match_gc_full_page :
    let b := stateAfter [.applyDirectBatch 1 [⟨[1], some [7]⟩], .applyDirectBatch 2 [⟨[1], some [8]⟩],
      .applyDirectBatch 3 [⟨[1], none⟩]]
    ∃ plan b' stats b'', (drainKey [1] 4 ⟨2, true⟩ 4).run b = (.ok (some plan), b') ∧
      (gc (gcFuel b) 4 ⟨⟨1, 1⟩, true⟩).run b = (.ok (some stats), b'') ∧
      b'.history [1] = b''.history [1] := by
  intro b
  have hsize : b.committed.size < 4 := by decide +kernel
  have hb : Buildable b := buildable_final .new _
  clear_value b
  obtain ⟨⟨plan, b', -, hrun, hgc, -⟩, -⟩ := key_plans_match_gc hb [1] 4 ⟨2, true⟩ (by decide)
  obtain ⟨stats, b'', hrun', hsame⟩ :=
    hgc ⟨⟨1, 1⟩, true⟩ ⟨by decide, by decide⟩ ⟨by decide, by decide⟩ rfl
  exact ⟨plan, b', stats, b'', hrun 4 hsize, hrun' _ le_rfl, hsame⟩

end NexirMvcc
