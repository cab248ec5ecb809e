import NexirMvcc.KeyPlan
import NexirMvcc.Snapshots

/- Plans applied late. An adapter plans in one state and applies the plan in a
   later one, after writes it does not know of: the tombstone may no longer be the
   latest version, the key may hold an intent, and versions may have been written
   at or below the safe point. Every write path adds above all versions of its
   key, so the history the plan was made from is a lower part of the one it is
   applied to (`Extended`), and what the plan removes is still shadowed there. -/
namespace NexirMvcc
open VersionHistory StepRun

section Growth
variable {b : InMemoryBackend}

/-- A step that is not a collection extends every history. -/
theorem exec_extends {op : Op} (hgc : op.isGc = false) (b : InMemoryBackend) (k : Key) :
    Extended (b.history k) ((op.exec b).2.history k) := by
  rcases exec_history hgc b k with hsame | ⟨c, x, -, hlt, hnew⟩
  · rw [hsame]
    exact Extended.refl _
  · rw [hnew]
    exact Extended.update hlt

theorem final_extends {ops : List Op} (hops : ∀ op ∈ ops, op.isGc = false) (b : InMemoryBackend)
    (k : Key) : Extended (b.history k) ((final Op.exec b ops).history k) :=
  final_inv (P := fun b' => Extended (b.history k) (b'.history k))
    (fun b' op (hop : op.isGc = false) h => h.trans (exec_extends hop b' k)) hops (Extended.refl _)

/-- What a step of the run has written is new and stays. -/
theorem written_in_final {ops : List Op} (hops : ∀ op ∈ ops, op.isGc = false)
    {x : Step InMemoryBackend Op Result} (hx : x ∈ trace Op.exec b ops) {k : Key} {c : Timestamp}
    {v : Option Value} (hw : WroteValue x k c v) :
    (final Op.exec b ops).history k c = some v ∧ ∀ t ∈ dom (b.history k), t < c := by
  obtain ⟨pre, op, post, rfl, rfl⟩ := (mem_trace Op.exec).mp hx
  rw [List.forall_mem_append, List.forall_mem_cons] at hops
  obtain ⟨hpre, -, hpost⟩ := hops
  obtain ⟨hlt, hnew⟩ := hw.history
  constructor
  · rw [final_append]
    refine (final_extends hpost _ k).kept c v ?_
    rw [hnew, Function.update_self]
  · exact fun t ht => hlt t ((final_extends hpre b k).dom_sub ht)

end Growth

/-- What applying a plan made in `b` does to a state `b₁` that extends it. -/
structure LateRound (sp : Timestamp) (plan : KeyGcPlan) (b b₁ b₂ : InMemoryBackend) : Prop where
  read : ∀ k r, sp ≤ r → ((NexirMvcc.read k r).run b₂).1 = ((NexirMvcc.read k r).run b₁).1
  readWithVersion : plan.collapseTombstone = none → ∀ k r, sp ≤ r →
    ((NexirMvcc.readWithVersion k r).run b₂).1 = ((NexirMvcc.readWithVersion k r).run b₁).1
  intents : ∀ k, b₂.getIntent k = b₁.getIntent k
  kept : ∀ k t v, b₁.history k t = some v → (∀ u ∈ dom (b.history k), u < t) →
    b₂.history k t = some v

section Late
variable {b b₁ b₂ : InMemoryBackend} {key : Key} {sp t : Timestamp} {plan : KeyGcPlan}

/-- The listed versions are removed where a newer one is visible at the safe point. -/
theorem lateRound_remove (hext : ∀ k, Extended (b.history k) (b₁.history k))
    (ht : Visible (b.history key) sp t) {l : List Timestamp}
    (hl : ∀ u ∈ l, u ∈ dom (b.history key) ∧ u < t) (h : Removed key l b₁ b₂) :
    LateRound sp plan b b₁ b₂ := by
  -- the keeper of the later state is the planned one or a newer version
  have ht₁ : t ∈ dom (b₁.history key) := (hext key).dom_sub ht.1.1
  obtain ⟨u, hu⟩ := exists_visible ht₁ ht.1.2
  have htu : t ≤ u := hu.2 ⟨ht₁, ht.1.2⟩
  have hrel : GcRel sp false b₁ b₂ := h.gcRel hu fun w hw => (hl w hw).2.trans_le htu
  refine ⟨fun k r hr => hrel.read_eq hr, fun _ k r hr => hrel.readWithVersion_eq hr, h.intents, ?_⟩
  intro k w v hv hnew
  by_cases hk : k = key
  · subst hk
    have hw : w ∉ l := fun hw => lt_irrefl w (hnew w (hl w hw).1)
    rw [h.here, if_neg hw, hv]
  · rw [h.off k hk, hv]

/-- The list of the older versions is still complete: nothing was written below. -/
theorem collapse_below (hext : Extended (b.history key) (b₁.history key))
    (ht : t ∈ dom (b.history key)) {u : Timestamp} (hu : u ≤ t) :
    (b₁.collapseTombstone key t (b.olderThan key t)).history key u = none := by
  rw [InMemoryBackend.history_collapseTombstone]
  split
  · rfl
  · next hn =>
    refine not_mem_dom.mp fun hd => hn ⟨rfl, ?_⟩
    have hd' := hext.mem_of_le ht hd hu
    rcases hu.eq_or_lt with rfl | hlt
    · exact List.mem_cons_self
    · exact List.mem_cons_of_mem t (InMemoryBackend.mem_olderThan.mpr ⟨hd', hlt⟩)

/-- Nothing above the tombstone is on the list. -/
theorem collapse_above {u : Timestamp} (hu : t < u) :
    (b₁.collapseTombstone key t (b.olderThan key t)).history key u = b₁.history key u := by
  rw [InMemoryBackend.history_collapseTombstone, if_neg]
  rintro ⟨-, hm⟩
  rcases List.mem_cons.mp hm with rfl | hm
  · exact lt_irrefl u hu
  · exact lt_asymm hu (InMemoryBackend.mem_olderThan.mp hm).2

/-- The tombstone is removed with all that was below it; newer versions stay. -/
theorem lateRound_collapse (hext : ∀ k, Extended (b.history k) (b₁.history k)) (hsp : t ≤ sp)
    (htomb : b.history key t = some none) (hplan : plan.collapseTombstone = some t) :
    LateRound sp plan b b₁ (b₁.collapseTombstone key t (b.olderThan key t)) := by
  have ht : t ∈ dom (b.history key) := mem_dom.mpr ⟨none, htomb⟩
  refine ⟨?_, ?_, fun k => InMemoryBackend.getIntent_collapseTombstone, ?_⟩
  · intro k r hr
    have hx : (read k r).run b₁ = (.ok ((b₁.getVisibleCommitted k r).bind (·.value)), b₁) := read_run
    by_cases hk : k = key
    · subst hk
      have htomb₁ := (hext k).kept t none htomb
      have hreads := (reads_dropUpTo htomb₁ (fun _ => collapse_below (hext k) ht)
        (fun _ => collapse_above) (hsp.trans hr)).mp (read_ok.mp hx)
      rw [hx, read_ok.mpr hreads]
    · rw [read_run, read_run,
        getVisibleCommitted_of_history (InMemoryBackend.history_collapseTombstone_off hk)]
  · intro hnone
    rw [hplan] at hnone
    cases hnone
  · intro k u v hv hnew
    by_cases hk : k = key
    · subst hk
      rw [collapse_above (hnew t ht), hv]
    · rw [InMemoryBackend.history_collapseTombstone_off hk, hv]

/-- A plan can be applied in every state that extends the one it was made in. -/
theorem late_round {ε : Type} (wrap : String → ε) {options : KeyGcOptions}
    (hext : ∀ k, Extended (b.history k) (b₁.history k)) (h : Planned key sp options b plan) :
    ∃ b₂, (applyPlan wrap plan).run b₁ = (.ok (), b₂) ∧ LateRound sp plan b b₁ b₂ := by
  cases h with
  | idle hnone hplan =>
    subst hplan
    exact ⟨b₁, rfl, fun _ _ _ => rfl, fun _ _ _ _ => rfl, fun _ => rfl, fun _ _ _ h _ => h⟩
  | page t ht hkey hremove hcomplete hcollapse =>
    unfold applyPlan
    rw [hkey]
    cases hct : plan.collapseTombstone with
    | some u =>
      obtain ⟨rfl, hc, -, -, hf⟩ := (hcollapse u).mp hct
      have hall : plan.versionsToRemove = b.olderThan key u := by
        rw [hremove, List.take_of_length_le (hcomplete.mp hc).le]
      rw [hall]
      exact ⟨_, rfl, lateRound_collapse hext ht.1.2 ((finalTombstone_iff ht).mp hf).2 hct⟩
    | none =>
      have hsub := List.take_sublist options.maxVersionsExamined.val (b.olderThan key t)
      rw [← hremove] at hsub
      have hl : ∀ u ∈ plan.versionsToRemove, u ∈ dom (b.history key) ∧ u < t := fun u hu =>
        InMemoryBackend.mem_olderThan.mp (hsub.mem hu)
      obtain ⟨b₂, hrun, hrem⟩ := removeListed_run wrap
        (hsub.nodup (InMemoryBackend.olderThan_nodup b key t))
        (fun u hu => (hext key).dom_sub (hl u hu).1)
      exact ⟨b₂, hrun, lateRound_remove hext ht hl hrem⟩

end Late

/-- A plan stays safe when it is applied late. -/
theorem late_plan_safe {b : InMemoryBackend} {key : Key} {sp : Timestamp} {options : KeyGcOptions}
    {plan : KeyGcPlan} (hplan : ((planKeyGc key sp options).run b).1 = .ok plan) {ops : List Op}
    (hops : ∀ op ∈ ops, op.isGc = false) :
    let b₁ := final Op.exec b ops
    let b₂ := ((applyPlan GcError.backend plan).run b₁).2
    ((applyPlan GcError.backend plan).run b₁).1 = .ok () ∧
    (∀ k r, sp ≤ r → ((read k r).run b₂).1 = ((read k r).run b₁).1) ∧
    (plan.collapseTombstone = none →
      ∀ k r, sp ≤ r → ((readWithVersion k r).run b₂).1 = ((readWithVersion k r).run b₁).1) ∧
    (∀ k, b₂.getIntent k = b₁.getIntent k) ∧
    ∀ x ∈ trace Op.exec b ops, ∀ k commitTs v, WroteValue x k commitTs v →
      b₂.history k commitTs = some v := by
  intro b₁ b₂
  have hmax : options.maxVersionsExamined ≠ 0 := by
    intro h0
    unfold planKeyGc at hplan
    rw [if_pos h0] at hplan
    cases hplan
  obtain ⟨plan', hrun, hplanned⟩ := planKeyGc_run hmax key sp b
  rw [hrun] at hplan
  cases hplan
  obtain ⟨b₂', happly, hround⟩ := late_round GcError.backend (final_extends hops b) hplanned
  have hb₂ : b₂ = b₂' := congrArg Prod.snd happly
  rw [hb₂]
  refine ⟨congrArg Prod.fst happly, hround.read, hround.readWithVersion, hround.intents, ?_⟩
  intro x hx k commitTs v hw
  obtain ⟨hv, hnew⟩ := written_in_final hops hx hw
  exact hround.kept k commitTs v hv hnew

/-- The tombstone of the plan is shadowed by a version below the safe point, and the
key is locked again, before the plan is applied. -/
theorem late_plan_safe_recreated_key :
    let b := stateAfter [.applyDirectBatch 1 [⟨[1], some [7]⟩], .applyDirectBatch 2 [⟨[1], none⟩]]
    let plan : KeyGcPlan := ⟨[1], [1], some 2, 1, true⟩
    let b₁ := final Op.exec b [.applyDirectBatch 3 [⟨[1], some [9]⟩], .prewrite 5 3 [1] .delete]
    ((planKeyGc [1] 4 ⟨5, true⟩).run b).1 = .ok plan ∧
    ((read [1] 4).run ((applyPlan GcError.backend plan).run b₁).2).1 = .ok (some [9]) := by
  intro b plan b₁
  have hplan : ((planKeyGc [1] 4 ⟨5, true⟩).run b).1 = .ok plan := by decide +kernel
  have hread : ((read [1] 4).run b₁).1 = .ok (some [9]) := by decide +kernel
  refine ⟨hplan, ?_⟩
  have hops : ∀ op ∈ [Op.applyDirectBatch 3 [⟨[1], some [9]⟩], .prewrite 5 3 [1] .delete],
      op.isGc = false := by decide
  rw [← hread]
  exact (late_plan_safe hplan hops).2.1 [1] 4 le_rfl

end NexirMvcc
