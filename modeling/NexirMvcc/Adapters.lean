import NexirMvcc.Erasure
import NexirMvcc.Faults
import NexirMvcc.KeyPlan
import NexirMvcc.Foundation.LateRemoval

/- An adapter at work. Clients use the engine, the keyspace is collected, and plans
   for single keys are made, kept and applied: late, in any order, more than once,
   and in part where a backend call fails. Any call of any operation may fail.

   What is proved:
     1. `faults_and_collections_invisible` — as long as nothing is collapsed, the
        clients cannot tell such a run from one without faults, collections and
        plans, in which just the operations that no fault ended are done.
     2. `collapsing_plans_invisible` — with collapsing, the same of the operations
        that stay above the safe points used before them.

   A plan that is kept refers to a history that others go on changing. It stays
   applicable because its keeper is still there or something newer at or below a
   safe point is (`Removable`), or because all it was about is gone (`Droppable`). -/
namespace NexirMvcc
open VersionHistory StepRun CallTree

inductive AdapterOp where
  | engine (op : Op)
  | plan (key : Key) (safePointTs : Timestamp) (options : KeyGcOptions)
  | apply (plan : KeyGcPlan)

inductive AdapterResult where
  | engine (r : Result)
  | plan (r : Except GcError KeyGcPlan)
  | apply (r : Except GcError Unit)

/-- The backend, and the plans made so far. -/
structure AdapterState where
  backend : InMemoryBackend
  plans : List KeyGcPlan

def AdapterState.new : AdapterState := ⟨.new, []⟩

/-- A step. Only a plan that was made before can be applied. -/
inductive AdapterStep : AdapterState → AdapterOp → AdapterResult → AdapterState → Prop where
  | engine {op : Op} {b b' : InMemoryBackend} {r : Result} {plans : List KeyGcPlan} :
      op.Execs b r b' → AdapterStep ⟨b, plans⟩ (.engine op) (.engine r) ⟨b', plans⟩
  | plan {key : Key} {sp : Timestamp} {options : KeyGcOptions} {b b' : InMemoryBackend}
      {es : List (CallEvent BackendCall.Reply String)} {r : Except GcError KeyGcPlan}
      {plans : List KeyGcPlan} : Exec memCall.faulty (planKeyGc key sp options) b es r b' →
      AdapterStep ⟨b, plans⟩ (.plan key sp options) (.plan r) ⟨b', plans ++ r.toOption.toList⟩
  | apply {plan : KeyGcPlan} {b b' : InMemoryBackend}
      {es : List (CallEvent BackendCall.Reply String)} {r : Except GcError Unit}
      {plans : List KeyGcPlan} : plan ∈ plans →
      Exec memCall.faulty (applyPlan GcError.backend plan) b es r b' →
      AdapterStep ⟨b, plans⟩ (.apply plan) (.apply r) ⟨b', plans⟩

/-- The safe point that a collection or a plan uses. -/
def AdapterOp.safePoint : AdapterOp → Option Timestamp
  | .engine op => op.effect.safePoint
  | .plan _ sp _ => some sp
  | .apply _ => none

abbrev AdapterRun := List (Step AdapterState AdapterOp AdapterResult)

/-- The safe points of a run. -/
def cutoffs (xs : AdapterRun) : List Timestamp := xs.filterMap fun x => x.op.safePoint

/-- The client operation of a step that no fault ended, with its result. -/
def completed (x : Step AdapterState AdapterOp AdapterResult) : Option (Op × Result) :=
  match x.op, x.result with
  | .engine op, .engine r => if op.isGc || r.isFault then none else some (op, r)
  | _, _ => none

theorem cutoffs_append (xs : AdapterRun) (x : Step AdapterState AdapterOp AdapterResult) :
    cutoffs (xs ++ [x]) = cutoffs xs ++ x.op.safePoint.toList := by
  unfold cutoffs
  rw [List.filterMap_append]
  cases h : x.op.safePoint <;> simp [h]

/-- A completed operation did what it does when no call fails. -/
theorem completed_eq_some {x : Step AdapterState AdapterOp AdapterResult} {op : Op} {r : Result}
    (hx : AdapterStep x.before x.op x.result x.after) (h : completed x = some (op, r)) :
    op.isGc = false ∧ x.op = .engine op ∧ r = (op.exec x.before.backend).1 ∧
      x.after = ⟨(op.exec x.before.backend).2, x.before.plans⟩ := by
  obtain ⟨before, op', result, after⟩ := x
  dsimp only at hx ⊢
  cases hx with
  | @engine op' b b₁ r' plans hexec =>
    unfold completed at h
    dsimp only at h
    split at h
    · cases h
    · next hn =>
      obtain ⟨hgc, hfault⟩ : op'.isGc = false ∧ r'.isFault = false := by simpa using hn
      cases h
      rcases hexec.exact_or_fault hgc with hexact | ⟨hf, -⟩
      · rw [hexact]
        exact ⟨hgc, rfl, rfl, rfl⟩
      · rw [hfault] at hf
        cases hf
  | plan _ => cases h
  | apply _ _ => cases h

/-! Plans. -/

/-- The versions that applying the plan removes. -/
def KeyGcPlan.drops (plan : KeyGcPlan) : List Timestamp :=
  plan.collapseTombstone.toList ++ plan.versionsToRemove

/-- What a removal of versions of one key does. -/
structure Dropped (key : Key) (L : List Timestamp) (b b' : InMemoryBackend) : Prop where
  here : b'.history key = without (b.history key) L
  off : ∀ k, k ≠ key → b'.history k = b.history k
  intents : ∀ k, b'.getIntent k = b.getIntent k

section Plans
variable {key : Key} {L : List Timestamp} {b b' b'' : InMemoryBackend} {plan : KeyGcPlan}

protected theorem Dropped.nil (key : Key) (b : InMemoryBackend) : Dropped key [] b b :=
  ⟨without_nil.symm, fun _ _ => rfl, fun _ => rfl⟩

theorem Dropped.cons {t : Timestamp} (h : Dropped key L (b.removeCommittedVersion key t) b') :
    Dropped key (t :: L) b b' := by
  refine ⟨?_, fun k hk => ?_, fun k => ?_⟩
  · rw [h.here, InMemoryBackend.history_removeCommittedVersion, if_pos rfl, without_cons]
  · rw [h.off k hk, InMemoryBackend.history_removeCommittedVersion, if_neg (Ne.symm hk)]
  · rw [h.intents k, InMemoryBackend.getIntent_removeCommittedVersion]

theorem dropped_collapseTombstone (key : Key) (t : Timestamp) (older : List Timestamp)
    (b : InMemoryBackend) : Dropped key (t :: older) b (b.collapseTombstone key t older) := by
  refine ⟨?_, fun k hk => InMemoryBackend.history_collapseTombstone_off hk,
    fun k => InMemoryBackend.getIntent_collapseTombstone⟩
  funext u
  rw [InMemoryBackend.history_collapseTombstone]
  simp [without]

theorem removeListed_exec {ε : Type} {wrap : String → ε} {l : List Timestamp}
    {es : List (CallEvent BackendCall.Reply String)} {r : Except ε Unit}
    (he : Exec memCall.faulty (removeListed wrap key l) b es r b') :
    ∃ L ⊆ l, Dropped key L b b' := by
  induction l generalizing b es with
  | nil =>
    cases he
    exact ⟨[], List.Subset.refl _, Dropped.nil key _⟩
  | cons t l ih =>
    cases he with
    | @call _ _ _ b₁ _ x _ _ hd hrest =>
      rcases hd with hd | ⟨⟨msg, rfl⟩, rfl⟩
      · -- the version is removed, and the loop goes on
        cases hd
        obtain ⟨L, hL, hdrop⟩ := ih hrest
        exact ⟨t :: L, List.cons_subset_cons t hL, hdrop.cons⟩
      · cases hrest
        exact ⟨[], List.nil_subset _, Dropped.nil key _⟩

/-- Applying a plan removes what it lists, or part of it where a call fails; a
tombstone is collapsed with all that is listed or not at all. -/
theorem applyPlan_exec {ε : Type} {wrap : String → ε}
    {es : List (CallEvent BackendCall.Reply String)} {r : Except ε Unit}
    (he : Exec memCall.faulty (applyPlan wrap plan) b es r b') :
    ∃ L ⊆ plan.drops, (plan.collapseTombstone = none ∨ L = [] ∨ L = plan.drops) ∧
      Dropped plan.key L b b' := by
  unfold applyPlan at he
  unfold KeyGcPlan.drops
  cases hc : plan.collapseTombstone with
  | none =>
    rw [hc] at he
    obtain ⟨L, hL, hdrop⟩ := removeListed_exec he
    exact ⟨L, hL, .inl rfl, hdrop⟩
  | some t =>
    rw [hc] at he
    cases he with
    | @call _ _ _ b₁ _ x _ _ hd hrest =>
      rcases hd with hd | ⟨⟨msg, rfl⟩, rfl⟩
      · cases hd
        cases hrest
        exact ⟨_, List.Subset.refl _, .inr (.inr rfl), dropped_collapseTombstone _ t _ _⟩
      · cases hrest
        exact ⟨[], List.nil_subset _, .inr (.inl rfl), Dropped.nil _ _⟩

theorem readOnly_planKeyGc (key : Key) (sp : Timestamp) (options : KeyGcOptions) :
    ReadOnly BackendCall.mutates (planKeyGc key sp options) := by
  unfold planKeyGc
  split
  · trivial
  · refine readOnly_read rfl fun keeper => ?_
    cases keeper with
    | none => trivial
    | some keeper =>
      refine ReadOnly.bind ?_ fun _ => readOnly_read rfl fun _ => trivial
      unfold planCollapse
      split
      · refine readOnly_read rfl fun intent => ?_
        split
        · exact readOnly_read rfl fun _ => trivial
        · trivial
      · trivial

theorem strict_planKeyGc (key : Key) (sp : Timestamp) (options : KeyGcOptions) :
    Strict (fun _ => True) (planKeyGc key sp options) := by
  unfold planKeyGc
  split
  · trivial
  · refine strict_backend (fun _ => trivial) fun keeper => ?_
    cases keeper with
    | none => trivial
    | some keeper =>
      refine Strict.bind ?_ fun _ => strict_backend (fun _ => trivial) fun _ => trivial
      unfold planCollapse
      split
      · refine strict_backend (fun _ => trivial) fun intent => ?_
        split
        · exact strict_backend (fun _ => trivial) fun _ => trivial
        · trivial
      · trivial

/-- Planning changes nothing, and the plan it returns is the one for the state. -/
theorem planKeyGc_exec {sp : Timestamp} {options : KeyGcOptions}
    {es : List (CallEvent BackendCall.Reply String)} {r : Except GcError KeyGcPlan}
    (he : Exec memCall.faulty (planKeyGc key sp options) b es r b') :
    b' = b ∧ ∀ plan ∈ r.toOption.toList, Planned key sp options b plan := by
  refine ⟨(readOnly_planKeyGc key sp options).exec atomic_memCall_faulty he, ?_⟩
  cases r with
  | error e => exact fun plan hp => nomatch hp
  | ok plan =>
    intro plan' hp
    obtain rfl : plan' = plan := List.mem_singleton.mp hp
    have hrun : (planKeyGc key sp options).run b = (.ok plan', b') :=
      ((strict_planKeyGc key sp options).exec he).resolve_right fun ⟨_, h, _⟩ => nomatch h
    have hmax : options.maxVersionsExamined ≠ 0 := by
      intro h0
      unfold planKeyGc at hrun
      rw [if_pos h0] at hrun
      cases hrun
    obtain ⟨plan₀, hrun₀, hplanned⟩ := planKeyGc_run hmax key sp b
    rw [hrun₀] at hrun
    cases hrun
    exact hplanned

end Plans

/-! Steps in which no call fails. -/

section NoFault
variable (s : AdapterState)

theorem AdapterStep.of_exec (op : Op) : AdapterStep s (.engine op)
    (.engine (op.exec s.backend).1) ⟨(op.exec s.backend).2, s.plans⟩ :=
  .engine (op.execs_exec s.backend)

theorem AdapterStep.of_plan {key : Key} {sp : Timestamp} {options : KeyGcOptions} {plan : KeyGcPlan}
    (h : ((planKeyGc key sp options).run s.backend).1 = .ok plan) :
    AdapterStep s (.plan key sp options) (.plan (.ok plan)) ⟨s.backend, s.plans ++ [plan]⟩ := by
  obtain ⟨es, he⟩ := exec_eval memCall (planKeyGc key sp options) s.backend
  rw [show (eval memCall _ _).1 = _ from h,
    show (eval memCall _ _).2 = _ from run_readOnly (readOnly_planKeyGc key sp options)] at he
  exact .plan he

theorem AdapterStep.of_apply {plan : KeyGcPlan} (h : plan ∈ s.plans) : AdapterStep s (.apply plan)
    (.apply ((applyPlan GcError.backend plan).run s.backend).1)
    ⟨((applyPlan GcError.backend plan).run s.backend).2, s.plans⟩ := by
  obtain ⟨es, he⟩ := exec_eval memCall (applyPlan GcError.backend plan) s.backend
  exact .apply h he

end NoFault

/-! Without collapsing. -/

/-- The step does not collapse final tombstones. -/
def AdapterOp.NonCollapsing : AdapterOp → Prop
  | .engine op => op.NonCollapsing
  | .plan _ _ options => options.collapseFinalTombstones = false
  | .apply _ => True

/-- A plan that is kept, in a backend that is collected at the cutoffs `S`. -/
def KeptPlan (S : Set Timestamp) (b : InMemoryBackend) (plan : KeyGcPlan) : Prop :=
  plan.drops = [] ∨ ∃ u, Removable S u plan.drops (b.history plan.key)

theorem Sim.mono {ρ ρ' : History → History → Prop} {b b' : InMemoryBackend} (h : Sim ρ b b')
    (hρ : ∀ H H', ρ H H' → ρ' H H') : Sim ρ' b b' :=
  ⟨h.intents, fun k => hρ _ _ (h.histories k)⟩

/-- The first history is the second, pruned at the cutoffs `S`. -/
def PruningAt (S : Set Timestamp) (H H' : History) : Prop := Pruned S H' H

theorem extends_pruningAt (S : Set Timestamp) (ts : Timestamp) : Extends (PruningAt S) ts :=
  fun _ _ v h _ _ => Pruned.update h ts v

section NonCollapsing
variable {S S' : Set Timestamp} {b b₁ b' : InMemoryBackend} {plan : KeyGcPlan} {key : Key}

theorem PruningAt.mono {H H' : History} (h : PruningAt S H H') (hS : S ⊆ S') : PruningAt S' H H' :=
  Pruned.mono h fun sp hsp => ⟨sp, hS hsp, le_rfl⟩

theorem PruningAt.pruningOf {H H' : History} (h : PruningAt S H H') : PruningOf H H' :=
  PruningAt.mono h (Set.subset_univ S)

theorem KeptPlan.mono (h : KeptPlan S b plan) (hS : S ⊆ S') : KeptPlan S' b plan :=
  h.imp_right fun ⟨u, hu⟩ => ⟨u, hu.mono hS⟩

/-- A collection, or another plan, leaves a plan applicable. -/
theorem KeptPlan.pruned (h : KeptPlan S b plan)
    (hp : ∀ k, Pruned S (b.history k) (b₁.history k)) : KeptPlan S b₁ plan :=
  h.imp_right fun ⟨u, hu⟩ => ⟨u, hu.pruning (hp plan.key)⟩

/-- And so does a client. -/
theorem KeptPlan.exec {op : Op} (hgc : op.isGc = false) (h : KeptPlan S b plan) :
    KeptPlan S (op.exec b).2 plan := by
  refine h.imp_right fun ⟨u, hu⟩ => ⟨u, ?_⟩
  rcases exec_history hgc b plan.key with hsame | ⟨c, v, -, -, hnew⟩
  · rwa [hsame]
  · rw [hnew]
    exact hu.update c v

/-- A new plan lists what is older than the version it keeps. -/
theorem Planned.kept {sp : Timestamp} {options : KeyGcOptions}
    (h : Planned key sp options b plan) (hc : options.collapseFinalTombstones = false)
    (hsp : sp ∈ S) : KeptPlan S b plan := by
  cases h with
  | idle hnone hplan =>
    rw [hplan]
    exact .inl rfl
  | page t ht hkey hremove hcomplete hcollapse =>
    have hnone : plan.collapseTombstone = none := by
      refine Option.eq_none_iff_forall_not_mem.mpr fun u hu => ?_
      obtain ⟨-, -, hflag, -⟩ := (hcollapse u).mp hu
      rw [hc] at hflag
      cases hflag
    have hdrops : plan.drops = (b.olderThan key t).take options.maxVersionsExamined.val := by
      unfold KeyGcPlan.drops
      rw [hnone, hremove]
      rfl
    refine .inr ⟨t, ⟨sp, hsp, ht.1.2⟩, fun u hu => ?_, .inl ?_⟩
    · rw [hdrops] at hu
      exact (InMemoryBackend.mem_olderThan.mp (List.mem_of_mem_take hu)).2
    · rw [hkey]
      exact ht.1.1

/-- Applying a plan prunes, whenever and however much of it is applied. -/
theorem KeptPlan.apply {L : List Timestamp} (h : KeptPlan S b plan) (hL : L ⊆ plan.drops)
    (hd : Dropped plan.key L b b₁) (k : Key) : Pruned S (b.history k) (b₁.history k) := by
  by_cases hk : k = plan.key
  · subst hk
    rw [hd.here]
    rcases h with hnil | ⟨u, hu⟩
    · obtain rfl : L = [] := List.subset_nil.mp (hnil ▸ hL)
      rw [without_nil]
      exact Pruned.refl S _
    · exact (hu.part hL).pruned
  · rw [hd.off k hk]
    exact Pruned.refl S _

theorem Sim.pruned (h : Sim (PruningAt S) b b') (hi : ∀ k, b₁.getIntent k = b.getIntent k)
    (hp : ∀ k, Pruned S (b.history k) (b₁.history k)) : Sim (PruningAt S) b₁ b' :=
  ⟨fun k => (hi k).trans (h.intents k), fun k => Pruned.trans (h.histories k) (hp k)⟩

/-- The state of a run against that of the run without faults, collections and plans. -/
structure AdapterSim (S : Set Timestamp) (s : AdapterState) (b' : InMemoryBackend) : Prop where
  sim : Sim (PruningAt S) s.backend b'
  plans : ∀ plan ∈ s.plans, KeptPlan S s.backend plan

theorem AdapterSim.mono {s : AdapterState} (h : AdapterSim S s b') (hS : S ⊆ S') :
    AdapterSim S' s b' :=
  ⟨h.sim.mono fun _ _ hp => hp.mono hS, fun plan hp => (h.plans plan hp).mono hS⟩

/-- Whatever prunes at the cutoffs keeps the two states related. -/
theorem AdapterSim.pruned {plans : List KeyGcPlan} (h : AdapterSim S ⟨b, plans⟩ b')
    (hi : ∀ k, b₁.getIntent k = b.getIntent k)
    (hp : ∀ k, Pruned S (b.history k) (b₁.history k)) : AdapterSim S ⟨b₁, plans⟩ b' :=
  ⟨h.sim.pruned hi hp, fun plan hmem => (h.plans plan hmem).pruned hp⟩

/-- A client operation on both sides. -/
theorem AdapterSim.exec {plans : List KeyGcPlan} {op : Op} (hgc : op.isGc = false)
    (h : AdapterSim S ⟨b, plans⟩ b') :
    (op.isMutation = true → (op.exec b').1 = (op.exec b).1) ∧
      AdapterSim S ⟨(op.exec b).2, plans⟩ (op.exec b').2 := by
  have hagrees : op.effect.Agrees b b' :=
    (h.sim.mono fun _ _ hp => PruningAt.pruningOf hp).agrees op.effect
  obtain ⟨hres, hsim⟩ := h.sim.kept op hgc hagrees fun ts _ => extends_pruningAt S ts
  exact ⟨fun hm => (hres hm).symm, hsim, fun plan hmem => (h.plans plan hmem).exec hgc⟩

/-- A step that is not shown to the clients. -/
theorem AdapterSim.hidden {x : Step AdapterState AdapterOp AdapterResult}
    (hx : AdapterStep x.before x.op x.result x.after) (hnc : x.op.NonCollapsing)
    (hsp : ∀ sp, x.op.safePoint = some sp → sp ∈ S) (hshown : completed x = none)
    (h : AdapterSim S x.before b') : AdapterSim S x.after b' := by
  obtain ⟨before, op, result, after⟩ := x
  dsimp only at hx hnc hsp h ⊢
  cases hx with
  | @engine op b b₁ r plans hexec =>
    cases hgc : op.isGc with
    | true =>
      obtain ⟨sp, options, he⟩ := op.effect_of_isGc hgc
      have hflag := hnc sp options he
      have hrel := hexec.gcRel he (.inr hflag)
      rw [hflag] at hrel
      have hmem : sp ∈ S := hsp sp (by rw [AdapterOp.safePoint, he]; rfl)
      refine h.pruned hrel.intents fun k => (hrel.pruned k).mono fun sp' hsp' => ?_
      exact ⟨sp, hmem, (Set.mem_singleton_iff.mp hsp').le⟩
    | false =>
      have hfault : r.isFault = true := by
        by_contra hf
        simp [completed, hgc, hf] at hshown
      obtain rfl : b₁ = b := hexec.unchanged hgc hfault
      exact h
  | plan hexec =>
    obtain ⟨rfl, hplanned⟩ := planKeyGc_exec hexec
    refine ⟨h.sim, fun plan hmem => ?_⟩
    rcases List.mem_append.mp hmem with hold | hnew
    · exact h.plans plan hold
    · exact (hplanned plan hnew).kept hnc (hsp _ rfl)
  | @apply plan b b₁ es r plans hmem hexec =>
    obtain ⟨L, hL, -, hdrop⟩ := applyPlan_exec hexec
    exact h.pruned hdrop.intents ((h.plans plan hmem).apply hL hdrop)

end NonCollapsing

/-- Faults, collections and plans are invisible to the clients. In every run in
which nothing is collapsed, the operations that no fault ended would have returned
the same on a backend that never fails and is never collected; it would hold the
same intents and the same latest versions, and show the same versions at or above
all safe points. -/
theorem faults_and_collections_invisible {xs : AdapterRun} {s : AdapterState}
    (hrun : Path AdapterStep .new xs s) (hxs : ∀ x ∈ xs, x.op.NonCollapsing) :
    let done := xs.filterMap completed
    let b' := stateAfter (done.map Prod.fst)
    observed Op.isMutation (steps (done.map Prod.fst)) = done.filter (fun p => p.1.isMutation) ∧
    (∀ k, s.backend.getIntent k = b'.getIntent k) ∧
    (∀ k, s.backend.getLatestCommitted k = b'.getLatestCommitted k) ∧
    ∀ k r, (∀ sp ∈ cutoffs xs, sp ≤ r) →
      ((readWithVersion k r).run s.backend).1 = ((readWithVersion k r).run b').1 := by
  intro done b'
  have hsim : observed Op.isMutation (steps (done.map Prod.fst)) =
      done.filter (fun p => p.1.isMutation) ∧ AdapterSim {sp | sp ∈ cutoffs xs} s b' := by
    have hsub : ∀ pre x, {sp | sp ∈ cutoffs pre} ⊆ {sp | sp ∈ cutoffs (pre ++ [x])} := by
      intro pre x sp hsp
      show sp ∈ cutoffs (pre ++ [x])
      rw [cutoffs_append]
      exact List.mem_append_left _ hsp
    refine Path.sim (J := fun pre s t => AdapterSim {sp | sp ∈ cutoffs pre} s t) ?_ ?_ hrun
      ⟨⟨fun _ => rfl, fun _ => Pruned.refl _ _⟩, fun plan hp => nomatch hp⟩
    · intro pre x post t op r _ hstep h hshown
      obtain ⟨hgc, -, hres, hafter⟩ := completed_eq_some hstep hshown
      obtain ⟨hsame, hnext⟩ := AdapterSim.exec hgc h
      rw [hres, hafter]
      exact ⟨hsame, hnext.mono (hsub pre x)⟩
    · intro pre x post t hpre hstep h hshown
      refine AdapterSim.hidden hstep (hxs x (by simp [hpre])) ?_ hshown (h.mono (hsub pre x))
      intro sp hsp
      show sp ∈ cutoffs (pre ++ [x])
      rw [cutoffs_append, hsp]
      exact List.mem_append_right _ List.mem_cons_self
  obtain ⟨hobs, hend⟩ := hsim
  refine ⟨hobs, hend.sim.intents, ?_, fun k r hr => ?_⟩
  · exact (hend.sim.mono fun _ _ hp => PruningAt.pruningOf hp).latest_eq
  · have hp : Pruned {sp | sp ∈ cutoffs xs} (b'.history k) (s.backend.history k) := hend.sim.histories k
    have hvis : s.backend.getVisibleCommitted k r = b'.getVisibleCommitted k r :=
      getVisibleCommitted_congr (fun t => (hp.visible_iff hr).symm) fun t ht => hp.eq_of_mem ht.1.1
    rw [readWithVersion_run, readWithVersion_run, hvis]

/-- A plan is made, a write fails, the key is written below the safe point, and then
the plan is applied twice. -/
theorem faults_and_collections_invisible_late_plan :
    let first : Op := .applyDirectBatch 1 [⟨[1], some [7]⟩]
    let second : Op := .applyDirectBatch 2 [⟨[1], some [8]⟩]
    let third : Op := .applyDirectBatch 3 [⟨[1], some [9]⟩]
    let plan : KeyGcPlan := ⟨[1], [1], none, 1, true⟩
    ∃ xs s, Path AdapterStep .new xs s ∧
      xs.map (·.op) = [.engine first, .engine second, .plan [1] 4 ⟨5, false⟩, .engine third,
        .engine third, .apply plan, .apply plan] ∧
      s.backend.getLatestCommitted [1] = (stateAfter [first, second, third]).getLatestCommitted [1] := by
  intro first second third plan
  have hplan : ((planKeyGc [1] 4 ⟨5, false⟩).run (stateAfter [first, second])).1 = .ok plan := by
    decide +kernel
  have hfault : AdapterStep ⟨stateAfter [first, second], [plan]⟩ (.engine third)
      (.engine (.applyBatch (.error (.backend "disk full")))) ⟨stateAfter [first, second], [plan]⟩ :=
    .engine ⟨_, _, .call (.inr ⟨⟨"disk full", rfl⟩, rfl⟩) .ret, rfl⟩
  have hrun := Path.cons (AdapterStep.of_exec .new first) <|
    .cons (AdapterStep.of_exec _ second) <| .cons (AdapterStep.of_plan _ hplan) <|
    .cons hfault <| .cons (AdapterStep.of_exec _ third) <|
    .cons (AdapterStep.of_apply _ List.mem_cons_self) <|
    .cons (AdapterStep.of_apply _ List.mem_cons_self) .nil
  refine ⟨_, _, hrun, rfl, ?_⟩
  have hops : ∀ op ∈ [first, second, third], op.NonCollapsing := by decide
  obtain ⟨h1, h2, h3⟩ : first.NonCollapsing ∧ second.NonCollapsing ∧ third.NonCollapsing := by
    simpa using hops
  refine (faults_and_collections_invisible hrun ?_).2.2.1 [1]
  simp only [List.forall_mem_cons]
  exact ⟨h1, h2, rfl, h3, h3, trivial, trivial, by simp⟩

/-! With collapsing. -/

/-- What a client does stays above the safe points used before; collections and
plans are free to collapse. -/
def AdapterOp.AboveWatermark (S : List Timestamp) (b : InMemoryBackend) : AdapterOp → Prop
  | .engine op => op.AboveWatermark S b
  | _ => True

/-- A plan that is kept, where tombstones may be collapsed. -/
def DroppablePlan (S : List Timestamp) (b : InMemoryBackend) (plan : KeyGcPlan) : Prop :=
  plan.drops = [] ∨ ∃ u, Droppable {sp | sp ∈ S} u plan.drops (b.history plan.key) ∧
    (plan.collapseTombstone = none → ∀ t ∈ plan.drops, t < u)

section Collapsing
variable {S S' : List Timestamp} {b b₁ b' : InMemoryBackend} {plan : KeyGcPlan} {key : Key}
  {op : Op}

theorem Op.AboveWatermark.writesAt (h : op.AboveWatermark S b) {c : Timestamp}
    (hc : op.effect.WritesAt c) : ∀ sp ∈ S, sp < c := by
  cases op with
  | commit txnId key startTs commitTs => cases hc; exact h
  | commitBatch txnId startTs commitTs keys => cases hc; exact h
  | applyDirectBatch commitTs ws => cases hc; exact h
  | applyGuardedBatch commitTs gs ws => cases hc; exact h.1
  | _ => cases hc

theorem Op.AboveWatermark.budget (h : op.AboveWatermark S b) {sp : Timestamp} {options : GcOptions}
    (he : op.effect = .collect sp options) : options.budget.maxVersions ≠ maxUsize := by
  cases op with
  | gcIncremental sp cursor options => cases he; exact h
  | gc fuel sp options => cases he; exact h
  | _ => cases he

theorem DroppablePlan.mono (h : DroppablePlan S b plan) (hS : S ⊆ S') : DroppablePlan S' b plan :=
  h.imp_right fun ⟨u, hu, hlt⟩ => ⟨u, hu.mono fun _ hsp => hS hsp, hlt⟩

theorem DroppablePlan.thinned (h : DroppablePlan S b plan)
    (ht : ∀ k, Thinned {sp | sp ∈ S} (b.history k) (b₁.history k)) : DroppablePlan S b₁ plan :=
  h.imp_right fun ⟨u, hu, hlt⟩ => ⟨u, hu.thinned (ht plan.key), hlt⟩

theorem DroppablePlan.exec (hgc : op.isGc = false) (hop : op.AboveWatermark S b)
    (h : DroppablePlan S b plan) : DroppablePlan S (op.exec b).2 plan := by
  refine h.imp_right fun ⟨u, hu, hlt⟩ => ⟨u, ?_, hlt⟩
  rcases exec_history hgc b plan.key with hsame | ⟨c, v, hc, -, hnew⟩
  · rwa [hsame]
  · rw [hnew]
    exact hu.update (hop.writesAt hc) v

/-- A new plan keeps a version and lists older ones, or collapses a tombstone with
all that is older. -/
theorem Planned.droppable {sp : Timestamp} {options : KeyGcOptions}
    (h : Planned key sp options b plan) (hsp : sp ∈ S) : DroppablePlan S b plan := by
  cases h with
  | idle hnone hplan =>
    rw [hplan]
    exact .inl rfl
  | page t ht hkey hremove hcomplete hcollapse =>
    refine .inr ⟨t, ?_⟩
    rw [hkey]
    have hlisted : ∀ u ∈ plan.versionsToRemove, u < t := fun u hu => by
      rw [hremove] at hu
      exact (InMemoryBackend.mem_olderThan.mp (List.mem_of_mem_take hu)).2
    unfold KeyGcPlan.drops
    cases hct : plan.collapseTombstone with
    | none =>
      exact ⟨⟨⟨sp, hsp, ht.1.2⟩, fun u hu => (hlisted u hu).le, .kept ht.1.1 hlisted⟩,
        fun _ => hlisted⟩
    | some u =>
      obtain ⟨rfl, hc, -, -, hf⟩ := (hcollapse u).mp hct
      have hall : plan.versionsToRemove = b.olderThan key u := by
        rw [hremove, List.take_of_length_le (hcomplete.mp hc).le]
      refine ⟨⟨⟨sp, hsp, ht.1.2⟩, fun w hw => ?_, ?_⟩, fun hn => nomatch hn⟩
      · rcases List.mem_cons.mp hw with rfl | hw
        · exact le_rfl
        · exact (hlisted w hw).le
      · refine .tombstone ((finalTombstone_iff ht).mp hf).2 fun w hw hle => ?_
        rcases hle.eq_or_lt with rfl | hlt
        · exact List.mem_cons_self
        · refine List.mem_cons_of_mem u ?_
          rw [hall]
          exact InMemoryBackend.mem_olderThan.mpr ⟨hw, hlt⟩

/-- What is removed when a plan is applied can be dropped. -/
theorem DroppablePlan.applied {L : List Timestamp} (h : DroppablePlan S b plan)
    (hL : L ⊆ plan.drops) (hwhole : plan.collapseTombstone = none ∨ L = [] ∨ L = plan.drops) :
    L = [] ∨ ∃ u, Droppable {sp | sp ∈ S} u L (b.history plan.key) := by
  rcases h with hnil | ⟨u, hu, hlt⟩
  · exact .inl (List.subset_nil.mp (hnil ▸ hL))
  · rcases hwhole with hnone | rfl | rfl
    · exact .inr ⟨u, hu.part (hlt hnone) hL⟩
    · exact .inl rfl
    · exact .inr ⟨u, hu⟩

theorem ReadAlike.drop {H H' : History} {u : Timestamp} {L : List Timestamp}
    (h : ReadAlike S H H') (hd : Droppable {sp | sp ∈ S} u L H) :
    ReadAlike S (without H L) H' := by
  refine ⟨fun t ht => (hd.above ht).trans (h.above t ht), fun r x hr => ?_⟩
  rw [← hd.reads_iff hr]
  exact h.reads r x hr

theorem ReadAlike.mono {H H' : History} (h : ReadAlike S H H') (hS : S ⊆ S') : ReadAlike S' H H' :=
  ⟨fun t ht => h.above t fun sp hsp => ht sp (hS hsp),
    fun r x hr => h.reads r x fun sp hsp => hr sp (hS hsp)⟩

/-- The state of a run against that of the run without faults, collections and plans. -/
structure CollapsingSim (S : List Timestamp) (s : AdapterState) (b' : InMemoryBackend) : Prop where
  sim : Sim (ReadAlike S) s.backend b'
  plans : ∀ plan ∈ s.plans, DroppablePlan S s.backend plan

theorem CollapsingSim.mono {s : AdapterState} (h : CollapsingSim S s b') (hS : S ⊆ S') :
    CollapsingSim S' s b' :=
  ⟨h.sim.mono fun _ _ hr => hr.mono hS, fun plan hp => (h.plans plan hp).mono hS⟩

theorem CollapsingSim.exec {plans : List KeyGcPlan} (hgc : op.isGc = false)
    (hop : op.AboveWatermark S b) (h : CollapsingSim S ⟨b, plans⟩ b') :
    (op.isMutationOrRead = true → (op.exec b').1 = (op.exec b).1) ∧
      CollapsingSim S ⟨(op.exec b).2, plans⟩ (op.exec b').2 := by
  obtain ⟨hres, hsim⟩ := hop.kept hgc h.sim
  exact ⟨fun hm => (hres hm).symm, hsim, fun plan hmem => (h.plans plan hmem).exec hgc hop⟩

theorem CollapsingSim.collect {plans : List KeyGcPlan} {sp : Timestamp} {collapse : Bool}
    (h : CollapsingSim S ⟨b, plans⟩ b') (hrel : GcRel sp collapse b b₁) :
    CollapsingSim (S ++ [sp]) ⟨b₁, plans⟩ b' := by
  refine ⟨⟨fun k => (hrel.intents k).trans (h.sim.intents k),
    fun k => (h.sim.histories k).collect (hrel.histories k)⟩, fun plan hmem => ?_⟩
  have hplan := (h.plans plan hmem).mono (List.subset_append_left S [sp])
  exact hplan.thinned fun k => .of_collected (by simp) (hrel.histories k)

theorem CollapsingSim.apply {plans : List KeyGcPlan} {L : List Timestamp}
    (h : CollapsingSim S ⟨b, plans⟩ b')
    (hL : L = [] ∨ ∃ u, Droppable {sp | sp ∈ S} u L (b.history key)) (hd : Dropped key L b b₁) :
    CollapsingSim S ⟨b₁, plans⟩ b' := by
  have hkey : ∀ k, Thinned {sp | sp ∈ S} (b.history k) (b₁.history k) ∧
      ReadAlike S (b₁.history k) (b'.history k) := by
    intro k
    have hsame : b₁.history k = b.history k → Thinned {sp | sp ∈ S} (b.history k) (b₁.history k) ∧
        ReadAlike S (b₁.history k) (b'.history k) := fun he => by
      rw [he]
      exact ⟨.of_pruned (Pruned.refl _ _), h.sim.histories k⟩
    by_cases hk : k = key
    · subst hk
      rcases hL with rfl | ⟨u, hu⟩
      · exact hsame (by rw [hd.here, without_nil])
      · rw [hd.here]
        exact ⟨hu.thins, (h.sim.histories k).drop hu⟩
    · exact hsame (hd.off k hk)
  exact ⟨⟨fun k => (hd.intents k).trans (h.sim.intents k), fun k => (hkey k).2⟩,
    fun plan hmem => (h.plans plan hmem).thinned fun k => (hkey k).1⟩

/-- A step that is not shown to the clients. -/
theorem CollapsingSim.hidden {x : Step AdapterState AdapterOp AdapterResult}
    (hx : AdapterStep x.before x.op x.result x.after)
    (hop : x.op.AboveWatermark S x.before.backend) (hshown : completed x = none)
    (h : CollapsingSim S x.before b') : CollapsingSim (S ++ x.op.safePoint.toList) x.after b' := by
  obtain ⟨before, op, result, after⟩ := x
  dsimp only at hx hop h ⊢
  cases hx with
  | @engine op b b₁ r plans hexec =>
    cases hgc : op.isGc with
    | true =>
      obtain ⟨sp, options, he⟩ := op.effect_of_isGc hgc
      have hS : (AdapterOp.engine op).safePoint = some sp := by rw [AdapterOp.safePoint, he]; rfl
      rw [hS]
      exact h.collect (hexec.gcRel he (.inl (hop.budget he)))
    | false =>
      have hfault : r.isFault = true := by
        by_contra hf
        simp [completed, hgc, hf] at hshown
      obtain rfl : b₁ = b := hexec.unchanged hgc hfault
      exact h.mono (List.subset_append_left S _)
  | @plan key sp options b b₁ es r plans hexec =>
    obtain ⟨rfl, hplanned⟩ := planKeyGc_exec hexec
    obtain ⟨hsim, hplans⟩ := h.mono (List.subset_append_left S [sp])
    refine ⟨hsim, fun plan hmem => ?_⟩
    rcases List.mem_append.mp hmem with hold | hnew
    · exact hplans plan hold
    · exact (hplanned plan hnew).droppable (List.mem_append_right S List.mem_cons_self)
  | @apply plan b b₁ es r plans hmem hexec =>
    obtain ⟨L, hL, hwhole, hdrop⟩ := applyPlan_exec hexec
    rw [show (AdapterOp.apply plan).safePoint.toList = [] from rfl, List.append_nil]
    exact h.apply ((h.plans plan hmem).applied hL hwhole) hdrop

end Collapsing

/-- Collapsing plans are invisible above the low-watermark, however late they are
applied. Where the clients read, lock and write above all safe points used before,
the mutations and reads that no fault ended would have returned the same on a
backend that never fails and is never collected, and it would hold the same intents
and show the same values at or above all safe points. -/
theorem collapsing_plans_invisible {xs : AdapterRun} {s : AdapterState}
    (hrun : Path AdapterStep .new xs s)
    (hxs : ∀ pre x post, xs = pre ++ x :: post →
      x.op.AboveWatermark (cutoffs pre) x.before.backend) :
    let done := xs.filterMap completed
    let b' := stateAfter (done.map Prod.fst)
    observed Op.isMutationOrRead (steps (done.map Prod.fst)) =
      done.filter (fun p => p.1.isMutationOrRead) ∧
    (∀ k, s.backend.getIntent k = b'.getIntent k) ∧
    ∀ k r, (∀ sp ∈ cutoffs xs, sp ≤ r) →
      ((read k r).run s.backend).1 = ((read k r).run b').1 := by
  intro done b'
  have hsim : observed Op.isMutationOrRead (steps (done.map Prod.fst)) =
      done.filter (fun p => p.1.isMutationOrRead) ∧ CollapsingSim (cutoffs xs) s b' := by
    refine Path.sim (J := fun pre s t => CollapsingSim (cutoffs pre) s t) ?_ ?_ hrun
      ⟨⟨fun _ => rfl, fun _ => ⟨fun _ _ => rfl, fun _ _ _ => Iff.rfl⟩⟩, fun plan hp => nomatch hp⟩
    · intro pre x post t op r hpre hstep h hshown
      obtain ⟨hgc, hop, hres, hafter⟩ := completed_eq_some hstep hshown
      have habove := hxs pre x post hpre
      rw [hop] at habove
      obtain ⟨hsame, hnext⟩ := CollapsingSim.exec hgc habove h
      rw [hres, hafter, cutoffs_append]
      exact ⟨hsame, hnext.mono (List.subset_append_left _ _)⟩
    · intro pre x post t hpre hstep h hshown
      rw [cutoffs_append]
      exact CollapsingSim.hidden hstep (hxs pre x post hpre) hshown h
  obtain ⟨hobs, hend⟩ := hsim
  exact ⟨hobs, hend.sim.intents, fun k r hr => hend.sim.read_eq hr k⟩

/-- A plan to collapse a deleted key waits while the key is written and read again. -/
theorem collapsing_plans_invisible_rewritten_key :
    let first : Op := .applyDirectBatch 1 [⟨[1], some [7]⟩]
    let second : Op := .applyDirectBatch 2 [⟨[1], none⟩]
    let third : Op := .applyDirectBatch 5 [⟨[1], some [9]⟩]
    let plan : KeyGcPlan := ⟨[1], [1], some 2, 1, true⟩
    ∃ xs s, Path AdapterStep .new xs s ∧
      xs.map (·.op) = [.engine first, .engine second, .plan [1] 4 ⟨5, true⟩, .engine third,
        .apply plan, .engine (.read [1] 6)] ∧
      ((read [1] 6).run s.backend).1 = ((read [1] 6).run (stateAfter [first, second, third])).1 := by
  intro first second third plan
  have hplan : ((planKeyGc [1] 4 ⟨5, true⟩).run (stateAfter [first, second])).1 = .ok plan := by
    decide +kernel
  have hrun := Path.cons (AdapterStep.of_exec .new first) <|
    .cons (AdapterStep.of_exec _ second) <| .cons (AdapterStep.of_plan _ hplan) <|
    .cons (AdapterStep.of_exec _ third) <| .cons (AdapterStep.of_apply _ List.mem_cons_self) <|
    .cons (AdapterStep.of_exec _ (.read [1] 6)) .nil
  refine ⟨_, _, hrun, rfl, ?_⟩
  have hnone : ∀ {t : Timestamp}, ∀ sp ∈ ([] : List Timestamp), sp < t := by simp
  have hsome : ∀ {t : Timestamp}, 4 < t → ∀ sp ∈ [(4 : Timestamp)], sp < t := by simp
  refine (collapsing_plans_invisible hrun ?_).2.2 [1] 6 fun sp hsp => (hsome (by decide) sp hsp).le
  simp only [forall_split_cons, forall_split_nil, and_true]
  exact ⟨hnone, hnone, trivial, hsome (by decide), trivial, hsome (by decide)⟩

end NexirMvcc
