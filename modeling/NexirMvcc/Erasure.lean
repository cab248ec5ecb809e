import NexirMvcc.Congruence
import NexirMvcc.Conflicts

/- Runs with and without their collections. The two runs are compared state by
   state: the intents are the same, and the histories of each key are related, by
   a relation that new versions on both sides keep and a collection on one side
   keeps. For collections that do not collapse tombstones the one history is a
   pruning of the other. For collections that may, the two agree above all safe
   points used so far, and are read alike from there on. -/
namespace NexirMvcc
open VersionHistory StepRun

/-- A version history of one key. -/
abbrev History := Timestamp → Option (Option Value)

/-- The same intents, and related histories. -/
structure Sim (ρ : History → History → Prop) (b b' : InMemoryBackend) : Prop where
  intents : ∀ k, b.getIntent k = b'.getIntent k
  histories : ∀ k, ρ (b.history k) (b'.history k)

/-- New versions at `commitTs` keep the relation. -/
def Extends (ρ : History → History → Prop) (commitTs : Timestamp) : Prop :=
  ∀ H H' v, ρ H H' → (∀ t ∈ dom H, t < commitTs) → (∀ t ∈ dom H', t < commitTs) →
    ρ (Function.update H commitTs (some v)) (Function.update H' commitTs (some v))

/-- What `Sim` says of one key. -/
structure SimAt (ρ : History → History → Prop) (b b' : InMemoryBackend) (k : Key) : Prop where
  intent : b.getIntent k = b'.getIntent k
  history : ρ (b.history k) (b'.history k)

section Sim
variable {ρ : History → History → Prop} {b b' c c' : InMemoryBackend} {txnId : TxnId}
  {startTs commitTs : Timestamp} {k : Key}

/-- A locked key keeps the intent it had, or has the new one. -/
theorem Locks.intent_here {ws : List PhysicalWrite} {w : PhysicalWrite}
    (hl : Locks b c txnId startTs ws) (hw : w ∈ ws) :
    c.getIntent w.key = some ((b.getIntent w.key).getD
      ⟨w.key, txnId, startTs, Mutation.ofValue w.value, none⟩) := by
  rcases hl.here with ⟨hheld, rfl⟩ | hnew
  · obtain ⟨i, hi, -⟩ := hheld w hw
    rw [hi, Option.getD_some]
  · rw [(hnew w hw).2, (hnew w hw).1.1, Option.getD_none]

theorem SimAt.locks {ws : List PhysicalWrite} (h : SimAt ρ b b' k)
    (hl : Locks b c txnId startTs ws) (hl' : Locks b' c' txnId startTs ws) : SimAt ρ c c' k := by
  refine ⟨?_, by rw [hl.histories k, hl'.histories k]; exact h.history⟩
  by_cases hk : k ∈ ws.map (·.key)
  · obtain ⟨w, hw, rfl⟩ := List.mem_map.mp hk
    rw [hl.intent_here hw, hl'.intent_here hw, h.intent]
  · rw [hl.off k hk, hl'.off k hk]
    exact h.intent

theorem SimAt.commits {keys : List Key} (h : SimAt ρ b b' k) (hx : Extends ρ commitTs)
    (hc : Commits b c txnId startTs commitTs keys)
    (hc' : Commits b' c' txnId startTs commitTs keys) : SimAt ρ c c' k := by
  by_cases hk : k ∈ keys
  · have hval : (commitOf b' commitTs k).value = (commitOf b commitTs k).value := by
      simp [commitOf, h.intent]
    obtain ⟨hi, hh⟩ := hc.here k hk
    obtain ⟨hi', hh'⟩ := hc'.here k hk
    refine ⟨by rw [hi, hi'], ?_⟩
    rw [hh, hh', hval]
    obtain ⟨i, -, -, -, hlt⟩ := hc.committable k hk
    obtain ⟨i', -, -, -, hlt'⟩ := hc'.committable k hk
    exact hx _ _ _ h.history hlt hlt'
  · obtain ⟨hi, hh⟩ := hc.off k hk
    obtain ⟨hi', hh'⟩ := hc'.off k hk
    exact ⟨by rw [hi, hi']; exact h.intent, by rw [hh, hh']; exact h.history⟩

theorem SimAt.writes {gs : List ReadGuard} {ws : List PhysicalWrite} (h : SimAt ρ b b' k)
    (hx : Extends ρ commitTs) (hw : Writes b c commitTs gs ws)
    (hw' : Writes b' c' commitTs gs ws) : SimAt ρ c c' k := by
  refine ⟨by rw [hw.intents k, hw'.intents k]; exact h.intent, ?_⟩
  by_cases hk : k ∈ ws.map (·.key)
  · obtain ⟨w, hmem, rfl⟩ := List.mem_map.mp hk
    rw [hw.here w hmem, hw'.here w hmem]
    exact hx _ _ _ h.history (hw.writable w hmem).2 (hw'.writable w hmem).2
  · rw [hw.off k hk, hw'.off k hk]
    exact h.history

/-- Where an operation other than a collection answers alike in two states, it
keeps every key related that was related. -/
theorem SimAt.step (op : Op) (h : SimAt ρ b b' k)
    (hx : ∀ ts, op.effect.WritesAt ts → Extends ρ ts)
    (hgc : ∀ sp options, op.effect ≠ .collect sp options)
    (hok : (op.exec b).1.isOk = (op.exec b').1.isOk) : SimAt ρ (op.exec b).2 (op.exec b').2 k := by
  cases hr : (op.exec b).1.isOk with
  | false =>
    rw [exec_error op hr, exec_error op (hok.symm.trans hr)]
    exact h
  | true =>
    have ha := exec_ok op hr
    have ha' := exec_ok op (hok.symm.trans hr)
    cases he : op.effect with
    | none =>
      rw [he] at ha ha'
      rw [show (op.exec b).2 = b from ha, show (op.exec b').2 = b' from ha']
      exact h
    | lock txnId startTs ws => exact h.locks (by rwa [he] at ha) (by rwa [he] at ha')
    | commit txnId startTs commitTs keys =>
      refine h.commits (hx commitTs ?_) (by rwa [he] at ha) (by rwa [he] at ha')
      rw [he]
      rfl
    | release txnId startTs keys =>
      rw [he] at ha ha'
      have ha : Releases b _ txnId startTs keys := ha
      have ha' : Releases b' _ txnId startTs keys := ha'
      constructor
      · rw [ha.intents k, ha'.intents k, h.intent]
      · rw [ha.histories k, ha'.histories k]
        exact h.history
    | write commitTs gs ws =>
      refine h.writes (hx commitTs ?_) (by rwa [he] at ha) (by rwa [he] at ha')
      rw [he]
      rfl
    | collect sp options => exact absurd he (hgc sp options)

theorem Sim.step (op : Op) (h : Sim ρ b b') (hx : ∀ ts, op.effect.WritesAt ts → Extends ρ ts)
    (hgc : ∀ sp options, op.effect ≠ .collect sp options)
    (hok : (op.exec b).1.isOk = (op.exec b').1.isOk) : Sim ρ (op.exec b).2 (op.exec b').2 := by
  have hat : ∀ k, SimAt ρ (op.exec b).2 (op.exec b').2 k := fun k =>
    SimAt.step op ⟨h.intents k, h.histories k⟩ hx hgc hok
  exact ⟨fun k => (hat k).intent, fun k => (hat k).history⟩

end Sim

/-! Collections that do not collapse. -/

theorem Op.safePoint_of_not_isGc {op : Op} (h : op.isGc = false) : op.effect.safePoint = none := by
  cases op with
  | gcIncremental sp cursor options => cases h
  | gc fuel sp options => cases h
  | _ => rfl

theorem Op.not_isMutation_of_isGc {op : Op} (h : op.isGc = true) : op.isMutation = false := by
  cases op with
  | gcIncremental sp cursor options => rfl
  | gc fuel sp options => rfl
  | _ => cases h

theorem Op.not_isGc_of_isMutation (op : Op) (h : op.isMutation = true) : op.isGc = false := by
  cases hgc : op.isGc with
  | false => rfl
  | true => rw [op.not_isMutation_of_isGc hgc] at h; cases h

/-- A read always returns. -/
theorem isOk_of_read {op : Op} (hgc : op.isGc = false) (hm : op.isMutation = false)
    (b : InMemoryBackend) : (op.exec b).1.isOk = true := by
  cases op with
  | read key readTs => rfl
  | readWithVersion key readTs => rfl
  | readOwnWrite key txnId startTs readTs =>
    show ((readOwnWrite key txnId startTs readTs).run b).1.isOk = true
    unfold readOwnWrite
    rw [run_getIntent]
    cases b.getIntent key with
    | none => rfl
    | some i =>
      dsimp only
      split <;> rfl
  | gcIncremental sp cursor options => cases hgc
  | gc fuel sp options => cases hgc
  | _ => cases hm

/-- An operation other than a collection, in related states that agree on what it
looks at. -/
theorem Sim.kept {ρ : History → History → Prop} {b b' : InMemoryBackend} (op : Op)
    (h : Sim ρ b b') (hgc : op.isGc = false) (ha : op.effect.Agrees b b')
    (hx : ∀ ts, op.effect.WritesAt ts → Extends ρ ts) :
    (op.isMutation = true → (op.exec b).1 = (op.exec b').1) ∧
      Sim ρ (op.exec b).2 (op.exec b').2 := by
  have hres : op.isMutation = true → (op.exec b).1 = (op.exec b').1 := fun hm => exec_congr hm ha
  refine ⟨hres, h.step op hx (op.effect_ne_collect hgc) ?_⟩
  cases hm : op.isMutation with
  | true => rw [hres hm]
  | false => rw [isOk_of_read hgc hm, isOk_of_read hgc hm]

/-- The first history is the second, pruned at any cutoffs. -/
def PruningOf (H H' : History) : Prop := Pruned Set.univ H' H

theorem extends_pruningOf (ts : Timestamp) : Extends PruningOf ts :=
  fun _ _ v h _ _ => Pruned.update h ts v

section Pruning
variable {b b' : InMemoryBackend}

theorem Sim.latest_eq (h : Sim PruningOf b b') (k : Key) :
    b.getLatestCommitted k = b'.getLatestCommitted k := by
  have hp := h.histories k
  rw [InMemoryBackend.getLatestCommitted_eq, InMemoryBackend.getLatestCommitted_eq]
  have hlat : ∀ (H : History) t, Visible H InMemoryBackend.maxTs t ↔ Latest H t := fun H t =>
    ⟨fun hv => hv.latest fun u _ => InMemoryBackend.le_maxTs u,
      fun hl => hl.visible (InMemoryBackend.le_maxTs t)⟩
  refine getVisibleCommitted_congr (fun t => ?_) (fun t ht => ?_)
  · rw [hlat, hlat, ← hp.latest_iff]
  · exact hp.eq_of_mem ht.1.1

theorem Sim.sameFrom (h : Sim PruningOf b b') (ts : Timestamp) (k : Key) : SameFrom ts k b b' := by
  refine ⟨h.intents k, fun t _ => ?_⟩
  rw [InMemoryBackend.getLatestCommitTs_eq_some, InMemoryBackend.getLatestCommitTs_eq_some,
    (h.histories k).latest_iff]

/-- A guard that finds no newer version looks at the latest one. -/
theorem Sim.sameGuard (h : Sim PruningOf b b') (g : ReadGuard) : SameGuard g b b' := by
  refine ⟨h.sameFrom g.readTs g.key, fun hle => ?_⟩
  have hp := h.histories g.key
  have hle' := (Pruned.upperBounds_iff hp).mpr hle
  have hvis : b.getVisibleCommitted g.key g.readTs = b'.getVisibleCommitted g.key g.readTs := by
    refine getVisibleCommitted_congr (fun t => ?_) (fun t ht => Pruned.eq_of_mem hp ht.1.1)
    constructor
    · exact fun hv => ((Pruned.latest_iff hp).mpr (hv.latest hle)).visible (hle t hv.1.1)
    · exact fun hv => ((Pruned.latest_iff hp).mp (hv.latest hle')).visible (hle' t hv.1.1)
  rw [hvis]

theorem Sim.agrees (h : Sim PruningOf b b') (e : Effect) : e.Agrees b b' := by
  cases e with
  | lock txnId startTs ws => exact fun w _ => (h.sameFrom startTs w.key).unlocked
  | commit txnId startTs commitTs keys => exact fun k _ => h.sameFrom commitTs k
  | write commitTs gs ws =>
    exact ⟨fun g _ => h.sameGuard g, fun w _ => h.sameFrom commitTs w.key⟩
  | _ => trivial

theorem Sim.collect {sp : Timestamp} {c : InMemoryBackend} (h : Sim PruningOf b b')
    (hrel : GcRel sp false b c) : Sim PruningOf c b' := by
  refine ⟨fun k => (hrel.intents k).trans (h.intents k), fun k => ?_⟩
  exact Pruned.trans (h.histories k) ((hrel.pruned k).mono fun s _ => ⟨s, trivial, le_rfl⟩)

end Pruning

/-- The operations of a run but for its collections. -/
def withoutGc (ops : List Op) : List Op := ops.filter fun op => !op.isGc

/-- Collections that do not collapse tombstones are invisible to every write path:
without them every mutation returns what it returned, and the run ends with the
same intents and the same latest version of every key. -/
theorem gc_invisible_to_writes {ops : List Op} (hgc : ∀ op ∈ ops, op.NonCollapsing) :
    observed Op.isMutation (steps ops) = observed Op.isMutation (steps (withoutGc ops)) ∧
    (∀ k, (stateAfter ops).getIntent k = (stateAfter (withoutGc ops)).getIntent k) ∧
    ∀ k, (stateAfter ops).getLatestCommitted k =
      (stateAfter (withoutGc ops)).getLatestCommitted k := by
  have hstart : Sim PruningOf .new .new := ⟨fun _ => rfl, fun _ => Pruned.refl _ _⟩
  have hsim : observed Op.isMutation (steps ops) = observed Op.isMutation (steps (withoutGc ops)) ∧
      Sim PruningOf (stateAfter ops) (stateAfter (withoutGc ops)) := by
    refine erase_sim (R := fun _ => Sim PruningOf) ?_ ?_ hstart
    · intro _ op _ b b' _ hk h
      exact h.kept op (by simpa using hk) (h.agrees op.effect) fun ts _ => extends_pruningOf ts
    · intro pre op post b b' hops hk h
      have hk : op.isGc = true := by simpa using hk
      have hop : op.NonCollapsing := hgc op (by simp [hops])
      obtain ⟨sp, options, -, hrel⟩ := hop.gcRel hk b
      exact ⟨op.not_isMutation_of_isGc hk, h.collect hrel⟩
  exact ⟨hsim.1, hsim.2.intents, hsim.2.latest_eq⟩

/-- A write below a safe point fails in both runs. -/
theorem gc_invisible_to_writes_below_safe_point :
    let ops : List Op := [.applyDirectBatch 2 [⟨[1], some [7]⟩], .applyDirectBatch 4 [⟨[1], some [8]⟩],
      .gc 9 5 ⟨⟨3, 3⟩, false⟩, .prewrite 1 3 [1] .delete,
      .applyGuardedBatch 6 [.expectedVersion [1] 5 (some 4)] [⟨[2], none⟩]]
    observed Op.isMutation (steps ops) = observed Op.isMutation (steps (withoutGc ops)) := by
  intro ops
  have hgc : ∀ op ∈ ops, op.NonCollapsing := by decide
  exact (gc_invisible_to_writes hgc).1

/-! Collections that may collapse. -/

/-- The histories agree above the safe points `S`, and are read alike from there on. -/
structure ReadAlike (S : List Timestamp) (H H' : History) : Prop where
  above : ∀ t, (∀ sp ∈ S, sp < t) → H t = H' t
  reads : ∀ r x, (∀ sp ∈ S, sp ≤ r) → (Reads H r x ↔ Reads H' r x)

section ReadAlike
variable {S : List Timestamp} {H H' : History} {b b' : InMemoryBackend}

theorem extends_readAlike (S : List Timestamp) (ts : Timestamp) : Extends (ReadAlike S) ts := by
  intro H H' v h hlt hlt'
  constructor
  · intro t ht
    by_cases he : t = ts
    · rw [he, Function.update_self, Function.update_self]
    · rw [Function.update_of_ne he, Function.update_of_ne he]
      exact h.above t ht
  · intro r x hr
    rcases le_or_gt ts r with hle | hgt
    · rw [reads_update_of_le hlt hle, reads_update_of_le hlt' hle]
    · rw [reads_update_of_lt hgt, reads_update_of_lt hgt]
      exact h.reads r x hr

theorem ReadAlike.collect {sp : Timestamp} {allow : Prop} {H₁ : History} (h : ReadAlike S H H')
    (hc : Collected sp allow H H₁) : ReadAlike (S ++ [sp]) H₁ H' := by
  constructor
  · intro t ht
    obtain ⟨hS, hsp⟩ := List.forall_mem_append.mp ht
    rw [List.forall_mem_singleton] at hsp
    rw [hc.eq_above hsp, h.above t hS]
  · intro r x hr
    obtain ⟨hS, hsp⟩ := List.forall_mem_append.mp hr
    rw [List.forall_mem_singleton] at hsp
    rw [← hc.reads_iff hsp, h.reads r x hS]

theorem ReadAlike.symm (h : ReadAlike S H H') : ReadAlike S H' H :=
  ⟨fun t ht => (h.above t ht).symm, fun r x hr => (h.reads r x hr).symm⟩

/-- A latest version above the safe points is the latest on both sides. -/
theorem ReadAlike.latest (h : ReadAlike S H H') {t : Timestamp} (ht : ∀ sp ∈ S, sp < t)
    (hl : Latest H t) : Latest H' t := by
  have hmem : ∀ u, (∀ sp ∈ S, sp < u) → (u ∈ dom H ↔ u ∈ dom H') := fun u hu => by
    rw [mem_dom, mem_dom, h.above u hu]
  refine ⟨(hmem t ht).mp hl.1, fun u hu => ?_⟩
  rcases le_or_gt u t with hle | hgt
  · exact hle
  · exact hl.2 ((hmem u fun sp hsp => (ht sp hsp).trans hgt).mpr hu)

theorem Sim.sameFrom_above (h : Sim (ReadAlike S) b b') {ts : Timestamp} (hts : ∀ sp ∈ S, sp < ts)
    (k : Key) : SameFrom ts k b b' := by
  refine ⟨h.intents k, fun t ht => ?_⟩
  have hS : ∀ sp ∈ S, sp < t := fun sp hsp => (hts sp hsp).trans_le ht
  rw [InMemoryBackend.getLatestCommitTs_eq_some, InMemoryBackend.getLatestCommitTs_eq_some]
  exact ⟨(h.histories k).latest hS, (h.histories k).symm.latest hS⟩

theorem Sim.read_eq (h : Sim (ReadAlike S) b b') {r : Timestamp} (hr : ∀ sp ∈ S, sp ≤ r) (k : Key) :
    ((read k r).run b).1 = ((read k r).run b').1 := by
  have hx : (read k r).run b = (.ok ((b.getVisibleCommitted k r).bind (·.value)), b) := read_run
  have hx' := read_ok.mpr (((h.histories k).reads r _ hr).mp (read_ok.mp hx))
  rw [hx, hx']

/-- A guard on a value, read above the safe points. -/
theorem Sim.sameGuard_above (h : Sim (ReadAlike S) b b') {g : ReadGuard}
    (hr : ∀ sp ∈ S, sp < g.readTs) (hg : S ≠ [] → g.isExpectedValue = true) :
    SameGuard g b b' := by
  refine ⟨h.sameFrom_above hr g.key, fun _ => ?_⟩
  by_cases hS : S = []
  · -- before the first collection the histories are the same
    have hsame : b.history g.key = b'.history g.key := by
      funext t
      exact (h.histories g.key).above t (by simp [hS])
    have hlookup : b.getVisibleCommitted g.key g.readTs =
        b'.getVisibleCommitted g.key g.readTs :=
      getVisibleCommitted_of_history hsame
    rw [hlookup]
  · obtain ⟨k, r, x, rfl⟩ : ∃ k r x, g = .expectedValue k r x := by
      cases g with
      | expectedVersion k r t => cases hg hS
      | expectedValue k r x => exact ⟨k, r, x, rfl⟩
    have hread := h.read_eq (r := r) (fun sp hsp => (hr sp hsp).le) k
    rw [read_run, read_run] at hread
    have hval : (b.getVisibleCommitted k r).bind (·.value) =
        (b'.getVisibleCommitted k r).bind (·.value) := by simpa using hread
    unfold ReadGuard.verdict
    simp only [ReadGuard.key, ReadGuard.readTs, hval]
    congr

end ReadAlike

/-- The operation is above the low-watermark in state `b`: after collections at the
safe points `S`, what it reads, newly locks and writes lies above all of them, and
its guards are on values. Collections run with a budget below the maximum. -/
def Op.AboveWatermark (S : List Timestamp) (b : InMemoryBackend) : Op → Prop
  | .read _ readTs => ∀ sp ∈ S, sp < readTs
  | .prewrite _ startTs key _ => b.getIntent key = none → ∀ sp ∈ S, sp < startTs
  | .commit _ _ _ commitTs => ∀ sp ∈ S, sp < commitTs
  | .prewriteBatch _ startTs ws => ∀ w ∈ ws, b.getIntent w.key = none → ∀ sp ∈ S, sp < startTs
  | .commitBatch _ _ commitTs _ => ∀ sp ∈ S, sp < commitTs
  | .applyDirectBatch commitTs _ => ∀ sp ∈ S, sp < commitTs
  | .applyGuardedBatch commitTs guards _ => (∀ sp ∈ S, sp < commitTs) ∧
    ∀ g ∈ guards, (∀ sp ∈ S, sp < g.readTs) ∧ (S ≠ [] → g.isExpectedValue = true)
  | .gcIncremental _ _ options => options.budget.maxVersions ≠ maxUsize
  | .gc _ _ options => options.budget.maxVersions ≠ maxUsize
  | _ => True

/-- Mutations and snapshot reads. -/
def Op.isMutationOrRead : Op → Bool
  | .read _ _ => true
  | op => op.isMutation

theorem Op.not_isMutationOrRead_of_isGc {op : Op} (h : op.isGc = true) :
    op.isMutationOrRead = false := by
  cases op with
  | gcIncremental sp cursor options => rfl
  | gc fuel sp options => rfl
  | _ => cases h

section Watermark
variable {S : List Timestamp} {b b' : InMemoryBackend} {op : Op}

theorem Op.AboveWatermark.agrees (hop : op.AboveWatermark S b) (h : Sim (ReadAlike S) b b') :
    op.effect.Agrees b b' := by
  cases op with
  | prewrite txnId startTs key m =>
    intro w hw
    obtain rfl := List.mem_singleton.mp hw
    exact ⟨h.intents key, fun hfree => h.sameFrom_above (hop hfree) key⟩
  | commit txnId key startTs commitTs => exact fun k _ => h.sameFrom_above hop k
  | prewriteBatch txnId startTs ws =>
    exact fun w hw => ⟨h.intents w.key, fun hfree => h.sameFrom_above (hop w hw hfree) w.key⟩
  | commitBatch txnId startTs commitTs keys => exact fun k _ => h.sameFrom_above hop k
  | applyDirectBatch commitTs ws => exact ⟨by simp, fun w _ => h.sameFrom_above hop w.key⟩
  | applyGuardedBatch commitTs gs ws =>
    exact ⟨fun g hg => h.sameGuard_above (hop.2 g hg).1 (hop.2 g hg).2,
      fun w _ => h.sameFrom_above hop.1 w.key⟩
  | _ => trivial

theorem Op.AboveWatermark.kept (hop : op.AboveWatermark S b) (hgc : op.isGc = false)
    (h : Sim (ReadAlike S) b b') :
    (op.isMutationOrRead = true → (op.exec b).1 = (op.exec b').1) ∧
      Sim (ReadAlike S) (op.exec b).2 (op.exec b').2 := by
  obtain ⟨hres, hsim⟩ := h.kept op hgc (hop.agrees h) fun ts _ => extends_readAlike S ts
  refine ⟨?_, hsim⟩
  cases op with
  | read k r =>
    have hr : ∀ sp ∈ S, sp < r := hop
    exact fun _ => congrArg Result.read (h.read_eq (fun sp hsp => (hr sp hsp).le) k)
  | _ => exact hres

theorem Op.AboveWatermark.collected {sp : Timestamp} {options : GcOptions}
    (hop : op.AboveWatermark S b) (he : op.effect = .collect sp options)
    (h : Sim (ReadAlike S) b b') : Sim (ReadAlike (S ++ [sp])) (op.exec b).2 b' := by
  have hm : options.budget.maxVersions ≠ maxUsize := by
    cases op with
    | gcIncremental sp cursor options => cases he; exact hop
    | gc fuel sp options => cases he; exact hop
    | _ => cases he
  have hrel := (exec_collects he b).2 (.inl hm)
  exact ⟨fun k => (hrel.intents k).trans (h.intents k),
    fun k => (h.histories k).collect (hrel.histories k)⟩

end Watermark

/-- Collapsing final tombstones is safe above the low-watermark: without its
collections, every mutation and every read of the run returns what it returned. -/
theorem collapse_safe_above_watermark {ops : List Op}
    (h : ∀ pre op post, ops = pre ++ op :: post →
      op.AboveWatermark (safePoints pre) (stateAfter pre)) :
    observed Op.isMutationOrRead (steps ops) =
      observed Op.isMutationOrRead (steps (withoutGc ops)) := by
  have hnext : ∀ pre op, (op.exec (stateAfter pre)).2 = stateAfter (pre ++ [op]) := fun pre op => by
    unfold stateAfter
    rw [final_append]
    rfl
  have hstart : InMemoryBackend.new = stateAfter [] ∧
      Sim (ReadAlike (safePoints [])) .new .new :=
    ⟨rfl, fun _ => rfl, fun _ => ⟨fun _ _ => rfl, fun _ _ _ => Iff.rfl⟩⟩
  -- the first run is followed state by state, as the condition looks at its intents
  refine (erase_sim (R := fun pre b b' =>
    b = stateAfter pre ∧ Sim (ReadAlike (safePoints pre)) b b') ?_ ?_ hstart).1
  · rintro pre op post b b' hops hk ⟨rfl, hsim⟩
    have hk : op.isGc = false := by simpa using hk
    obtain ⟨hres, hsim'⟩ := (h pre op post hops).kept hk hsim
    have hS : safePoints (pre ++ [op]) = safePoints pre := by
      rw [safePoints_append, op.safePoint_of_not_isGc hk]
      exact List.append_nil _
    rw [hS]
    exact ⟨hres, hnext pre op, hsim'⟩
  · rintro pre op post b b' hops hk ⟨rfl, hsim⟩
    have hk : op.isGc = true := by simpa using hk
    obtain ⟨sp, options, he⟩ := op.effect_of_isGc hk
    have hS : safePoints (pre ++ [op]) = safePoints pre ++ [sp] := by
      rw [safePoints_append, he]
      rfl
    rw [hS]
    exact ⟨op.not_isMutationOrRead_of_isGc hk, hnext pre op,
      (h pre op post hops).collected he hsim⟩

/-- A deleted key is collapsed, read and written again, and an intent prewritten
before the collection is prewritten again and committed. -/
theorem collapse_safe_above_watermark_rewrite :
    let ops : List Op := [.applyDirectBatch 2 [⟨[1], some [7]⟩], .applyDirectBatch 4 [⟨[1], none⟩],
      .prewrite 1 3 [2] .delete, .gc 9 5 ⟨⟨3, 3⟩, true⟩, .read [1] 6, .prewrite 1 3 [2] .delete,
      .commit 1 [2] 3 7,
      .applyGuardedBatch 8 [.expectedValue [1] 7 none] [⟨[1], some [9]⟩], .read [1] 8]
    observed Op.isMutationOrRead (steps ops) =
      observed Op.isMutationOrRead (steps (withoutGc ops)) := by
  intro ops
  apply collapse_safe_above_watermark
  have hheld : (stateAfter (ops.take 5)).getIntent [2] ≠ none := by decide +kernel
  have hnone : ∀ {t : Timestamp}, ∀ sp ∈ ([] : List Timestamp), sp < t := by simp
  have hsome : ∀ {t : Timestamp}, 5 < t → ∀ sp ∈ [(5 : Timestamp)], sp < t := by simp
  have hbudget : (3 : Usize) ≠ maxUsize := by decide
  simp only [ops, forall_split_cons, forall_split_nil, and_true]
  exact ⟨hnone, hnone, fun _ => hnone, hbudget, hsome (by decide), fun hfree => absurd hfree hheld,
    hsome (by decide), ⟨hsome (by decide), List.forall_mem_singleton.mpr
      ⟨hsome (by decide), fun _ => rfl⟩⟩, hsome (by decide)⟩

end NexirMvcc
