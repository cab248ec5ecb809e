import NexirMvcc.Duplicates
import NexirMvcc.Foundation.Locality

/- Operations key by key. A mutation is local to its keys, those it writes and
   those it guards: the checks look at the versions and the intents of these keys
   only, and nothing else changes. So operations on disjoint keys commute, and a
   batch is the composition of the single operations on its keys, which may be
   run in any order. The one check of a batch that is not made key by key is that
   of a prewrite that finds some of its intents and not others. -/
namespace NexirMvcc
open VersionHistory StepRun Locality

/-- The keys that an operation looks at or changes. -/
def Effect.keys : Effect → List Key
  | .lock _ _ writes => writes.map (·.key)
  | .commit _ _ _ keys => keys
  | .release _ _ keys => keys
  | .write _ guards writes => guards.map (·.key) ++ writes.map (·.key)
  | _ => []

/-- The keys of an operation as a set. -/
def Op.keySet (op : Op) : Set Key := { k | k ∈ op.effect.keys }

/-- One key of the state: its versions and its intent. -/
def InMemoryBackend.view (b : InMemoryBackend) (k : Key) : History × Option Intent :=
  (b.history k, b.getIntent k)

section Local
variable {b b' : InMemoryBackend} {k : Key}

theorem simAt_of_view (h : b.view k = b'.view k) : SimAt Eq b b' k :=
  ⟨congrArg Prod.snd h, congrArg Prod.fst h⟩

theorem SimAt.view_eq (h : SimAt Eq b b' k) : b.view k = b'.view k := Prod.ext h.history h.intent

theorem SimAt.sameFrom (h : SimAt Eq b b' k) (ts : Timestamp) : SameFrom ts k b b' := by
  refine ⟨h.intent, fun t _ => ?_⟩
  rw [InMemoryBackend.getLatestCommitTs_eq_some, InMemoryBackend.getLatestCommitTs_eq_some, h.history]

theorem SimAt.sameGuard {g : ReadGuard} (h : SimAt Eq b b' g.key) : SameGuard g b b' := by
  refine ⟨h.sameFrom g.readTs, fun _ => ?_⟩
  rw [getVisibleCommitted_of_history h.history]

/-- What an operation looks at is on its keys. -/
theorem agrees_of_keys {e : Effect} (h : ∀ k ∈ e.keys, SimAt Eq b b' k) : e.Agrees b b' := by
  cases e with
  | lock txnId startTs ws =>
    exact fun w hw => ((h w.key (List.mem_map_of_mem hw)).sameFrom startTs).unlocked
  | commit txnId startTs commitTs keys => exact fun k hk => (h k hk).sameFrom commitTs
  | write commitTs gs ws =>
    obtain ⟨hg, hw⟩ := List.forall_mem_append.mp h
    exact ⟨fun g hmem => (hg g.key (List.mem_map_of_mem hmem)).sameGuard,
      fun w hmem => (hw w.key (List.mem_map_of_mem hmem)).sameFrom commitTs⟩
  | _ => trivial

/-- What it changes is on its keys. -/
theorem exec_off {op : Op} (hm : op.isMutation = true) (hk : k ∉ op.effect.keys) :
    (op.exec b).2.view k = b.view k := by
  refine exec_elim (P := fun b' => b'.view k = b.view k) op b rfl ?_ ?_ ?_ ?_ ?_
  · intro txnId startTs ws b' _ he hl
    rw [he] at hk
    exact Prod.ext (hl.histories k) (hl.off k hk)
  · intro txnId startTs commitTs keys b' _ he hc
    rw [he] at hk
    exact Prod.ext (hc.off k hk).2 (hc.off k hk).1
  · intro txnId startTs keys b' _ he hr
    rw [he] at hk
    refine Prod.ext (hr.histories k) ?_
    show b'.getIntent k = b.getIntent k
    have hk : k ∉ keys := hk
    rw [hr.intents k]
    cases b.getIntent k <;> simp [Option.filter_some, hk]
  · intro commitTs guards ws b' _ he hw
    rw [he] at hk
    exact Prod.ext (hw.off k fun h => hk (List.mem_append_right _ h)) (hw.intents k)
  -- a mutation does not collect
  · intro sp options b' he
    exact absurd he (op.effect_ne_collect (op.not_isGc_of_isMutation hm) sp options)

/-- A mutation is local to its keys. -/
theorem exec_local {op : Op} (hm : op.isMutation = true) :
    Local InMemoryBackend.view op.exec op.keySet := by
  have hsame : ∀ b b', Set.EqOn b.view b'.view op.keySet → (op.exec b).1 = (op.exec b').1 :=
    fun b b' h => exec_congr hm (agrees_of_keys fun k hk => simAt_of_view (h hk))
  refine ⟨fun b k hk => exec_off hm hk, hsame, fun b b' h k hk => ?_⟩
  have hgc := op.effect_ne_collect (op.not_isGc_of_isMutation hm)
  refine ((simAt_of_view (h hk)).step op ?_ hgc (by rw [hsame b b' h])).view_eq
  rintro ts - H _ v rfl - -
  rfl

/-- Two states of the backend that look alike key by key are the same. -/
theorem eq_of_view (hb : Buildable b) (hb' : Buildable b') (h : b.view = b'.view) : b = b' :=
  hb.wf.ext hb'.wf (fun k => congrArg Prod.fst (congrFun h k)) fun k =>
    congrArg Prod.snd (congrFun h k)

end Local

/-- Mutations on disjoint keys commute: in either order each returns the same
result, and the state is the same. -/
theorem disjoint_operations_commute {b : InMemoryBackend} (hb : Buildable b) {op op' : Op}
    (hop : op.isMutation = true) (hop' : op'.isMutation = true)
    (hd : op.effect.keys.Disjoint op'.effect.keys) :
    (op.exec (op'.exec b).2).1 = (op.exec b).1 ∧ (op'.exec (op.exec b).2).1 = (op'.exec b).1 ∧
      (op.exec (op'.exec b).2).2 = (op'.exec (op.exec b).2).2 := by
  have hd : Disjoint op.keySet op'.keySet := Set.disjoint_left.mpr fun k hk hk' => hd hk hk'
  have hl := exec_local hop
  have hl' := exec_local hop'
  refine ⟨hl.result_after hl' hd b, hl'.result_after hl hd.symm b, ?_⟩
  exact eq_of_view (op.exec_buildable (op'.exec_buildable hb))
    (op'.exec_buildable (op.exec_buildable hb)) (hl.comm hl' hd b)

/-- A commit and a guarded batch that fails, in either order. -/
theorem disjoint_operations_commute_commit_guarded :
    let b := stateAfter [.prewrite 1 3 [1] (.put [7]), .applyDirectBatch 4 [⟨[2], none⟩]]
    let op : Op := .commit 1 [1] 3 5
    let op' : Op := .applyGuardedBatch 5 [.expectedVersion [2] 4 none] [⟨[3], some [8]⟩]
    (op.exec (op'.exec b).2).1 = (op.exec b).1 ∧ (op'.exec (op.exec b).2).1 = (op'.exec b).1 ∧
      (op.exec (op'.exec b).2).2 = (op'.exec (op.exec b).2).2 := by
  intro b op op'
  exact disjoint_operations_commute (buildable_final .new _) rfl rfl (by simp [op, op', Op.effect,
    Effect.keys, ReadGuard.key])

/-! Batches and single operations. -/

/-- In whatever order the single operations are run from `b`, they all succeed and
end in the state the batch leaves. -/
def Op.ComposedOf (batch : Op) (b : InMemoryBackend) (singles : List Op) : Prop :=
  ∀ order : List Op, order.Perm singles →
    (∀ x ∈ trace Op.exec b order, x.result.isOk = true) ∧
      final Op.exec b order = (batch.exec b).2

section Compose
variable {α : Type} {items : List α} {key : α → Key} {single : α → Op} {batch : Op}
  {b : InMemoryBackend}

/-- A batch that does to each of its keys what the single operation on that key
does to it. -/
theorem composedOf_of_view (hb : Buildable b) (hbatch : batch.isMutation = true)
    (hsingle : ∀ a, (single a).isMutation = true) (hkeys : batch.effect.keys = items.map key)
    (hkey : ∀ a, (single a).effect.keys = [key a]) (hnd : (items.map key).Nodup)
    (hok : ∀ a ∈ items, ((single a).exec b).1.isOk = true)
    (hview : ∀ a ∈ items, (batch.exec b).2.view (key a) = ((single a).exec b).2.view (key a)) :
    batch.ComposedOf b (items.map single) := by
  intro order hperm
  have hmem : ∀ op ∈ order, ∃ a ∈ items, single a = op := fun op hop =>
    List.mem_map.mp (hperm.mem_iff.mp hop)
  have hset : ∀ a, (single a).keySet = {key a} := fun a => by
    unfold Op.keySet
    rw [hkey a]
    simp
  have hlocal : ∀ op ∈ order, Local InMemoryBackend.view op.exec op.keySet := by
    intro op hop
    obtain ⟨a, -, rfl⟩ := hmem op hop
    exact exec_local (hsingle a)
  -- the keys are distinct, so the operations stay disjoint in every order
  have hdisj : order.Pairwise fun op op' => Disjoint op.keySet op'.keySet := by
    refine (hperm.pairwise_iff fun h => h.symm).mpr ?_
    refine List.pairwise_map.mpr ((List.pairwise_map.mp hnd).imp fun hne => ?_)
    rw [hset, hset]
    exact Set.disjoint_singleton.mpr hne
  constructor
  · intro x hx
    obtain ⟨hop, hres⟩ := result_trace hlocal hdisj b x hx
    obtain ⟨a, ha, he⟩ := hmem x.op hop
    rw [hres, ← he]
    exact hok a ha
  · apply eq_of_view (buildable_final hb order) (batch.exec_buildable hb)
    funext k
    -- a key of the batch is changed by its own operation only, any other by none
    by_cases hk : ∃ a ∈ items, key a = k
    · obtain ⟨a, ha, rfl⟩ := hk
      have hin : single a ∈ order := hperm.mem_iff.mpr (List.mem_map_of_mem ha)
      rw [hview a ha]
      exact view_final hlocal hdisj b hin (by rw [hset]; rfl)
    · have hoff : k ∉ batch.effect.keys := by
        rw [hkeys]
        exact fun h => hk (List.mem_map.mp h)
      rw [exec_off hbatch hoff]
      refine view_final_off hlocal b fun op hop => ?_
      obtain ⟨a, ha, rfl⟩ := hmem op hop
      rw [hset]
      exact fun h => hk ⟨a, ha, h.symm⟩

end Compose

section Success
variable {b : InMemoryBackend} {txnId : TxnId} {startTs commitTs : Timestamp}

theorem run_isOk {ε : Type} (p : Engine ε Unit) :
    (p.run b).1.isOk = true ↔ ∃ b', p.run b = (.ok (), b') := by
  constructor
  · intro h
    obtain ⟨⟨⟩, hrun⟩ := run_of_isOk p h
    exact ⟨_, hrun⟩
  · rintro ⟨b', hrun⟩
    rw [hrun]
    rfl

theorem prewrite_isOk {key : Key} {m : Mutation} :
    ((Op.prewrite txnId startTs key m).exec b).1.isOk = true ↔
      Held b txnId startTs ⟨key, m.value⟩ ∨ Free b startTs key := by
  refine (run_isOk (prewrite txnId startTs key m)).trans ?_
  simp only [prewrite_ok, exists_or, exists_and_left, exists_eq, and_true]

theorem commit_isOk {key : Key} :
    ((Op.commit txnId key startTs commitTs).exec b).1.isOk = true ↔
      startTs < commitTs ∧ Committable b txnId startTs commitTs key := by
  refine (run_isOk (commit txnId key startTs commitTs)).trans ?_
  simp only [commit_ok, exists_and_left, exists_eq, and_true]

theorem prewriteBatch_isOk {ws : List PhysicalWrite} :
    ((Op.prewriteBatch txnId startTs ws).exec b).1.isOk = true ↔
      ws ≠ [] ∧ (ws.map (·.key)).Nodup ∧
        ((∀ w ∈ ws, Held b txnId startTs w) ∨ ∀ w ∈ ws, Free b startTs w.key) := by
  refine (run_isOk (prewriteBatch txnId startTs ws)).trans ?_
  simp only [prewriteBatch_ok, exists_or, exists_and_left, exists_eq, and_true]

theorem commitBatch_isOk {keys : List Key} :
    ((Op.commitBatch txnId startTs commitTs keys).exec b).1.isOk = true ↔
      keys ≠ [] ∧ keys.Nodup ∧ startTs < commitTs ∧
        ∀ k ∈ keys, Committable b txnId startTs commitTs k := by
  refine (run_isOk (commitBatch txnId startTs commitTs keys)).trans ?_
  simp only [commitBatch_ok, exists_and_left, exists_eq, and_true]

theorem abortBatch_isOk {keys : List Key} :
    ((Op.abortBatch txnId startTs keys).exec b).1.isOk = true ↔ keys.Nodup := by
  refine (run_isOk (abortBatch txnId startTs keys)).trans ?_
  simp only [abortBatch_ok, exists_and_left, exists_eq, and_true]

theorem applyDirectBatch_isOk {ws : List PhysicalWrite} :
    ((Op.applyDirectBatch commitTs ws).exec b).1.isOk = true ↔
      ws ≠ [] ∧ (ws.map (·.key)).Nodup ∧ ∀ w ∈ ws, Writable b commitTs w.key := by
  refine (run_isOk (applyDirectBatch commitTs ws)).trans ?_
  simp only [applyDirectBatch_ok, exists_and_left, exists_eq, and_true]

theorem applyGuardedBatch_isOk {gs : List ReadGuard} {ws : List PhysicalWrite} :
    ((Op.applyGuardedBatch commitTs gs ws).exec b).1.isOk = true ↔
      ws ≠ [] ∧ gs ≠ [] ∧ (ws.map (·.key)).Nodup ∧ (∀ g ∈ gs, g.Holds b commitTs) ∧
        ∀ w ∈ ws, Writable b commitTs w.key := by
  refine (run_isOk (applyGuardedBatch commitTs gs ws)).trans ?_
  simp only [applyGuardedBatch_ok, exists_and_left, exists_eq, and_true]

/-! What a key looks like after an effect depends on that key alone. -/

variable {b' : InMemoryBackend}

theorem Locks.view_here {ws : List PhysicalWrite} {w : PhysicalWrite}
    (h : Locks b b' txnId startTs ws) (hw : w ∈ ws) :
    b'.view w.key = (b.history w.key, some ((b.getIntent w.key).getD
      ⟨w.key, txnId, startTs, Mutation.ofValue w.value, none⟩)) :=
  Prod.ext (h.histories w.key) (h.intent_here hw)

theorem Commits.view_here {keys : List Key} {k : Key}
    (h : Commits b b' txnId startTs commitTs keys) (hk : k ∈ keys) :
    b'.view k =
      (Function.update (b.history k) commitTs (some (commitOf b commitTs k).value), none) :=
  Prod.ext (h.here k hk).2 (h.here k hk).1

theorem Releases.view_here {keys : List Key} {k : Key} (h : Releases b b' txnId startTs keys)
    (hk : k ∈ keys) :
    b'.view k = (b.history k, (b.getIntent k).filter fun i => ¬ i.heldBy txnId startTs) := by
  refine Prod.ext (h.histories k) ((h.intents k).trans ?_)
  simp only [hk, true_and]

theorem Writes.view_here {guards : List ReadGuard} {ws : List PhysicalWrite} {w : PhysicalWrite}
    (h : Writes b b' commitTs guards ws) (hw : w ∈ ws) :
    b'.view w.key =
      (Function.update (b.history w.key) commitTs (some w.value), b.getIntent w.key) :=
  Prod.ext (h.here w hw) (h.intents w.key)

end Success

section Batches
variable {b : InMemoryBackend} {txnId : TxnId} {startTs commitTs : Timestamp}

theorem commitBatch_composes (hb : Buildable b) {keys : List Key} (hne : keys ≠ [])
    (hnd : keys.Nodup) :
    (((Op.commitBatch txnId startTs commitTs keys).exec b).1.isOk = true ↔
      ∀ k ∈ keys, ((Op.commit txnId k startTs commitTs).exec b).1.isOk = true) ∧
    (((Op.commitBatch txnId startTs commitTs keys).exec b).1.isOk = true →
      (Op.commitBatch txnId startTs commitTs keys).ComposedOf b
        (keys.map fun k => .commit txnId k startTs commitTs)) := by
  have hiff : ((Op.commitBatch txnId startTs commitTs keys).exec b).1.isOk = true ↔
      ∀ k ∈ keys, ((Op.commit txnId k startTs commitTs).exec b).1.isOk = true := by
    simp only [commitBatch_isOk, commit_isOk]
    constructor
    · exact fun ⟨_, _, hlt, hc⟩ k hk => ⟨hlt, hc k hk⟩
    · intro h
      obtain ⟨k, hk⟩ := List.exists_mem_of_ne_nil keys hne
      exact ⟨hne, hnd, (h k hk).1, fun k hk => (h k hk).2⟩
  refine ⟨hiff, fun hok => ?_⟩
  have hsingle := hiff.mp hok
  have hid : keys.map id = keys := List.map_id keys
  refine composedOf_of_view hb rfl (fun _ => rfl) hid.symm (fun _ => rfl) (by rwa [hid]) hsingle ?_
  intro k hk
  exact (Commits.view_here (exec_ok _ hok) hk).trans
    (Commits.view_here (exec_ok _ (hsingle k hk)) List.mem_cons_self).symm

theorem applyDirectBatch_composes (hb : Buildable b) {ws : List PhysicalWrite} (hne : ws ≠ [])
    (hnd : (ws.map (·.key)).Nodup) :
    (((Op.applyDirectBatch commitTs ws).exec b).1.isOk = true ↔
      ∀ w ∈ ws, ((Op.applyDirectBatch commitTs [w]).exec b).1.isOk = true) ∧
    (((Op.applyDirectBatch commitTs ws).exec b).1.isOk = true →
      (Op.applyDirectBatch commitTs ws).ComposedOf b
        (ws.map fun w => .applyDirectBatch commitTs [w])) := by
  have hiff : ((Op.applyDirectBatch commitTs ws).exec b).1.isOk = true ↔
      ∀ w ∈ ws, ((Op.applyDirectBatch commitTs [w]).exec b).1.isOk = true := by
    simp [applyDirectBatch_isOk, hne, hnd]
  refine ⟨hiff, fun hok => ?_⟩
  have hsingle := hiff.mp hok
  refine composedOf_of_view hb rfl (fun _ => rfl) rfl (fun _ => rfl) hnd hsingle ?_
  intro w hw
  exact (Writes.view_here (exec_ok _ hok) hw).trans
    (Writes.view_here (exec_ok _ (hsingle w hw)) List.mem_cons_self).symm

theorem prewriteBatch_composes (hb : Buildable b) {ws : List PhysicalWrite} (hne : ws ≠ [])
    (hnd : (ws.map (·.key)).Nodup) :
    (((Op.prewriteBatch txnId startTs ws).exec b).1.isOk = true ↔
      (∀ w ∈ ws, ((Op.prewrite txnId startTs w.key (.ofValue w.value)).exec b).1.isOk = true) ∧
        ((∀ w ∈ ws, (b.getIntent w.key).isSome) ∨ ∀ w ∈ ws, b.getIntent w.key = none)) ∧
    (((Op.prewriteBatch txnId startTs ws).exec b).1.isOk = true →
      (Op.prewriteBatch txnId startTs ws).ComposedOf b
        (ws.map fun w => .prewrite txnId startTs w.key (.ofValue w.value))) := by
  have hiff : ((Op.prewriteBatch txnId startTs ws).exec b).1.isOk = true ↔
      (∀ w ∈ ws, ((Op.prewrite txnId startTs w.key (.ofValue w.value)).exec b).1.isOk = true) ∧
        ((∀ w ∈ ws, (b.getIntent w.key).isSome) ∨ ∀ w ∈ ws, b.getIntent w.key = none) := by
    simp only [prewriteBatch_isOk, prewrite_isOk, Mutation.value_ofValue]
    constructor
    · rintro ⟨-, -, hheld | hfree⟩
      · exact ⟨fun w hw => .inl (hheld w hw), .inl fun w hw => (hheld w hw).isSome⟩
      · exact ⟨fun w hw => .inr (hfree w hw), .inr fun w hw => (hfree w hw).1⟩
    · rintro ⟨hall, hsome | hnone⟩
      -- a key with an intent is not free, and one without does not hold the intent
      · refine ⟨hne, hnd, .inl fun w hw => (hall w hw).resolve_right fun hfree => ?_⟩
        have hsome := hsome w hw
        rw [hfree.isSome] at hsome
        cases hsome
      · refine ⟨hne, hnd, .inr fun w hw => (hall w hw).resolve_left fun hheld => ?_⟩
        have hsome := hheld.isSome
        rw [hnone w hw] at hsome
        cases hsome
  refine ⟨hiff, fun hok => ?_⟩
  have hsingle := (hiff.mp hok).1
  refine composedOf_of_view hb rfl (fun _ => rfl) rfl (fun _ => rfl) hnd hsingle ?_
  intro w hw
  have hl := Locks.view_here (exec_ok _ hok) hw
  have hl' := Locks.view_here (exec_ok _ (hsingle w hw)) List.mem_cons_self
  rw [Mutation.value_ofValue] at hl'
  exact hl.trans hl'.symm

theorem abortBatch_composes (hb : Buildable b) {keys : List Key} (hnd : keys.Nodup) :
    ((Op.abortBatch txnId startTs keys).exec b).1.isOk = true ∧
      (Op.abortBatch txnId startTs keys).ComposedOf b
        (keys.map fun k => .abort txnId k startTs) := by
  have hok : ((Op.abortBatch txnId startTs keys).exec b).1.isOk = true := abortBatch_isOk.mpr hnd
  have hid : keys.map id = keys := List.map_id keys
  refine ⟨hok, composedOf_of_view hb rfl (fun _ => rfl) hid.symm (fun _ => rfl) (by rwa [hid])
    (fun _ _ => rfl) ?_⟩
  intro k hk
  exact (Releases.view_here (exec_ok _ hok) hk).trans
    (Releases.view_here (exec_ok (.abort txnId k startTs) rfl) List.mem_cons_self).symm

end Batches

/-- A batch on distinct keys is the composition of the single operations on them.
A commit or a direct batch succeeds exactly where each of the single operations
does in the same state; a prewrite where besides all or none of its keys hold an
intent; an abort always. What a successful batch leaves is what the single
operations leave in any order. A key list with a duplicate is refused. -/
theorem batches_compose_singles {b : InMemoryBackend} (hb : Buildable b) (txnId : TxnId)
    (startTs commitTs : Timestamp) (keys : List Key) (ws : List PhysicalWrite) :
    (keys ≠ [] → keys.Nodup →
      (((Op.commitBatch txnId startTs commitTs keys).exec b).1.isOk = true ↔
        ∀ k ∈ keys, ((Op.commit txnId k startTs commitTs).exec b).1.isOk = true) ∧
      (((Op.commitBatch txnId startTs commitTs keys).exec b).1.isOk = true →
        (Op.commitBatch txnId startTs commitTs keys).ComposedOf b
          (keys.map fun k => .commit txnId k startTs commitTs))) ∧
    (ws ≠ [] → (ws.map (·.key)).Nodup →
      (((Op.applyDirectBatch commitTs ws).exec b).1.isOk = true ↔
        ∀ w ∈ ws, ((Op.applyDirectBatch commitTs [w]).exec b).1.isOk = true) ∧
      (((Op.applyDirectBatch commitTs ws).exec b).1.isOk = true →
        (Op.applyDirectBatch commitTs ws).ComposedOf b
          (ws.map fun w => .applyDirectBatch commitTs [w]))) ∧
    (ws ≠ [] → (ws.map (·.key)).Nodup →
      (((Op.prewriteBatch txnId startTs ws).exec b).1.isOk = true ↔
        (∀ w ∈ ws, ((Op.prewrite txnId startTs w.key (.ofValue w.value)).exec b).1.isOk = true) ∧
          ((∀ w ∈ ws, (b.getIntent w.key).isSome) ∨ ∀ w ∈ ws, b.getIntent w.key = none)) ∧
      (((Op.prewriteBatch txnId startTs ws).exec b).1.isOk = true →
        (Op.prewriteBatch txnId startTs ws).ComposedOf b
          (ws.map fun w => .prewrite txnId startTs w.key (.ofValue w.value)))) ∧
    (keys.Nodup →
      ((Op.abortBatch txnId startTs keys).exec b).1.isOk = true ∧
        (Op.abortBatch txnId startTs keys).ComposedOf b
          (keys.map fun k => .abort txnId k startTs)) ∧
    (¬ keys.Nodup → (Op.commitBatch txnId startTs commitTs keys).Refused b ∧
      (Op.abortBatch txnId startTs keys).Refused b) ∧
    (¬ (ws.map (·.key)).Nodup → (Op.prewriteBatch txnId startTs ws).Refused b ∧
      (Op.applyDirectBatch commitTs ws).Refused b) := by
  refine ⟨commitBatch_composes hb, applyDirectBatch_composes hb, prewriteBatch_composes hb,
    abortBatch_composes hb, fun hdup => ⟨?_, ?_⟩, fun hdup => ⟨?_, ?_⟩⟩
  · exact Op.refused_of_not_isOk fun hok => hdup (commitBatch_isOk.mp hok).2.1
  · exact Op.refused_of_not_isOk fun hok => hdup (abortBatch_isOk.mp hok)
  · exact Op.refused_of_not_isOk fun hok => hdup (prewriteBatch_isOk.mp hok).2.1
  · exact Op.refused_of_not_isOk fun hok => hdup (applyDirectBatch_isOk.mp hok).2.1

/-- Two intents committed as a batch, and one after the other in the other order. -/
theorem batches_compose_singles_two_commits :
    let b := stateAfter [.prewriteBatch 1 3 [⟨[1], some [7]⟩, ⟨[2], none⟩]]
    final Op.exec b [.commit 1 [2] 3 5, .commit 1 [1] 3 5] =
      ((Op.commitBatch 1 3 5 [[1], [2]]).exec b).2 := by
  intro b
  have hcommit := (batches_compose_singles (buildable_final .new
    [.prewriteBatch 1 3 [⟨[1], some [7]⟩, ⟨[2], none⟩]]) 1 3 5 [[1], [2]] []).1 (by simp) (by decide)
  have hok : ((Op.commitBatch 1 3 5 [[1], [2]]).exec b).1.isOk = true := by decide +kernel
  exact (hcommit.2 hok _ (List.Perm.swap _ _ [])).2

end NexirMvcc
