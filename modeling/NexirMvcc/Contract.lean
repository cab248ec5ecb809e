import NexirMvcc.Faults
import NexirMvcc.KeyIndex

/- The contract of a backend, and what follows from it. `Store` is what a backend stands
   for: the versions and the intent of every key. `Store.Answers` and `Store.after` say
   what the methods of the `Backend` trait return and do, in the words of the trait's own
   comments and without any representation: the newest version at or before a timestamp,
   the first keys in order, the newest timestamps before another one. A backend conforms
   (`Conforms`) if every call that succeeds does just that, and a call that fails does
   nothing. The reads are not to be chosen freely: the store determines every answer.

   What is proved:
     1. `InMemoryBackend.conforms` — the in-memory backend conforms, in every state with
        its representation invariant, also where its calls may fail.
     2. `adapters_refine` — whatever the engine does on a backend that conforms, it does
        on the in-memory backend, call by call and with the same results. So what holds
        of every run on the in-memory backend holds of every such adapter. -/
namespace NexirMvcc
open VersionHistory StepRun CallTree

/-- The versions and the intent of every key. -/
structure Store where
  history : Key → Timestamp → Option (Option Value)
  intents : Key → Option Intent

namespace Store

def empty : Store := ⟨fun _ _ => none, fun _ => none⟩

variable (S : Store)

/-- The backend manages the key: it has a version or an intent. -/
def Live (k : Key) : Prop := (∃ t, t ∈ dom (S.history k)) ∨ (S.intents k).isSome

/-- What a call that succeeds returns. -/
def Answers : (c : BackendCall) → c.Reply → Prop
  | .getVisibleCommitted key readTs, some v =>
    v.key = key ∧ Visible (S.history key) readTs v.commitTs ∧
      S.history key v.commitTs = some v.value
  | .getVisibleCommitted key readTs, none => ∀ t ≤ readTs, S.history key t = none
  | .getLatestCommitTs key, some t => Latest (S.history key) t
  | .getLatestCommitTs key, none => ∀ t, S.history key t = none
  | .getIntent key, intent => intent = S.intents key
  | .removeIntent key txnId startTs, removed =>
    removed = true ↔ ∃ i, S.intents key = some i ∧ i.heldBy txnId startTs
  | .allKeys, keys => keys.Pairwise (· < ·) ∧ ∀ k, k ∈ keys ↔ S.Live k
  | .keysFrom start limit, page => ∃ keys : List Key, keys.Pairwise (· < ·) ∧
    (∀ k, k ∈ keys ↔ S.Live k ∧ ∀ s, start = some s → s ≤ k) ∧ page = keys.take limit
  | .getCommittedTimestampsBefore key beforeTs limit, page => ∃ tss : List Timestamp,
    tss.Pairwise (· > ·) ∧ (∀ t, t ∈ tss ↔ t ∈ dom (S.history key) ∧ t < beforeTs) ∧
      page = tss.take limit
  | _, _ => True

def lock (i : Intent) : Store :=
  { S with intents := fun k => if i.key = k then some i else S.intents k }

/-- Drop the intents of the listed transactions on the listed keys. -/
def release (is : List (Key × TxnId × Timestamp)) : Store :=
  { S with intents := fun k => (S.intents k).filter fun i => (k, i.txnId, i.startTs) ∉ is }

def put (v : CommittedVersion) : Store :=
  { S with history := fun k =>
      if v.key = k then Function.update (S.history k) v.commitTs (some v.value) else S.history k }

def remove (key : Key) (tss : List Timestamp) : Store :=
  { S with history := fun k t => if key = k ∧ t ∈ tss then none else S.history k t }

/-- What a call that succeeds leaves. -/
def after : BackendCall → Store
  | .putIntent intent => S.lock intent
  | .removeIntent key txnId startTs => S.release [(key, txnId, startTs)]
  | .putCommittedBatch versions => versions.foldl put S
  | .removeCommittedVersion key commitTs => S.remove key [commitTs]
  | .putIntentsBatch intents => intents.foldl lock S
  | .commitIntentsBatch commits removedIntents => (commits.foldl put S).release removedIntents
  | .removeIntentsBatch intents => S.release intents
  | .collapseTombstone key tombstoneTs olderTs => S.remove key (tombstoneTs :: olderTs)
  | _ => S

end Store

/-- The contract of a backend in the states with `inv`, which stand for the store `view`. -/
structure Conforms {σ : Type} (D : Device BackendCall.Reply String σ) (inv : σ → Prop)
    (view : σ → Store) : Prop where
  keeps : ∀ c s x s', inv s → D c s x s' → inv s'
  replies : ∀ c s a s', inv s → D c s (.ok a) s' → (view s).Answers c a ∧ view s' = (view s).after c
  failed : ∀ c s msg s', inv s → D c s (.error msg) s' → view s' = view s

/-! The store determines the answers. -/

section Unique
variable {S : Store} {key : Key} {r : Timestamp}

theorem Store.visible_unique {v v' : CommittedVersion}
    (h : S.Answers (.getVisibleCommitted key r) (some v))
    (h' : S.Answers (.getVisibleCommitted key r) (some v')) : v = v' := by
  obtain ⟨hk, hvis, hval⟩ := h
  obtain ⟨hk', hvis', hval'⟩ := h'
  obtain ⟨k, t, x⟩ := v
  obtain ⟨k', t', x'⟩ := v'
  obtain rfl : k = key := hk
  obtain rfl : k' = k := hk'
  obtain rfl : t = t' := hvis.unique hvis'
  obtain rfl : x = x' := Option.some.inj (hval.symm.trans hval')
  rfl

theorem Store.not_visible_none {v : CommittedVersion}
    (h : S.Answers (.getVisibleCommitted key r) (some v)) :
    ¬ S.Answers (.getVisibleCommitted key r) none := by
  intro hnone
  obtain ⟨-, hvis, hval⟩ := h
  rw [hnone v.commitTs hvis.1.2] at hval
  cases hval

theorem Store.not_latest_none {t : Timestamp} (h : S.Answers (.getLatestCommitTs key) (some t)) :
    ¬ S.Answers (.getLatestCommitTs key) none := by
  intro hnone
  obtain ⟨x, hx⟩ := mem_dom.mp h.1
  rw [hnone t] at hx
  cases hx

theorem Store.Answers.unique {c : BackendCall} {a a' : c.Reply} (h : S.Answers c a)
    (h' : S.Answers c a') : a = a' := by
  cases c with
  | getVisibleCommitted key r =>
    cases a with
    | none =>
      cases a' with
      | none => rfl
      | some v' => exact absurd h (Store.not_visible_none h')
    | some v =>
      cases a' with
      | none => exact absurd h' (Store.not_visible_none h)
      | some v' => rw [Store.visible_unique h h']
  | getLatestCommitTs key =>
    cases a with
    | none =>
      cases a' with
      | none => rfl
      | some t' => exact absurd h (Store.not_latest_none h')
    | some t =>
      cases a' with
      | none => exact absurd h' (Store.not_latest_none h)
      | some t' => exact congrArg some (IsGreatest.unique h h')
  | getIntent key => exact h.trans h'.symm
  | removeIntent key txnId startTs =>
    have hiff : a = true ↔ a' = true := h.trans h'.symm
    exact Bool.eq_iff_iff.mpr hiff
  | allKeys => exact h.1.eq_of_mem_iff h'.1 fun k => (h.2 k).trans (h'.2 k).symm
  | keysFrom start limit =>
    obtain ⟨keys, hs, hm, rfl⟩ := h
    obtain ⟨keys', hs', hm', rfl⟩ := h'
    rw [hs.eq_of_mem_iff hs' fun k => (hm k).trans (hm' k).symm]
  | getCommittedTimestampsBefore key t limit =>
    obtain ⟨tss, hs, hm, rfl⟩ := h
    obtain ⟨tss', hs', hm', rfl⟩ := h'
    rw [hs.eq_of_mem_iff hs' fun u => (hm u).trans (hm' u).symm]
  | _ => rfl

end Unique

/-! The in-memory backend. -/

namespace InMemoryBackend
variable {b : InMemoryBackend}

/-- The store that a state stands for. -/
def store (b : InMemoryBackend) : Store := ⟨b.history, b.getIntent⟩

theorem store_new : new.store = .empty := by
  have hhistory : new.history = fun _ _ => none := funext fun _ => history_new
  have hintents : new.getIntent = fun _ => none := funext fun _ => getIntent_new
  rw [store, hhistory, hintents, Store.empty]

theorem Wf.live_iff (hb : b.Wf) {k : Key} : k ∈ b.allKeysSet ↔ b.store.Live k := hb.keys k

/-- Every lookup answers as the contract says. -/
theorem Wf.answers (hb : b.Wf) {c : BackendCall} {a : c.Reply} (h : (memCall c b).1 = .ok a) :
    b.store.Answers c a := by
  cases c with
  | getVisibleCommitted key r =>
    cases h
    cases hv : b.getVisibleCommitted key r with
    | none => exact getVisibleCommitted_eq_none.mp hv
    | some v => exact getVisibleCommitted_eq_some.mp hv
  | getLatestCommitTs key =>
    cases h
    cases ht : b.getLatestCommitTs key with
    | none => exact getLatestCommitTs_eq_none.mp ht
    | some t => exact getLatestCommitTs_eq_some.mp ht
  | getIntent key =>
    cases h
    rfl
  | removeIntent key txnId startTs =>
    cases h
    show (b.removeIntent key txnId startTs).1 = true ↔
      ∃ i, b.intents[key]? = some i ∧ i.heldBy txnId startTs
    unfold InMemoryBackend.removeIntent Intent.heldBy
    cases b.intents[key]? with
    | none => simp
    | some i => by_cases hm : i.txnId = txnId ∧ i.startTs = startTs <;> simp [hm]
  | allKeys =>
    cases h
    refine ⟨OrderedSet.toList_sorted _, fun k => ?_⟩
    rw [allKeys, Std.ExtTreeSet.mem_toList, hb.live_iff]
  | keysFrom start limit =>
    cases h
    refine ⟨b.keysAt start, b.keysAt_sorted start, fun k => ?_, keysFrom_eq⟩
    rw [mem_keysAt, hb.live_iff]
  | getCommittedTimestampsBefore key t limit =>
    cases h
    exact ⟨b.olderThan key t, b.olderThan_sorted key t, fun _ => mem_olderThan,
      getCommittedTimestampsBefore_eq⟩
  | _ => trivial

theorem store_putIntent (i : Intent) : (b.putIntent i).store = b.store.lock i := by
  unfold store Store.lock
  congr 1
  exact funext fun _ => getIntent_putIntent

theorem store_putCommitted (v : CommittedVersion) : (b.putCommitted v).store = b.store.put v := by
  unfold store Store.put
  congr 1
  exact funext fun _ => history_putCommitted

theorem store_putIntentsBatch (is : List Intent) :
    (b.putIntentsBatch is).store = is.foldl Store.lock b.store := by
  unfold putIntentsBatch
  induction is generalizing b with
  | nil => rfl
  | cons i is ih => rw [List.foldl_cons, List.foldl_cons, ih, store_putIntent]

theorem store_putCommittedBatch (vs : List CommittedVersion) :
    (b.putCommittedBatch vs).store = vs.foldl Store.put b.store := by
  unfold putCommittedBatch
  induction vs generalizing b with
  | nil => rfl
  | cons v vs ih => rw [List.foldl_cons, List.foldl_cons, ih, store_putCommitted]

theorem store_removeIntentsBatch (is : List (Key × TxnId × Timestamp)) :
    (b.removeIntentsBatch is).store = b.store.release is := by
  unfold store Store.release
  congr 1
  · exact funext fun _ => history_removeIntentsBatch
  · exact funext fun _ => getIntent_removeIntentsBatch

/-- Every update does what the contract says. -/
theorem store_memCall (c : BackendCall) (b : InMemoryBackend) :
    (memCall c b).2.store = b.store.after c := by
  cases c with
  | putIntent i => exact store_putIntent i
  | removeIntent key txnId startTs => exact store_removeIntentsBatch [(key, txnId, startTs)]
  | putCommittedBatch vs => exact store_putCommittedBatch vs
  | putIntentsBatch is => exact store_putIntentsBatch is
  | removeIntentsBatch is => exact store_removeIntentsBatch is
  | commitIntentsBatch vs is =>
    show ((b.putCommittedBatch vs).removeIntentsBatch is).store = (vs.foldl Store.put b.store).release is
    rw [store_removeIntentsBatch, store_putCommittedBatch]
  | removeCommittedVersion key t =>
    show (b.removeCommittedVersion key t).store = b.store.remove key [t]
    unfold store Store.remove
    congr 1
    · funext k ts
      rw [history_removeCommittedVersion]
      by_cases hk : key = k <;> by_cases ht : ts = t <;> simp [hk, ht]
    · exact funext fun _ => getIntent_removeCommittedVersion
  | collapseTombstone key t older =>
    show (b.collapseTombstone key t older).store = b.store.remove key (t :: older)
    unfold store Store.remove
    congr 1
    · funext k ts
      exact history_collapseTombstone
    · exact funext fun _ => getIntent_collapseTombstone
  | _ => rfl

/-- The in-memory backend meets the contract. -/
theorem conforms : Conforms memCall.faulty Wf store := by
  refine ⟨?_, ?_, ?_⟩
  · rintro c b x b' hb (h | ⟨-, rfl⟩)
    · have := memCall_wf c hb
      rwa [h] at this
    · exact hb
  · rintro c b a b' hb (h | ⟨⟨msg, hmsg⟩, -⟩)
    · refine ⟨hb.answers (by rw [h]), ?_⟩
      rw [← store_memCall, h]
    · cases hmsg
  · rintro c b msg b' - (h | ⟨-, rfl⟩)
    · rw [memCall_error c b msg b' h]
    · rfl

end InMemoryBackend

/-! Refinement. -/

section Refinement
variable {σ : Type} {D : Device BackendCall.Reply String σ} {inv : σ → Prop} {view : σ → Store}

/-- A state of an adapter and one of the in-memory backend that stand for one store. -/
structure StandsFor (inv : σ → Prop) (view : σ → Store) (s : σ) (b : InMemoryBackend) : Prop where
  inv : inv s
  wf : b.Wf
  store : view s = b.store

/-- A call: the in-memory backend gives the same answer, and they stay together. -/
theorem StandsFor.call (hD : Conforms D inv view) {c : BackendCall} {s s' : σ} {b : InMemoryBackend}
    {x : Except String c.Reply} (h : StandsFor inv view s b) (hd : D c s x s') :
    ∃ b', memCall.faulty c b x b' ∧ StandsFor inv view s' b' := by
  have hinv := hD.keeps c s x s' h.inv hd
  cases x with
  | error msg =>
    refine ⟨b, .inr ⟨⟨msg, rfl⟩, rfl⟩, hinv, h.wf, ?_⟩
    rw [hD.failed c s msg s' h.inv hd, h.store]
  | ok a =>
    obtain ⟨hans, hafter⟩ := hD.replies c s a s' h.inv hd
    -- both answers are right for one store, so they are one answer
    obtain ⟨a', ha'⟩ := memCall_ok c b
    have hmem := h.wf.answers ha'
    rw [h.store] at hans
    obtain rfl := hans.unique hmem
    refine ⟨(memCall c b).2, .inl (Prod.ext ha' rfl), hinv, memCall_wf c h.wf, ?_⟩
    rw [hafter, InMemoryBackend.store_memCall, h.store]

/-- An execution: the in-memory backend has it too. -/
theorem StandsFor.sim (hD : Conforms D inv view) {ε α : Type} {t : Engine ε α} {s s' : σ}
    {b : InMemoryBackend} {es : List (CallEvent BackendCall.Reply String)} {r : Except ε α}
    (h : StandsFor inv view s b) (he : Exec D t s es r s') :
    ∃ b', Exec memCall.faulty t b es r b' ∧ StandsFor inv view s' b' := by
  have hcall : ∀ c s b x s', StandsFor inv view s b → D c s x s' →
      ∃ b', memCall.faulty c b x b' ∧ StandsFor inv view s' b' :=
    fun _ _ _ _ _ hJ hd => hJ.call hD hd
  exact he.sim hcall h

/-- The operation on a backend `D`. -/
def Op.ExecsOn (D : Device BackendCall.Reply String σ) (s : σ) (op : Op) (res : Result) (s' : σ) :
    Prop :=
  ∃ es r, Exec D op.program.tree s es r s' ∧ res = op.program.result r

/-- A run of a deterministic backend that answers as `D` can is a run on `D`. -/
theorem Op.path_execOn {h : Handler BackendCall.Reply String σ} (D : Device BackendCall.Reply String σ)
    (hD : ∀ c s, D c s (h c s).1 (h c s).2) (s : σ) (ops : List Op) :
    Path (Op.ExecsOn D) s (trace (Op.execOn h) s ops) (final (Op.execOn h) s ops) := by
  refine (path_trace (Op.execOn h) s ops).mono fun s op res s' hexec => ?_
  have hon : Op.ExecsOn D s op (op.execOn h s).1 (op.execOn h s).2 := ⟨_, _, exec_calls hD _ s, rfl⟩
  rwa [hexec] at hon

theorem StandsFor.execs (hD : Conforms D inv view) {op : Op} {res : Result} {s s' : σ}
    {b : InMemoryBackend} (h : StandsFor inv view s b) (he : Op.ExecsOn D s op res s') :
    ∃ b', op.Execs b res b' ∧ StandsFor inv view s' b' := by
  obtain ⟨es, r, he, hres⟩ := he
  obtain ⟨b', he', h'⟩ := h.sim hD he
  exact ⟨b', ⟨es, r, he', hres⟩, h'⟩

/-- The same where no call fails: the operation does what it does in memory. -/
theorem StandsFor.exec (hD : Conforms D inv view) (hok : ∀ c s msg s', ¬ D c s (.error msg) s')
    {op : Op} {res : Result} {s s' : σ} {b : InMemoryBackend} (h : StandsFor inv view s b)
    (he : Op.ExecsOn D s op res s') : ∃ b', op.exec b = (res, b') ∧ StandsFor inv view s' b' := by
  obtain ⟨es, r, he, rfl⟩ := he
  have hes : ∀ e ∈ es, ∃ a, e.2 = .ok a := by
    refine he.forall_calls (P := fun e => ∃ a, e.2 = .ok a) fun c s x s' hd => ?_
    cases x with
    | ok a => exact ⟨a, rfl⟩
    | error msg => exact absurd hd (hok c s msg s')
  obtain ⟨b', he', h'⟩ := h.sim hD he
  refine ⟨b', ?_, h'⟩
  unfold Op.exec Op.execOn
  rw [he'.eval_eq hes]

end Refinement

/-- The engine on any backend that conforms, from an empty store, against the engine in
memory. Every run there is a run here in which the same calls fail, with the same results
and the same store at its end; and if no call fails, the results are those that the
operations return here. -/
theorem adapters_refine {σ : Type} {D : Device BackendCall.Reply String σ} {inv : σ → Prop}
    {view : σ → Store} (hD : Conforms D inv view) {s s' : σ} (hs : inv s) (hempty : view s = .empty)
    {xs : List (Step σ Op Result)} (hrun : Path (Op.ExecsOn D) s xs s') :
    (∃ ys b, Path (fun b op => op.Execs b) InMemoryBackend.new ys b ∧
      ys.map (fun y => (y.op, y.result)) = xs.map (fun x => (x.op, x.result)) ∧
      view s' = b.store) ∧
    ((∀ c s msg s', ¬ D c s (.error msg) s') →
      xs.map (fun x => (x.op, x.result)) =
        (steps (xs.map (·.op))).map (fun y => (y.op, y.result)) ∧
      view s' = (stateAfter (xs.map (·.op))).store) := by
  have hnew : StandsFor inv view s .new :=
    ⟨hs, InMemoryBackend.wf_new, hempty.trans InMemoryBackend.store_new.symm⟩
  constructor
  · have hstep : ∀ s b op res s', StandsFor inv view s b → Op.ExecsOn D s op res s' →
        ∃ b', op.Execs b res b' ∧ StandsFor inv view s' b' := fun _ _ _ _ _ hJ he => hJ.execs hD he
    obtain ⟨ys, b, hp, hys, h⟩ := hrun.follow hstep hnew
    exact ⟨ys, b, hp, hys, h.store⟩
  · intro hok
    have hstep : ∀ s b op res s', StandsFor inv view s b → Op.ExecsOn D s op res s' →
        ∃ b', op.exec b = (res, b') ∧ StandsFor inv view s' b' :=
      fun _ _ _ _ _ hJ he => hJ.exec hD hok he
    obtain ⟨ys, b, hp, hys, h⟩ := hrun.follow hstep hnew
    obtain ⟨htrace, hfinal⟩ := hp.eq_trace
    have hops : ys.map (·.op) = xs.map (·.op) := by
      have hfst := congrArg (List.map Prod.fst) hys
      simpa [List.map_map, Function.comp_def] using hfst
    rw [hops] at htrace hfinal
    refine ⟨?_, ?_⟩
    · rw [← hys, htrace]
      rfl
    · rw [h.store, hfinal]
      rfl

/-! A second backend. -/

/-- The removals that a backend was asked for, beside the in-memory backend that does
them (`SpyBackend` of the tests). -/
structure SpyBackend where
  inner : InMemoryBackend
  collapseTombstoneCalls : List (Key × Timestamp × List Timestamp)
  removeCommittedVersionCalls : List (Key × Timestamp)

namespace SpyBackend

def new : SpyBackend := ⟨.new, [], []⟩

/-- `impl Backend for SpyBackend`. -/
def call : Handler BackendCall.Reply String SpyBackend
  | .removeCommittedVersion key commitTs, s => (.ok (), { s with
      inner := s.inner.removeCommittedVersion key commitTs
      removeCommittedVersionCalls := s.removeCommittedVersionCalls ++ [(key, commitTs)] })
  | .collapseTombstone key tombstoneTs olderTs, s => (.ok (), { s with
      inner := s.inner.collapseTombstone key tombstoneTs olderTs
      collapseTombstoneCalls := s.collapseTombstoneCalls ++ [(key, tombstoneTs, olderTs)] })
  | c, s => ((memCall c s.inner).1, { s with inner := (memCall c s.inner).2 })

theorem inner_call (c : BackendCall) (s : SpyBackend) :
    memCall c s.inner = ((call c s).1, (call c s).2.inner) := by
  cases c <;> rfl

theorem conforms : Conforms (fun c s x s' => call c s = (x, s')) (fun s => s.inner.Wf)
    (fun s => s.inner.store) := by
  have hinner : ∀ c s x s', call c s = (x, s') → memCall.faulty c s.inner x s'.inner := by
    intro c s x s' h
    refine .inl ?_
    rw [inner_call, h]
  have hmem := InMemoryBackend.conforms
  exact ⟨fun c s x s' hs h => hmem.keeps c _ x _ hs (hinner c s x s' h),
    fun c s a s' hs h => hmem.replies c _ a _ hs (hinner c s (.ok a) s' h),
    fun c s msg s' hs h => hmem.failed c _ msg _ hs (hinner c s (.error msg) s' h)⟩

theorem call_ok (c : BackendCall) (s s' : SpyBackend) (msg : String) : call c s ≠ (.error msg, s') := by
  intro h
  obtain ⟨a, ha⟩ := memCall_ok c s.inner
  rw [inner_call, h] at ha
  cases ha

end SpyBackend

/-- Three versions under a final tombstone, and a step that may remove two of them. -/
theorem adapters_refine_spy :
    let ops : List Op := [.applyDirectBatch 10 [⟨[1], some [5]⟩], .applyDirectBatch 12 [⟨[1], some [6]⟩],
      .applyDirectBatch 14 [⟨[1], some [7]⟩], .applyDirectBatch 20 [⟨[1], none⟩],
      .gcIncremental 25 none ⟨⟨10, 2⟩, true⟩]
    let s := final (Op.execOn SpyBackend.call) .new ops
    s.removeCommittedVersionCalls = [([1], 14), ([1], 12)] ∧ s.collapseTombstoneCalls = [] ∧
      s.inner.store = (stateAfter ops).store := by
  intro ops s
  have hrun := Op.path_execOn (fun c s x s' => SpyBackend.call c s = (x, s')) (fun _ _ => rfl) .new ops
  refine ⟨by decide +kernel, by decide +kernel, ?_⟩
  exact ((adapters_refine SpyBackend.conforms InMemoryBackend.wf_new InMemoryBackend.store_new hrun).2
    fun c s msg s' => SpyBackend.call_ok c s s' msg).2

end NexirMvcc
