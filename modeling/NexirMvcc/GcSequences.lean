import NexirMvcc.Batches

/- Collections step by step. A pass calls `gc_incremental` again and again with the
   cursor it returned, and writers may come in between. Behind the cursor there is
   no debt: a step leaves none there, and a write above the safe point makes none,
   on whichever side of the cursor it creates or removes keys. So when a step
   reports the end, no key has a version older than the one visible at the safe
   point. And since collections at lower safe points only do part of what a later
   one does, a full collection ends in the same state whatever partial passes went
   before it. -/
namespace NexirMvcc
open VersionHistory StepRun

/-- A step of a pass: an operation of some client, or the next call of
`gc_incremental`. -/
inductive PassOp where
  | write (op : Op)
  | collect (options : GcOptions)

/-- The state of a pass at `sp`: the backend and the cursor of the next call. -/
abbrev PassState := InMemoryBackend × Option IncrementalGcCursor

def PassOp.exec (sp : Timestamp) : PassOp → PassState → Result × PassState
  | .write op, (b, cursor) => ((op.exec b).1, (op.exec b).2, cursor)
  | .collect options, (b, cursor) =>
    match (gcIncremental sp cursor options).run b with
    | (.ok res, b') => (.gcIncremental (.ok res), b', some res.cursor)
    | (.error e, b') => (.gcIncremental (.error e), b', cursor)

/-- Operations between the calls write above the safe point, and the calls have
budgets that are not zero and below the maximum. -/
def PassOp.Allowed (sp : Timestamp) : PassOp → Prop
  | .write op => op.isGc = false ∧ ∀ c, op.effect.WritesAt c → sp < c
  | .collect options => options.budget.Valid ∧ BelowMax options

/-- The step of a pass commits the version `v` of `k` at `c`. -/
def PassWrote (x : Step PassState PassOp Result) (k : Key) (c : Timestamp) (v : Option Value) :
    Prop :=
  ∃ op, x.op = .write op ∧ WroteValue (stepOf Op.exec x.before.1 op) k c v

section Pass
variable {sp : Timestamp} {b : InMemoryBackend} {cursor : Option IncrementalGcCursor} {k : Key}

/-- What a call does to a pass. -/
theorem PassOp.collect_exec {options : GcOptions} (cursor : Option IncrementalGcCursor)
    (ho : (PassOp.collect options).Allowed sp) (b : InMemoryBackend) :
    ∃ res b', (PassOp.collect options).exec sp (b, cursor) =
        (.gcIncremental (.ok res), b', some res.cursor) ∧
      (∃ visited, IncrStep sp options (cursor.bind (·.nextKey)) visited b res b') ∧
      GcRel sp options.collapseFinalTombstones b b' := by
  obtain ⟨res, b', hrun, hstep, hrel, -⟩ := gcIncremental_run ho.1 ho.2 sp cursor b
  refine ⟨res, b', ?_, hstep, hrel⟩
  dsimp only [PassOp.exec]
  rw [hrun]

theorem PassOp.exec_buildable (o : PassOp) {s : PassState} (hs : Buildable s.1) :
    Buildable (o.exec sp s).2.1 := by
  obtain ⟨b, cursor⟩ := s
  cases o with
  | write op => exact op.exec_buildable hs
  | collect options =>
    have hb' := hs.run (gcIncremental sp cursor options)
    dsimp only [PassOp.exec]
    split
    · next hrun => rwa [hrun] at hb'
    · next hrun => rwa [hrun] at hb'

/-- Behind the cursor no key has a version older than the one visible at `sp`. -/
structure PassInv (sp : Timestamp) (s : PassState) : Prop where
  built : Buildable s.1
  behind : ∀ n, s.2.bind (·.nextKey) = some n → ∀ k < n, ¬ Debt sp (s.1.history k)

/-- After a call there is no debt below its new cursor, and none at all if it has
none. -/
theorem PassInv.collected {options : GcOptions} {visited : List Key} {res : IncrementalGcResult}
    {b' : InMemoryBackend} (h : PassInv sp (b, cursor))
    (hstep : IncrStep sp options (cursor.bind (·.nextKey)) visited b res b')
    (hk : ∀ n, res.cursor.nextKey = some n → k < n) : ¬ Debt sp (b'.history k) := by
  by_cases hmem : k ∈ b.keysAt (cursor.bind (·.nextKey))
  · exact (hstep.clean k hmem hk).1
  -- a key that was not scanned is as before: it has no version, or is behind the cursor
  · rw [hstep.off k fun hvis => hmem (hstep.visits.subset hvis)]
    by_cases hin : k ∈ b.allKeysSet
    · have hbehind : ∃ n, cursor.bind (·.nextKey) = some n ∧ k < n := by
        by_contra hno
        push Not at hno
        exact hmem (InMemoryBackend.mem_keysAt.mpr ⟨hin, hno⟩)
      obtain ⟨n, hn, hlt⟩ := hbehind
      exact h.behind n hn k hlt
    · have hclean : Clean sp false b k := h.built.wf.clean_of_not_mem hin
      exact hclean.1

theorem PassInv.step {o : PassOp} {s : PassState} (ho : o.Allowed sp) (h : PassInv sp s) :
    PassInv sp (o.exec sp s).2 := by
  have hbuilt : Buildable (o.exec sp s).2.1 := o.exec_buildable h.built
  obtain ⟨b, cursor⟩ := s
  refine ⟨hbuilt, fun n hn k hk => ?_⟩
  cases o with
  | write op =>
    have hbefore : ¬ Debt sp (b.history k) := h.behind n hn k hk
    show ¬ Debt sp ((op.exec b).2.history k)
    rcases exec_history ho.1 b k with hsame | ⟨c, v, hc, -, hup⟩
    · rwa [hsame]
    -- a version above the safe point is not visible at it
    · rwa [hup, debt_update_of_lt (ho.2 c hc)]
  | collect options =>
    obtain ⟨res, b', hexec, ⟨visited, hstep⟩, -⟩ := PassOp.collect_exec cursor ho b
    rw [hexec] at hn ⊢
    refine h.collected hstep fun n' hn' => ?_
    obtain rfl : n' = n := Option.some.inj (hn'.symm.trans hn)
    exact hk

/-- A version above the safe point stays. -/
theorem PassOp.keeps_version {o : PassOp} {s : PassState} {c : Timestamp} {v : Option Value}
    (ho : o.Allowed sp) (hc : sp < c) (h : s.1.history k c = some v) :
    (o.exec sp s).2.1.history k c = some v := by
  obtain ⟨b, cursor⟩ := s
  cases o with
  | write op => exact exec_keeps_versions ho.1 h
  | collect options =>
    obtain ⟨res, b', hexec, -, hrel⟩ := PassOp.collect_exec cursor ho b
    rw [hexec]
    exact (hrel.histories k).kept h hc

/-- Right after the step that commits it a version is there. -/
theorem PassWrote.history {s : PassState} {o : PassOp} {c : Timestamp} {v : Option Value}
    (h : PassWrote (stepOf (PassOp.exec sp) s o) k c v) :
    (o.exec sp s).2.1.history k c = some v := by
  obtain ⟨b, cursor⟩ := s
  obtain ⟨op, he, hw⟩ := h
  obtain rfl : o = .write op := he
  have hup : (op.exec b).2.history k = Function.update (b.history k) c (some v) := hw.history.2
  show (op.exec b).2.history k c = some v
  rw [hup, Function.update_self]

theorem PassWrote.above {x : Step PassState PassOp Result} {c : Timestamp} {v : Option Value}
    (h : PassWrote x k c v) (ho : x.op.Allowed sp) : sp < c := by
  obtain ⟨op, he, -, ⟨txnId, startTs, keys, i, hop, -⟩ | ⟨guards, ws, hop, -⟩⟩ := h
  · rw [he] at ho
    exact ho.2 c (by rw [show op.effect = _ from hop]; rfl)
  · rw [he] at ho
    exact ho.2 c (by rw [show op.effect = _ from hop]; rfl)

end Pass

/-- The call reported the end of the pass. -/
def Result.isDone : Result → Bool
  | .gcIncremental (.ok res) => res.done
  | _ => false

/-- A pass misses nothing, whatever is written above its safe point between the
calls: when a call reports the end, no key has a version older than the newest one
at or below the safe point, and every version committed during the pass is there. -/
theorem incremental_pass_complete {b : InMemoryBackend} (hb : Buildable b) {sp : Timestamp}
    {ops : List PassOp} {options : GcOptions} (hops : ∀ o ∈ ops, o.Allowed sp)
    (hlast : (PassOp.collect options).Allowed sp)
    (hdone : ((PassOp.collect options).exec sp
      (final (PassOp.exec sp) (b, none) ops)).1.isDone = true) :
    let b' := ((PassOp.collect options).exec sp (final (PassOp.exec sp) (b, none) ops)).2.1
    (∀ k, ¬ Debt sp (b'.history k)) ∧
    ∀ x ∈ trace (PassOp.exec sp) (b, none) ops, ∀ k c v, PassWrote x k c v →
      b'.history k c = some v := by
  intro b'
  constructor
  · intro k
    have hinv : PassInv sp (final (PassOp.exec sp) (b, none) ops) :=
      final_inv (P := PassInv sp) (fun s o (ho : o.Allowed sp) (h : PassInv sp s) => h.step ho) hops
        ⟨hb, fun n hn => nomatch hn⟩
    obtain ⟨res, b₂, hexec, ⟨visited, hstep⟩, -⟩ := PassOp.collect_exec
      (final (PassOp.exec sp) (b, none) ops).2 hlast (final (PassOp.exec sp) (b, none) ops).1
    have hb' : b' = b₂ := congrArg (fun r : Result × PassState => r.2.1) hexec
    rw [show (PassOp.collect options).exec sp _ = _ from hexec] at hdone
    rw [hb']
    refine hinv.collected hstep fun n hn => ?_
    -- at the end there is no cursor
    rw [hstep.done.mp hdone] at hn
    cases hn
  -- the version is there after its step, and no later step removes it
  · intro x hx k c v hw
    obtain ⟨pre, o, post, rfl, rfl⟩ := (mem_trace (PassOp.exec sp)).mp hx
    obtain ⟨-, hrest⟩ := List.forall_mem_append.mp hops
    obtain ⟨ho, hpost⟩ := List.forall_mem_cons.mp hrest
    have hc : sp < c := hw.above ho
    have hkept : (final (PassOp.exec sp) (b, none) (pre ++ o :: post)).1.history k c = some v := by
      rw [final_append, final]
      exact final_inv (P := fun s : PassState => s.1.history k c = some v)
        (fun s o (ho : o.Allowed sp) h => o.keeps_version ho hc h) hpost hw.history
    exact PassOp.keeps_version hlast hc hkept

/-- Between two calls the first key is created and the cursor key is written. -/
theorem incremental_pass_complete_writers :
    let b := stateAfter [.applyDirectBatch 1 [⟨[2], some [7]⟩, ⟨[3], some [7]⟩],
      .applyDirectBatch 2 [⟨[2], some [8]⟩, ⟨[3], none⟩]]
    let ops : List PassOp := [.collect ⟨⟨1, 5⟩, true⟩,
      .write (.applyDirectBatch 6 [⟨[1], some [9]⟩, ⟨[3], some [9]⟩])]
    let s := (PassOp.collect ⟨⟨5, 5⟩, true⟩).exec 5 (final (PassOp.exec 5) (b, none) ops)
    s.1.isDone = true ∧ (∀ k, ¬ Debt 5 (s.2.1.history k)) ∧
      s.2.1.history [3] 6 = some (some [9]) := by
  intro b ops s
  have hops : ∀ o ∈ ops, o.Allowed 5 := by
    refine List.forall_mem_cons.mpr ⟨⟨⟨by decide, by decide⟩, by decide, by decide⟩, ?_⟩
    refine List.forall_mem_singleton.mpr ⟨rfl, ?_⟩
    rintro c rfl
    decide
  have hdone : s.1.isDone = true := by decide +kernel
  have hok : ((Op.applyDirectBatch 6 [⟨[1], some [9]⟩, ⟨[3], some [9]⟩]).exec
      (final (PassOp.exec 5) (b, none) [.collect ⟨⟨1, 5⟩, true⟩]).1).1.isOk = true := by decide +kernel
  have hb : Buildable b := buildable_final .new _
  clear_value b
  obtain ⟨hdebt, hkept⟩ := incremental_pass_complete hb hops
    ⟨⟨by decide, by decide⟩, by decide, by decide⟩ hdone
  refine ⟨hdone, hdebt, hkept _ ((mem_trace _).mpr ⟨[.collect ⟨⟨1, 5⟩, true⟩], _, [], rfl, rfl⟩)
    [3] 6 (some [9]) ?_⟩
  exact ⟨_, rfl, hok, .inr ⟨[], _, rfl, by simp⟩⟩

/-! Partial passes before a full one. -/

/-- A collection at a safe point not above `sp`, by a call with any cursor. -/
def Op.CollectsUpTo (sp : Timestamp) (collapse : Bool) : Op → Prop
  | .gcIncremental sp' _ options =>
    sp' ≤ sp ∧ options.collapseFinalTombstones = collapse ∧ options.KeepsContract
  | .gc _ sp' options =>
    sp' ≤ sp ∧ options.collapseFinalTombstones = collapse ∧ options.KeepsContract
  | _ => False

section Absorb
variable {sp : Timestamp} {collapse : Bool} {b b₁ : InMemoryBackend}

theorem Op.CollectsUpTo.gcRel {op : Op} (h : op.CollectsUpTo sp collapse) (b : InMemoryBackend) :
    GcRel sp collapse b (op.exec b).2 := by
  cases op with
  | gcIncremental sp' cursor options =>
    obtain ⟨hle, rfl, hkeeps⟩ := h
    exact ((exec_collects rfl b).2 hkeeps).mono hle
  | gc fuel sp' options =>
    obtain ⟨hle, rfl, hkeeps⟩ := h
    exact ((exec_collects rfl b).2 hkeeps).mono hle
  | _ => cases h

theorem gcRel_final {ops : List Op} (h : ∀ op ∈ ops, op.CollectsUpTo sp collapse)
    (b : InMemoryBackend) : GcRel sp collapse b (final Op.exec b ops) :=
  final_inv (P := GcRel sp collapse b)
    (fun s op (hop : op.CollectsUpTo sp collapse) hrel => hrel.trans (hop.gcRel s)) h
    (GcRel.refl sp collapse b)

/-- A full collection of a state that is already collected in part ends in the full
collection of the state before. -/
theorem gc_run_after {options : GcOptions} (hv : options.budget.Valid) (hm : BelowMax options)
    (hb₁ : b₁.Wf) (hrel : GcRel sp options.collapseFinalTombstones b b₁) :
    ∃ stats b', (∀ fuel, gcFuel b₁ ≤ fuel → (gc fuel sp options).run b₁ = (.ok (some stats), b')) ∧
      b'.Wf ∧ GcRel sp options.collapseFinalTombstones b b' ∧
      FullyCollected sp options.collapseFinalTombstones b b' := by
  obtain ⟨stats, b', hrun, hwf, hrel', hclean, -⟩ := gc_run sp hv hm hb₁
  have hall := hrel.trans hrel'
  exact ⟨stats, b', hrun, hwf, hall, hall.fullyCollected hclean⟩

end Absorb

/-- A full collection absorbs every sequence of collections at lower safe points
before it, whatever their cursors and budgets: it ends in the state it ends in
without them. A second full collection changes nothing. -/
theorem gc_absorbs_earlier_collections {b : InMemoryBackend} (hb : Buildable b) (sp : Timestamp)
    (options options' : GcOptions) (hv : options.budget.Valid) (hm : BelowMax options)
    (hv' : options'.budget.Valid) (hm' : BelowMax options')
    (hflag : options'.collapseFinalTombstones = options.collapseFinalTombstones) {ops : List Op}
    (hops : ∀ op ∈ ops, op.CollectsUpTo sp options.collapseFinalTombstones) :
    ∃ b',
      (∃ stats, ∀ fuel, gcFuel b ≤ fuel → (gc fuel sp options).run b = (.ok (some stats), b')) ∧
      (∃ stats, ∀ fuel, gcFuel (final Op.exec b ops) ≤ fuel →
        (gc fuel sp options').run (final Op.exec b ops) = (.ok (some stats), b')) ∧
      ∃ stats, ∀ fuel, gcFuel b' ≤ fuel → (gc fuel sp options').run b' = (.ok (some stats), b') := by
  obtain ⟨stats, b', hrun, hwf, hrel, hfull⟩ :=
    gc_run_after hv hm hb.wf (GcRel.refl sp options.collapseFinalTombstones b)
  rw [← hflag] at hops hrel hfull
  -- from every state in between, the full collection ends in the same state
  have hsame : ∀ b₁, b₁.Wf → GcRel sp options'.collapseFinalTombstones b b₁ →
      ∃ stats, ∀ fuel, gcFuel b₁ ≤ fuel → (gc fuel sp options').run b₁ = (.ok (some stats), b') := by
    intro b₁ hb₁ hrel₁
    obtain ⟨stats₁, b₂, hrun₁, hwf₂, -, hfull₂⟩ := gc_run_after hv' hm' hb₁ hrel₁
    obtain rfl : b₂ = b' := hfull₂.unique hfull hwf₂ hwf
    exact ⟨stats₁, hrun₁⟩
  exact ⟨b', ⟨stats, hrun⟩, hsame _ (buildable_final hb ops).wf (gcRel_final hops b),
    hsame b' hwf hrel⟩

/-- A step with a cursor beyond the deleted key, one at a lower safe point that
removes a single version, and the full collection after them. -/
theorem gc_absorbs_earlier_collections_two_steps :
    let b := stateAfter [.applyDirectBatch 1 [⟨[1], some [7]⟩], .applyDirectBatch 2 [⟨[1], some [8]⟩],
      .applyDirectBatch 3 [⟨[1], none⟩, ⟨[2], some [7]⟩], .applyDirectBatch 4 [⟨[2], none⟩]]
    let ops : List Op := [.gcIncremental 4 (some ⟨some [2]⟩) ⟨⟨1, 2⟩, true⟩,
      .gcIncremental 2 none ⟨⟨1, 1⟩, true⟩]
    ∃ b', (∃ stats, (gc (gcFuel b) 5 ⟨⟨3, 3⟩, true⟩).run b = (.ok (some stats), b')) ∧
      ∃ stats, (gc (gcFuel (final Op.exec b ops)) 5 ⟨⟨1, 1⟩, true⟩).run (final Op.exec b ops) =
        (.ok (some stats), b') := by
  intro b ops
  have hops : ∀ op ∈ ops, op.CollectsUpTo 5 true :=
    List.forall_mem_cons.mpr ⟨⟨by decide, rfl, .inl (by decide)⟩,
      List.forall_mem_singleton.mpr ⟨by decide, rfl, .inl (by decide)⟩⟩
  have hb : Buildable b := buildable_final .new _
  clear_value b
  obtain ⟨b', ⟨stats, hrun⟩, ⟨stats', hrun'⟩, -⟩ :=
    gc_absorbs_earlier_collections hb 5 ⟨⟨3, 3⟩, true⟩ ⟨⟨1, 1⟩, true⟩
      ⟨by decide, by decide⟩ ⟨by decide, by decide⟩ ⟨by decide, by decide⟩ ⟨by decide, by decide⟩ rfl
      hops
  exact ⟨b', ⟨stats, hrun _ le_rfl⟩, stats', hrun' _ le_rfl⟩

end NexirMvcc
