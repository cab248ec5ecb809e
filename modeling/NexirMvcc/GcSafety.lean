import NexirMvcc.GcFull

/- What a collection step leaves visible. The contract holds at every call, so
   the statement is about every execution of the step, also one that a failing
   call interrupts anywhere in its loop.

   What is proved:
     1. `gcIncremental_keeps_visible` — reads at or above the safe point, the
        versions above it and all intents stay.
     2. `gcIncremental_keeps_contract` — on every backend that answers as the
        in-memory one, each call keeps to the contract at the moment it is made. -/
namespace NexirMvcc
open VersionHistory CallTree

section
variable {sp : Timestamp} {collapse : Bool} {b b' : InMemoryBackend}

/-- A pruned history shows the same version at or above the cutoff. -/
theorem visible_eq_of_pruned {k : Key} {r : Timestamp}
    (hp : Pruned {sp} (b.history k) (b'.history k)) (hr : sp ≤ r) :
    b'.getVisibleCommitted k r = b.getVisibleCommitted k r := by
  have hvis : ∀ t, Visible (b.history k) r t ↔ Visible (b'.history k) r t :=
    fun t => hp.visible_iff (by simpa using hr)
  have hval : ∀ t, Visible (b.history k) r t → b.history k t = b'.history k t :=
    fun t ht => (hp.eq_of_mem ((hvis t).mp ht).1.1).symm
  exact (getVisibleCommitted_congr hvis hval).symm

/-- At or above the safe point every read returns what it returned. -/
theorem GcRel.read_eq (h : GcRel sp collapse b b') {k : Key} {r : Timestamp} (hr : sp ≤ r) :
    ((read k r).run b').1 = ((read k r).run b).1 := by
  have hx : (read k r).run b = (.ok ((b.getVisibleCommitted k r).bind (·.value)), b) := read_run
  have hx' := read_ok.mpr (((h.histories k).reads_iff hr).mp (read_ok.mp hx))
  rw [hx, hx']

/-- Without collapsing, also the version read. -/
theorem GcRel.readWithVersion_eq (h : GcRel sp false b b') {k : Key} {r : Timestamp} (hr : sp ≤ r) :
    ((readWithVersion k r).run b').1 = ((readWithVersion k r).run b).1 := by
  rw [readWithVersion_run, readWithVersion_run, visible_eq_of_pruned (h.pruned k) hr]

end

/-- A collection step, wherever a failing call interrupts it, changes nothing that
is visible at or above the safe point, no version above it and no intent. -/
theorem gcIncremental_keeps_visible {sp : Timestamp} {cursor : Option IncrementalGcCursor}
    {options : GcOptions} {b b' : InMemoryBackend} (hm : BelowMax options)
    {es : List (CallEvent BackendCall.Reply String)} {r : Except GcError IncrementalGcResult}
    (he : Exec memCall.faulty (gcIncremental sp cursor options) b es r b') :
    (∀ k r, sp ≤ r → ((read k r).run b').1 = ((read k r).run b).1) ∧
    (options.collapseFinalTombstones = false →
      ∀ k r, sp ≤ r → ((readWithVersion k r).run b').1 = ((readWithVersion k r).run b).1) ∧
    (∀ k t v, sp < t → b.history k t = some v → b'.history k t = some v) ∧
    ∀ k, b'.getIntent k = b.getIntent k := by
  have hrel : GcRel sp options.collapseFinalTombstones b b' :=
    gcRel_of_meets (gcIncremental_spec hm rfl) he
  refine ⟨fun k r hr => hrel.read_eq hr, ?_, ?_, hrel.intents⟩
  · intro hc k r hr
    rw [hc] at hrel
    exact hrel.readWithVersion_eq hr
  · exact fun k t v ht hv => (hrel.histories k).kept hv ht

/-- Three versions and a step whose second removal fails. -/
theorem gcIncremental_keeps_visible_interrupted :
    ∃ es b', Exec memCall.faulty (gcIncremental 3 none ⟨⟨5, 5⟩, true⟩)
        (InMemoryBackend.new.putCommittedBatch [⟨[1], 1, some [7]⟩, ⟨[1], 2, none⟩, ⟨[1], 3, some [9]⟩])
        es (.error (.backend "io")) b' ∧ ((read [1] 3).run b').1 = .ok (some [9]) := by
  have he : ∃ es b', Exec memCall.faulty (gcIncremental 3 none ⟨⟨5, 5⟩, true⟩)
        (InMemoryBackend.new.putCommittedBatch [⟨[1], 1, some [7]⟩, ⟨[1], 2, none⟩, ⟨[1], 3, some [9]⟩])
        es (.error (.backend "io")) b' := by
    refine ⟨_, _, .call (.inl rfl) (.call (.inl rfl) (.call (.inl rfl) (.call (.inl rfl)
      (.call (.inl rfl) (.call (.inr ⟨⟨"io", rfl⟩, rfl⟩) .ret)))))⟩
  obtain ⟨es, b', he⟩ := he
  refine ⟨es, b', he, ?_⟩
  rw [(gcIncremental_keeps_visible ⟨by decide, by decide⟩ he).1 [1] 3 le_rfl]
  decide +kernel

/-! Every call of a step keeps to the contract. -/

/-- On every backend whose answers are those of the in-memory one, or failures, each
call of a step keeps to the contract in the state the calls before it have left. -/
theorem gcIncremental_keeps_contract {σ : Type} {D : Device BackendCall.Reply String σ}
    {view : σ → InMemoryBackend}
    (hD : ∀ c s x s', D c s x s' → memCall.faulty c (view s) x (view s')) {sp : Timestamp}
    {cursor : Option IncrementalGcCursor} {options : GcOptions} (hm : BelowMax options) {s s' : σ}
    {es : List (CallEvent BackendCall.Reply String)} {r : Except GcError IncrementalGcResult}
    (he : Exec D (gcIncremental sp cursor options) s es r s') :
    ∀ pre c x post, es = pre ++ ⟨c, x⟩ :: post →
      GcContract sp options.collapseFinalTombstones c (replay memCall (view s) pre) := by
  intro pre c x post hes
  have hmeets : Spec sp options.collapseFinalTombstones (view s) (gcIncremental sp cursor options) _ :=
    gcIncremental_spec hm rfl
  exact Meets.exec_contract memCall_error hmeets (he.view hD) hes

/-- A step that collapses a tombstone with the version below it in its sixth call. -/
theorem gcIncremental_keeps_contract_collapse :
    ∃ pre r b', pre.length = 5 ∧
      Exec memCall.faulty (gcIncremental 3 none ⟨⟨5, 5⟩, true⟩)
        (InMemoryBackend.new.putCommittedBatch [⟨[1], 1, some [7]⟩, ⟨[1], 2, none⟩])
        (pre ++ [⟨.collapseTombstone [1] 2 [1], .ok ()⟩]) r b' ∧
      GcContract 3 true (.collapseTombstone [1] 2 [1]) (replay memCall
        (InMemoryBackend.new.putCommittedBatch [⟨[1], 1, some [7]⟩, ⟨[1], 2, none⟩]) pre) := by
  have he : ∃ pre r b', pre.length = 5 ∧ Exec memCall.faulty (gcIncremental 3 none ⟨⟨5, 5⟩, true⟩)
      (InMemoryBackend.new.putCommittedBatch [⟨[1], 1, some [7]⟩, ⟨[1], 2, none⟩])
      (pre ++ [⟨.collapseTombstone [1] 2 [1], .ok ()⟩]) r b' := by
    refine ⟨[_, _, _, _, _], _, _, rfl, .call (.inl rfl) (.call (.inl rfl) (.call (.inl rfl)
      (.call (.inl rfl) (.call (.inl rfl) (.call (.inl rfl) .ret)))))⟩
  obtain ⟨pre, r, b', hlen, he⟩ := he
  refine ⟨pre, r, b', hlen, he, ?_⟩
  exact gcIncremental_keeps_contract (fun _ _ _ _ hd => hd) ⟨by decide, by decide⟩ he pre _ _ [] rfl

end NexirMvcc
