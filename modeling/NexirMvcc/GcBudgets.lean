import NexirMvcc.GcFull

/- The accounts of a collection step. The source counts in `usize` and subtracts
   twice: the budget left is `max_versions - versions_removed`, and an extra
   version of the look-ahead is taken off `versions_scanned`. `gcIncrementalChecked`
   is the step in a build with overflow checks, where a subtraction below zero ends
   it. For budgets below the maximum it is the step of a release build: no
   subtraction ever goes below zero (`Build.Exact.gcIncremental_run`).

   `gc_step_accounts` states what the result of a step says about the states before
   and after it. -/
namespace NexirMvcc
open VersionHistory CallTree

section Follows
variable {ε α β : Type} {build : Build ε} {p : Engine ε α} {q : Engine GcError α}

/-- The build subtracts exactly, where that does not go below zero. -/
def Build.Exact (build : Build ε) : Prop := ∀ n m, m ≤ n → build.sub n m = pure (n - m)

/-- In the build `p` does what `q` does in a release build. -/
def Build.Follows (build : Build ε) (p : Engine ε α) (q : Engine GcError α) : Prop :=
  p = q.mapError build.error

namespace Build.Follows

theorem bind {f : α → Engine ε β} {g : α → Engine GcError β} (h : build.Follows p q)
    (hf : ∀ a, build.Follows (f a) (g a)) : build.Follows (p >>= f) (q >>= g) := by
  unfold Build.Follows at *
  rw [h, mapError_bind, funext hf]

theorem call {c : BackendCall} {f : c.Reply → Engine ε α} {g : c.Reply → Engine GcError α}
    (hf : ∀ a, build.Follows (f a) (g a)) :
    build.Follows (backend c build.failed >>= f) (backend c release.failed >>= g) :=
  bind (mapError_ask build.error c release.failed).symm hf

theorem sub {n m : Nat} {f : Nat → Engine ε α} {g : Nat → Engine GcError α} (hb : build.Exact)
    (h : m ≤ n) (hf : build.Follows (f (n - m)) (g (n - m))) :
    build.Follows (build.sub n m >>= f) (release.sub n m >>= g) := by
  rw [hb n m h, release_sub h]
  exact hf

/-- Where `q` returns, so does `p`. -/
theorem run {a : α} {b b' : InMemoryBackend} (h : build.Follows p q) (hq : q.run b = (.ok a, b')) :
    p.run b = (.ok a, b') := by
  have hmap := eval_mapError memCall build.error q b
  rw [show eval memCall q b = _ from hq, ← show p = _ from h] at hmap
  exact hmap

end Build.Follows

end Follows

/-! No subtraction goes below zero. -/

section Exact
variable {ε : Type} {build : Build ε} {sp : Timestamp} {options : GcOptions} {key : Key}
  {keeper : CommittedVersion} {hasIntent : Bool} {limit : Nat} {scan : GcScan} {b : InMemoryBackend}

theorem follows_isFinalTombstone : build.Follows (isFinalTombstone build options key keeper hasIntent)
    (isFinalTombstone release options key keeper hasIntent) := by
  unfold isFinalTombstone
  split
  · exact .call fun _ => rfl
  · rfl

theorem follows_removeVersions {l : List Timestamp} :
    build.Follows (removeVersions build key l scan) (removeVersions release key l scan) := by
  induction l generalizing scan with
  | nil => rfl
  | cons t l ih => exact .call fun _ => ih

theorem follows_gcKeyExhausted : build.Follows (gcKeyExhausted build options key keeper hasIntent scan)
    (gcKeyExhausted release options key keeper hasIntent scan) := by
  refine .call fun more => ?_
  split
  · rfl
  · refine .bind follows_isFinalTombstone fun final => ?_
    split <;> rfl

/-- What is taken off has been counted before. -/
theorem follows_gcKeyFinal (hb : build.Exact) :
    build.Follows (gcKeyFinal build key keeper limit scan) (gcKeyFinal release key keeper limit scan) := by
  refine .call fun older => ?_
  dsimp only
  split
  · exact .sub hb (by omega) (.bind follows_removeVersions fun _ => rfl)
  · split
    · exact .call fun _ => rfl
    · exact .bind follows_removeVersions fun _ => rfl

theorem follows_gcKeyNormal (hb : build.Exact) :
    build.Follows (gcKeyNormal build key keeper limit scan) (gcKeyNormal release key keeper limit scan) := by
  refine .call fun toRemove => ?_
  dsimp only
  split
  · exact .sub hb (by omega) (.bind follows_removeVersions fun _ => rfl)
  · exact follows_removeVersions

/-- Within the budget the limit is what is left of it. -/
theorem follows_gcKeyKeeper (hb : build.Exact)
    (hw : scan.versionsRemoved ≤ options.budget.maxVersions.val) :
    build.Follows (gcKeyKeeper build options key keeper hasIntent scan)
      (gcKeyKeeper release options key keeper hasIntent scan) := by
  refine .sub hb hw ?_
  split
  · exact follows_gcKeyExhausted
  · refine .bind follows_isFinalTombstone fun final => ?_
    split
    · exact follows_gcKeyFinal hb
    · exact follows_gcKeyNormal hb

theorem follows_gcKey (hb : build.Exact)
    (hw : scan.versionsRemoved ≤ options.budget.maxVersions.val) :
    build.Follows (gcKey build sp options key scan) (gcKey release sp options key scan) := by
  refine .call fun intent => .call fun keeper => ?_
  cases keeper with
  | none => rfl
  | some keeper => exact follows_gcKeyKeeper hb hw

/-- The loop stays within the budget from key to key. -/
theorem Build.Exact.gcKeys_run {ks : List Key} {scan' : GcScan} {b' : InMemoryBackend}
    (hb : build.Exact) (hw : Within options scan)
    (h : (gcKeys release sp options ks scan).run b = (.ok scan', b')) :
    (gcKeys build sp options ks scan).run b = (.ok scan', b') := by
  induction ks generalizing scan b with
  | nil =>
    cases h
    rfl
  | cons key ks ih =>
    have hspec : Spec sp options.collapseFinalTombstones b (gcKey release sp options key scan) _ :=
      gcKey_spec hw
    obtain ⟨scan₁, b₁, hkey, hstep, -⟩ := hspec.run steady_gcKey
    unfold gcKeys at h ⊢
    rw [run_bind, hkey] at h
    rw [run_bind, (follows_gcKey hb hw.budget).run hkey]
    dsimp only at h ⊢
    split at h
    · next hx =>
      rw [if_pos hx]
      cases h
      rfl
    · next hx =>
      rw [if_neg hx]
      have hx : scan₁.exhaustedVersions = false := by simpa using hx
      have hgrows : scan.versionsRemoved ≤ scan₁.versionsRemoved := hstep.grows
      have hw₁ : Within options scan₁ := ⟨hx, hstep.budget, by have := hw.fits; omega⟩
      exact ih hw₁ h

/-- The step of such a build is the step of a release build. -/
theorem Build.Exact.gcIncremental_run {cursor : Option IncrementalGcCursor}
    {res : IncrementalGcResult} {b' : InMemoryBackend} (hb : build.Exact) (hm : BelowMax options)
    (h : (release.gcIncremental sp cursor options).run b = (.ok res, b')) :
    (build.gcIncremental sp cursor options).run b = (.ok res, b') := by
  unfold Build.gcIncremental at h ⊢
  split at h
  · cases h
  · next hv =>
    rw [if_neg hv]
    have hsteady : Steady BackendCall.Collects (gcKeys release sp options
        ((b.keysFrom (cursor.bind (·.nextKey)) (lookAhead options.budget.maxKeys.val)).take
          options.budget.maxKeys.val) {}) := steady_gcKeys
    obtain ⟨scan, b₁, hrun, -⟩ := collects_run hsteady b
    change (gcKeys release sp options _ {} >>= _).run b = _ at h
    change (gcKeys build sp options _ {} >>= _).run b = _
    rw [run_bind, hrun] at h
    rw [run_bind, hb.gcKeys_run (within_start hm.maxVersions) hrun]
    cases h
    rfl

end Exact

end NexirMvcc
