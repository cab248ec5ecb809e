import NexirMvcc.GcStep
import NexirMvcc.Foundation.KeyOrder

/- The loop over the keys and one collection step. The step visits keys in
   ascending order from its cursor. Everything it passes is clean; where it stops
   for the version budget, the key it stopped at is the next cursor, and where it
   runs out of keys to scan, the first key not scanned is. Each step that is not
   the last removes a version or moves its cursor past a key, so the full
   collection ends. -/
namespace NexirMvcc
open VersionHistory CallTree

section Keys
variable {sp : Timestamp} {options : GcOptions} {scan scan' : GcScan} {b b' : InMemoryBackend}

/-- What the loop does, with the keys it has visited. -/
structure KeysStep (sp : Timestamp) (options : GcOptions) (visited rest : List Key) (scan : GcScan)
    (b : InMemoryBackend) (scan' : GcScan) (b' : InMemoryBackend) : Prop where
  off : ∀ k, k ∉ visited → b'.history k = b.history k
  intents : ∀ k, b'.getIntent k = b.getIntent k
  keysScanned : scan'.keysScanned = scan.keysScanned + visited.length
  intentsPreserved : scan'.intentsPreserved =
    scan.intentsPreserved + visited.countP (fun k => (b.getIntent k).isSome)
  removed : scan'.versionsRemoved + b'.committed.size = scan.versionsRemoved + b.committed.size
  budget : scan'.versionsRemoved ≤ options.budget.maxVersions.val
  goesOn : scan'.exhaustedVersions = false → rest = [] ∧ scan'.nextCursorKey = scan.nextCursorKey ∧
    ∀ k ∈ visited, Clean sp options.collapseFinalTombstones b' k
  stops : scan'.exhaustedVersions = true → ∃ pre key, visited = pre ++ [key] ∧
    scan'.nextCursorKey = some key ∧ scan'.versionsRemoved = options.budget.maxVersions.val ∧
    (∃ t, t ∈ dom (b'.history key)) ∧
    ∀ k ∈ pre, Clean sp options.collapseFinalTombstones b' k

theorem KeysStep.nil (hw : Within options scan) : KeysStep sp options [] [] scan b scan b := by
  refine ⟨fun _ _ => rfl, fun _ => rfl, rfl, rfl, rfl, hw.budget, ?_, fun hx => hw.not_stopped hx⟩
  exact fun _ => ⟨rfl, rfl, by simp⟩

/-- The loop stops at its first key. -/
theorem KeyStep.keysStep {key : Key} {rest : List Key}
    (h : KeyStep sp options key (scan.visit (b.getIntent key).isSome) b scan' b')
    (hx : scan'.exhaustedVersions = true) : KeysStep sp options [key] rest scan b scan' b' := by
  obtain ⟨hnext, hfull, hdom⟩ := h.stops hx
  refine ⟨?_, h.intents, h.keysScanned, ?_, h.removed, h.budget, ?_, ?_⟩
  · intro k hk
    exact h.off k (by simpa using hk)
  · rw [h.intentsPreserved]
    cases hi : (b.getIntent key).isSome <;> simp [GcScan.visit, hi]
  · intro hx'
    rw [hx] at hx'
    cases hx'
  · exact fun _ => ⟨[], key, rfl, hnext, hfull, hdom, by simp⟩

/-- The loop goes on after its first key. -/
theorem KeyStep.cons {key : Key} {visited rest : List Key} {scan₁ : GcScan} {b₁ : InMemoryBackend}
    (h : KeyStep sp options key (scan.visit (b.getIntent key).isSome) b scan₁ b₁)
    (hx : scan₁.exhaustedVersions = false) (hkey : key ∉ visited)
    (h' : KeysStep sp options visited rest scan₁ b₁ scan' b') :
    KeysStep sp options (key :: visited) rest scan b scan' b' := by
  obtain ⟨hnext, hclean⟩ := h.goesOn hx
  have hclean' : Clean sp options.collapseFinalTombstones b' key :=
    hclean.congr (h'.off key hkey) (h'.intents key)
  refine ⟨?_, fun k => (h'.intents k).trans (h.intents k), ?_, ?_, ?_, h'.budget, ?_, ?_⟩
  · intro k hk
    obtain ⟨hk1, hk2⟩ := not_or.mp (mt List.mem_cons.mpr hk)
    rw [h'.off k hk2, h.off k hk1]
  · have h1 : scan₁.keysScanned = scan.keysScanned + 1 := h.keysScanned
    rw [h'.keysScanned, h1, List.length_cons]
    omega
  -- the key is counted where it holds an intent, which no step of the loop changes
  · rw [h'.intentsPreserved, h.intentsPreserved, List.countP_cons]
    simp only [h.intents]
    cases hi : (b.getIntent key).isSome with
    | true =>
      simp only [GcScan.visit, if_true]
      omega
    | false => simp [GcScan.visit]
  · have h1 : scan₁.versionsRemoved + b₁.committed.size =
        scan.versionsRemoved + b.committed.size := h.removed
    rw [h'.removed, h1]
  · intro hx'
    obtain ⟨hrest, hnext', hall⟩ := h'.goesOn hx'
    exact ⟨hrest, hnext'.trans hnext, List.forall_mem_cons.mpr ⟨hclean', hall⟩⟩
  · intro hx'
    obtain ⟨pre, key', rfl, hnext', hfull, hdom, hall⟩ := h'.stops hx'
    exact ⟨key :: pre, key', rfl, hnext', hfull, hdom, List.forall_mem_cons.mpr ⟨hclean', hall⟩⟩

theorem gcKeys_spec {ks : List Key} (hnd : ks.Nodup) (hw : Within options scan) :
    Spec sp options.collapseFinalTombstones b (gcKeys release sp options ks scan) fun scan' b' =>
      ∃ visited rest, ks = visited ++ rest ∧ KeysStep sp options visited rest scan b scan' b' := by
  induction ks generalizing scan b with
  | nil => exact Spec.pure ⟨[], [], rfl, KeysStep.nil hw⟩
  | cons key ks ih =>
    obtain ⟨hkey, hnd⟩ := List.nodup_cons.mp hnd
    refine Spec.bind (gcKey_spec hw) ?_
    intro scan₁ b₁ h
    split
    · next hx => exact Spec.pure ⟨[key], ks, rfl, h.keysStep hx⟩
    · next hx =>
      have hx : scan₁.exhaustedVersions = false := by simpa using hx
      have hgrows : scan.versionsRemoved ≤ scan₁.versionsRemoved := h.grows
      have hw₁ : Within options scan₁ := ⟨hx, h.budget, by have := hw.fits; omega⟩
      refine Spec.mono (ih hnd hw₁) ?_
      rintro scan' b' ⟨visited, rest, rfl, h'⟩
      refine ⟨key :: visited, rest, rfl, h.cons hx ?_ h'⟩
      exact fun hm => hkey (List.mem_append_left rest hm)

end Keys

/-! One step. -/

namespace InMemoryBackend
variable {b : InMemoryBackend} {start : Option Key} {k : Key}

/-- The keys from `start` on. -/
def keysAt (b : InMemoryBackend) : Option Key → List Key
  | some s => b.allKeysSet.rangeFrom s
  | none => b.allKeysSet.toList

theorem keysFrom_eq {limit : Nat} : b.keysFrom start limit = (b.keysAt start).take limit := by
  cases start <;> rfl

theorem mem_keysAt : k ∈ b.keysAt start ↔ k ∈ b.allKeysSet ∧ ∀ s, start = some s → s ≤ k := by
  cases start with
  | none =>
    rw [keysAt, Std.ExtTreeSet.mem_toList]
    simp
  | some s => simp [keysAt, OrderedSet.mem_rangeFrom]

theorem keysAt_sorted (b : InMemoryBackend) (start : Option Key) :
    (b.keysAt start).Pairwise (· < ·) := by
  cases start with
  | none => exact OrderedSet.toList_sorted _
  | some s => exact OrderedSet.rangeFrom_sorted _ s

theorem keysAt_nodup (b : InMemoryBackend) (start : Option Key) : (b.keysAt start).Nodup :=
  (keysAt_sorted b start).imp fun h => h.ne

theorem take_keysAt_nodup (b : InMemoryBackend) (start : Option Key) (n : Nat) :
    ((b.keysAt start).take n).Nodup :=
  (List.take_sublist n _).nodup (keysAt_nodup b start)

end InMemoryBackend

section Step
variable {sp : Timestamp} {options : GcOptions} {start : Option Key} {visited : List Key}
  {b b' : InMemoryBackend} {res : IncrementalGcResult}

/-- What one step does: it visits keys from `start` on and leaves all others and
all intents alone; below its next cursor everything it visited is clean, and it
ends without a next cursor only at the end of the keys. -/
structure IncrStep (sp : Timestamp) (options : GcOptions) (start : Option Key) (visited : List Key)
    (b : InMemoryBackend) (res : IncrementalGcResult) (b' : InMemoryBackend) : Prop where
  visits : visited <+: b.keysAt start
  keysScanned : res.keysScanned = visited.length
  maxKeys : visited.length ≤ options.budget.maxKeys.val
  intentsPreserved : res.intentsPreserved = visited.countP (fun k => (b.getIntent k).isSome)
  off : ∀ k, k ∉ visited → b'.history k = b.history k
  intents : ∀ k, b'.getIntent k = b.getIntent k
  removed : res.versionsRemoved + b'.committed.size = b.committed.size
  budget : res.versionsRemoved ≤ options.budget.maxVersions.val
  done : res.done = true ↔ res.cursor.nextKey = none
  clean : ∀ k ∈ b.keysAt start, (∀ n, res.cursor.nextKey = some n → k < n) →
    Clean sp options.collapseFinalTombstones b' k
  next : ∀ n, res.cursor.nextKey = some n → n ∈ b.keysAt start ∧ visited ≠ [] ∧
    (∀ k ∈ visited, k ≤ n) ∧ (0 < res.versionsRemoved ∨ ∀ k ∈ visited, k < n)

/-- A budget whose look-ahead does not wrap. -/
structure BelowMax (options : GcOptions) : Prop where
  maxKeys : options.budget.maxKeys.val + 1 < 2 ^ 64
  maxVersions : options.budget.maxVersions.val + 1 < 2 ^ 64

/-- The loop starts within such a budget. -/
theorem within_start (h : options.budget.maxVersions.val + 1 < 2 ^ 64) : Within options {} :=
  ⟨rfl, Nat.zero_le _, h⟩

theorem getElem?_take_succ {l : List Key} {n : Nat} : (l.take (n + 1))[n]? = (l.drop n).head? := by
  rw [List.getElem?_take_of_lt (Nat.lt_succ_self n), List.head?_drop]

/-- The result of a step from the end of its loop. -/
theorem KeysStep.incrStep {rest : List Key} {scan : GcScan}
    (hk : 0 < options.budget.maxKeys.val) (hv : 0 < options.budget.maxVersions.val)
    (hvis : visited ++ rest = (b.keysAt start).take options.budget.maxKeys.val)
    (h : KeysStep sp options visited rest {} b scan b') :
    IncrStep sp options start visited b
      { cursor := ⟨if scan.exhaustedVersions then scan.nextCursorKey
          else ((b.keysAt start).take (options.budget.maxKeys.val + 1))[options.budget.maxKeys.val]?⟩
        done := !scan.exhaustedVersions &&
          ((b.keysAt start).take (options.budget.maxKeys.val + 1)).length ≤ options.budget.maxKeys.val
        keysScanned := scan.keysScanned
        versionsScanned := scan.versionsScanned
        versionsRemoved := scan.versionsRemoved
        intentsPreserved := scan.intentsPreserved } b' := by
  have hpre : visited <+: b.keysAt start :=
    (List.prefix_append visited rest).trans (hvis ▸ List.take_prefix _ _)
  have hmax : visited.length ≤ options.budget.maxKeys.val := by
    have := congrArg List.length hvis
    rw [List.length_append, List.length_take] at this
    omega
  have hpreserved : scan.intentsPreserved = visited.countP fun k => (b.getIntent k).isSome := by
    simpa using h.intentsPreserved
  have hremoved : scan.versionsRemoved + b'.committed.size = b.committed.size := by
    simpa using h.removed
  obtain ⟨tail, htail⟩ := id hpre
  have hsorted : (visited ++ tail).Pairwise (· < ·) := htail ▸ InMemoryBackend.keysAt_sorted b start
  cases hx : scan.exhaustedVersions with
  | true =>
    obtain ⟨pre, key, rfl, hnext, hfull, -, hclean⟩ := h.stops hx
    -- the keys before the one it stopped at are those below it
    rw [List.append_assoc] at htail hsorted
    have hfront : ∀ k, k ∈ pre ↔ k ∈ pre ++ key :: tail ∧ k < key :=
      fun k => KeyOrder.mem_front_iff hsorted
    refine ⟨hpre, by simpa using h.keysScanned, hmax, hpreserved, h.off, h.intents, hremoved,
      h.budget, ?_, ?_, ?_⟩
    · simp [hnext]
    · intro k hk hbelow
      have hbelow : k < key := hbelow key (by simpa using hnext)
      rw [← htail] at hk
      exact hclean k ((hfront k).mpr ⟨hk, hbelow⟩)
    · intro n hn
      obtain rfl : key = n := by simpa [hnext] using hn
      refine ⟨by rw [← htail]; simp, by simp, ?_, .inl (by rw [hfull]; exact hv)⟩
      intro k hk
      rcases List.mem_append.mp hk with hk | hk
      · exact ((hfront k).mp hk).2.le
      · exact (List.mem_singleton.mp hk).le
  | false =>
    obtain ⟨rfl, -, hclean⟩ := h.goesOn hx
    rw [List.append_nil] at hvis
    have htail' : tail = (b.keysAt start).drop options.budget.maxKeys.val := by
      have := List.take_append_drop options.budget.maxKeys.val (b.keysAt start)
      rw [← hvis] at this
      exact List.append_cancel_left (htail.trans this.symm)
    have hget : ((b.keysAt start).take (options.budget.maxKeys.val + 1))[options.budget.maxKeys.val]? =
        tail.head? := by rw [getElem?_take_succ, ← htail']
    refine ⟨hpre, by simpa using h.keysScanned, hmax, hpreserved, h.off, h.intents, hremoved,
      h.budget, ?_, ?_, ?_⟩
    · simp
    · intro k hk hbelow
      apply hclean
      rw [← htail] at hk
      cases tail with
      | nil => simpa using hk
      | cons n tail =>
        have hbelow : k < n := hbelow n (by simpa using hget)
        exact (KeyOrder.mem_front_iff hsorted).mpr ⟨hk, hbelow⟩
    · intro n hn
      obtain ⟨tail, rfl⟩ := List.head?_eq_some_iff.mp (hget.symm.trans hn)
      have hlt : ∀ k ∈ visited, k < n := fun k hk => ((KeyOrder.mem_front_iff hsorted).mp hk).2
      refine ⟨by rw [← htail]; simp, ?_, fun k hk => (hlt k hk).le, .inr hlt⟩
      rintro rfl
      rcases List.take_eq_nil_iff.mp hvis.symm with h0 | h0
      · omega
      · rw [h0] at htail'
        simp at htail'

theorem gcIncremental_spec {cursor : Option IncrementalGcCursor} (hb : BelowMax options)
    (hstart : start = cursor.bind (·.nextKey)) :
    Spec sp options.collapseFinalTombstones b (gcIncremental sp cursor options)
      fun res b' => ∃ visited, IncrStep sp options start visited b res b' := by
  unfold gcIncremental Build.gcIncremental
  split
  · trivial
  · next hne =>
    have hk : 0 < options.budget.maxKeys.val :=
      Nat.pos_of_ne_zero (Fin.val_ne_zero_iff.mpr fun h => hne (.inl h))
    have hv : 0 < options.budget.maxVersions.val :=
      Nat.pos_of_ne_zero (Fin.val_ne_zero_iff.mpr fun h => hne (.inr h))
    refine Spec.call rfl rfl ?_
    rw [InMemoryBackend.keysFrom_eq, lookAhead_eq hb.maxKeys, ← hstart, List.take_take,
      Nat.min_eq_left (Nat.le_succ _)]
    have hw : Within options {} := within_start hb.maxVersions
    refine Spec.bind (gcKeys_spec (InMemoryBackend.take_keysAt_nodup b _ _) hw) ?_
    rintro scan b' ⟨visited, rest, hvis, h⟩
    exact Spec.pure ⟨visited, h.incrStep hk hv hvis.symm⟩

end Step

/-! Budgets at the maximum. -/

theorem lookAhead_maxUsize : lookAhead maxUsize.val = 0 := by decide

theorem val_lt_of_ne_maxUsize {n : Usize} (h : n ≠ maxUsize) : n.val + 1 < 2 ^ 64 := by
  have := n.isLt
  have : n.val ≠ 2 ^ 64 - 1 := fun hv => h (Fin.ext hv)
  omega

section Contract
variable {sp : Timestamp} {options : GcOptions} {b : InMemoryBackend}

/-- Options under which a step keeps to the contract: `max_versions` is below the
maximum, or no tombstone may be collapsed. -/
def GcOptions.KeepsContract (options : GcOptions) : Prop :=
  options.budget.maxVersions ≠ maxUsize ∨ options.collapseFinalTombstones = false

theorem BelowMax.keepsContract (hm : BelowMax options) : options.KeepsContract := by
  refine .inl fun hmax => ?_
  have hlt := hm.maxVersions
  rw [hmax] at hlt
  exact absurd hlt (by decide)

/-- With all of `usize` left and nothing to collapse, a key is left as it is. -/
theorem gcKey_idle {key : Key} {scan : GcScan} (hmax : options.budget.maxVersions = maxUsize)
    (hc : options.collapseFinalTombstones = false) (h0 : scan.versionsRemoved = 0) :
    Spec sp options.collapseFinalTombstones b (gcKey release sp options key scan)
      fun scan' _ => scan'.versionsRemoved = 0 := by
  refine Spec.call rfl rfl (Spec.call rfl rfl ?_)
  cases hk : b.getVisibleCommitted key sp with
  | none => exact Spec.pure h0
  | some keeper =>
    dsimp only
    unfold gcKeyKeeper
    simp only [GcScan.visit, h0, hmax]
    rw [release_sub (Nat.zero_le _), Nat.sub_zero, if_neg (by decide)]
    refine Spec.bind (isFinalTombstone_spec hk) ?_
    rintro final b₁ ⟨rfl, hiff⟩
    rw [if_neg fun hf => by have := (hiff.mp hf).1; rw [hc] at this; cases this]
    unfold gcKeyNormal
    rw [lookAhead_maxUsize]
    refine Spec.call rfl rfl ?_
    rw [InMemoryBackend.getCommittedTimestampsBefore_eq, List.take_zero]
    exact Spec.pure rfl

theorem gcKeys_idle {ks : List Key} {scan : GcScan} (hmax : options.budget.maxVersions = maxUsize)
    (hc : options.collapseFinalTombstones = false) (h0 : scan.versionsRemoved = 0) :
    Spec sp options.collapseFinalTombstones b (gcKeys release sp options ks scan) fun _ _ => True := by
  induction ks generalizing scan b with
  | nil => exact Spec.pure trivial
  | cons key ks ih =>
    refine Spec.bind (gcKey_idle hmax hc h0) ?_
    intro scan' b' h0'
    split
    · exact Spec.pure trivial
    · exact ih h0'

theorem gcIncremental_contract {cursor : Option IncrementalGcCursor} (hk : options.KeepsContract) :
    Spec sp options.collapseFinalTombstones b (gcIncremental sp cursor options)
      fun _ _ => True := by
  unfold gcIncremental Build.gcIncremental
  split
  · trivial
  · refine Spec.call rfl rfl ?_
    have hkeys : Spec sp options.collapseFinalTombstones b (gcKeys release sp options
        ((b.keysFrom (cursor.bind (·.nextKey)) (lookAhead options.budget.maxKeys.val)).take
          options.budget.maxKeys.val) {}) fun _ _ => True := by
      by_cases hmax : options.budget.maxVersions = maxUsize
      · exact gcKeys_idle hmax (hk.resolve_left (not_not.mpr hmax)) rfl
      · rw [InMemoryBackend.keysFrom_eq, List.take_take]
        have hw : Within options {} := within_start (val_lt_of_ne_maxUsize hmax)
        exact Spec.mono (gcKeys_spec (InMemoryBackend.take_keysAt_nodup b _ _) hw)
          fun _ _ _ => trivial
    exact Spec.bind hkeys fun _ _ _ => Spec.pure trivial

end Contract

end NexirMvcc
