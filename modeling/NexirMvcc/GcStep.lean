import NexirMvcc.GcContract

/- One collection step, key by key. For each part of the step there is one
   specification (`Spec`): its calls keep to the contract from any state, with
   faults at any call, and if it returns, the state and the counters are as
   stated. A key is `Clean` when the step has nothing left to do there. -/
namespace NexirMvcc
open VersionHistory CallTree

section
variable {ε α β : Type} {wrap : String → ε}

/-- A condition on the value and the state a program returns with. -/
def OnOk (P : α → InMemoryBackend → Prop) : Except ε α → InMemoryBackend → Prop
  | .ok a, b => P a b
  | .error _, _ => True

/-- From `b`, the calls of `p` keep to the contract of a collection at `sp`, and
if `p` returns then `P` holds of what it returns. -/
def Spec (sp : Timestamp) (collapse : Bool) (b : InMemoryBackend) (p : Engine ε α)
    (P : α → InMemoryBackend → Prop) : Prop :=
  Meets memCall.faulty (GcContract sp collapse) (OnOk P) p b

variable {sp : Timestamp} {collapse : Bool} {b : InMemoryBackend}

theorem Spec.pure {a : α} {P : α → InMemoryBackend → Prop} (h : P a b) :
    Spec sp collapse b (pure a : Engine ε α) P := h

theorem Spec.mono {p : Engine ε α} {P P' : α → InMemoryBackend → Prop}
    (h : Spec sp collapse b p P) (hP : ∀ a b', P a b' → P' a b') : Spec sp collapse b p P' := by
  refine Meets.mono h ?_
  intro r b'
  cases r with
  | ok a => exact hP a b'
  | error e => exact id

theorem Spec.bind {p : Engine ε α} {f : α → Engine ε β} {P : α → InMemoryBackend → Prop}
    {P' : β → InMemoryBackend → Prop} (h : Spec sp collapse b p P)
    (hf : ∀ a b', P a b' → Spec sp collapse b' (f a) P') : Spec sp collapse b (p >>= f) P' := by
  refine Meets.bind (Meets.mono h ?_)
  intro r b'
  cases r with
  | ok a => exact hf a b'
  | error e => exact id

/-- A call and its continuation; a failed call ends the program. -/
theorem Spec.call {c : BackendCall} {f : c.Reply → Engine ε α} {P : α → InMemoryBackend → Prop}
    {a : c.Reply} {b' : InMemoryBackend} (hc : memCall c b = (.ok a, b'))
    (hA : GcContract sp collapse c b) (hf : Spec sp collapse b' (f a) P) :
    Spec sp collapse b (backend c wrap >>= f) P := by
  refine Meets.ask_bind hA ?_ ?_
  · rintro a' b'' (h | ⟨⟨_, h⟩, -⟩)
    · rw [hc] at h
      cases h
      exact hf
    · cases h
  · intro e b'' _
    trivial

end

/-! Removing versions. -/

/-- `b'` is `b` without the listed versions of `key`. -/
structure Removed (key : Key) (l : List Timestamp) (b b' : InMemoryBackend) : Prop where
  here : ∀ u, b'.history key u = if u ∈ l then none else b.history key u
  off : ∀ k, k ≠ key → b'.history k = b.history k
  intents : ∀ k, b'.getIntent k = b.getIntent k
  size : b'.committed.size + l.length = b.committed.size

namespace Removed
variable {key : Key} {l : List Timestamp} {b b' b'' : InMemoryBackend} {sp t : Timestamp}

protected theorem nil (key : Key) (b : InMemoryBackend) : Removed key [] b b :=
  ⟨fun _ => rfl, fun _ _ => rfl, fun _ => rfl, rfl⟩

theorem cons (h : Removed key [t] b b') (h' : Removed key l b' b'') : Removed key (t :: l) b b'' := by
  refine ⟨?_, fun k hk => (h'.off k hk).trans (h.off k hk),
    fun k => (h'.intents k).trans (h.intents k), ?_⟩
  · intro u
    rw [h'.here, h.here]
    by_cases hl : u ∈ l <;> by_cases ht : u = t <;> simp [hl, ht]
  · have := h.size
    have := h'.size
    simp only [List.length_cons, List.length_nil] at *
    omega

theorem mem_dom_iff (h : Removed key l b b') {u : Timestamp} :
    u ∈ dom (b'.history key) ↔ u ∈ dom (b.history key) ∧ u ∉ l := by
  rw [mem_dom, mem_dom, h.here]
  by_cases hu : u ∈ l <;> simp [hu]

/-- Versions older than the keeper are pruned. -/
theorem pruned (h : Removed key l b b') (hl : ∀ u ∈ l, u < t) (ht : t ≤ sp)
    (hd : t ∈ dom (b.history key)) : Pruned {sp} (b.history key) (b'.history key) := by
  constructor
  · intro u v hu
    rw [h.here] at hu
    split at hu
    · cases hu
    · exact hu
  · intro u v hu
    by_cases hm : u ∈ l
    · refine .inr ⟨t, h.mem_dom_iff.mpr ⟨hd, ?_⟩, hl u hm, sp, rfl, ht⟩
      exact fun hm' => lt_irrefl t (hl t hm')
    · exact .inl (by rw [h.here, if_neg hm, hu])

end Removed

theorem removed_removeCommittedVersion {b : InMemoryBackend} {key : Key} {t : Timestamp}
    (ht : t ∈ dom (b.history key)) : Removed key [t] b (b.removeCommittedVersion key t) := by
  refine ⟨?_, ?_, fun k => InMemoryBackend.getIntent_removeCommittedVersion,
    InMemoryBackend.size_removeCommittedVersion ht⟩
  · intro u
    rw [InMemoryBackend.history_removeCommittedVersion, if_pos rfl]
    by_cases hu : u = t <;> simp [hu]
  · intro k hk
    rw [InMemoryBackend.history_removeCommittedVersion, if_neg (Ne.symm hk)]

theorem removed_collapseTombstone {b : InMemoryBackend} {key : Key} {t : Timestamp}
    {older : List Timestamp} (hnd : (t :: older).Nodup)
    (h : ∀ u ∈ t :: older, u ∈ dom (b.history key)) :
    Removed key (t :: older) b (b.collapseTombstone key t older) := by
  refine ⟨?_, ?_, fun k => InMemoryBackend.getIntent_collapseTombstone,
    InMemoryBackend.size_collapseTombstone hnd h⟩
  · intro u
    rw [InMemoryBackend.history_collapseTombstone]
    simp
  · intro k hk
    exact InMemoryBackend.history_collapseTombstone_off hk

theorem removeVersions_spec {sp t : Timestamp} {collapse : Bool} {key : Key} {l : List Timestamp}
    {scan : GcScan} {b : InMemoryBackend} (hnd : l.Nodup) (ht : Visible (b.history key) sp t)
    (hl : ∀ u ∈ l, u ∈ dom (b.history key) ∧ u < t) :
    Spec sp collapse b (removeVersions release key l scan) fun scan' b' =>
      scan' = { scan with versionsRemoved := scan.versionsRemoved + l.length } ∧
      Removed key l b b' := by
  induction l generalizing scan b with
  | nil => exact ⟨rfl, Removed.nil key b⟩
  | cons u l ih =>
    obtain ⟨hu, hut⟩ := hl u List.mem_cons_self
    have hone : Removed key [u] b (b.removeCommittedVersion key u) :=
      removed_removeCommittedVersion hu
    refine Spec.call rfl ⟨hu, t, ht, hut⟩ ?_
    refine Spec.mono (ih (List.nodup_cons.mp hnd).2 ?_ ?_) ?_
    -- the keeper stays, and so do the versions still to be removed
    · have hp : Pruned {sp} _ _ := hone.pruned (by simpa using hut) ht.1.2 ht.1.1
      exact (hp.visible_iff (by simp)).mp ht
    · intro w hw
      obtain ⟨hwd, hwt⟩ := hl w (List.mem_cons_of_mem u hw)
      refine ⟨hone.mem_dom_iff.mpr ⟨hwd, ?_⟩, hwt⟩
      have : w ≠ u := fun he => (List.nodup_cons.mp hnd).1 (he ▸ hw)
      simpa using this
    · rintro scan' b' ⟨rfl, hrest⟩
      refine ⟨?_, hone.cons hrest⟩
      simp only [List.length_cons]
      congr 1
      omega

/-! Clean keys. -/

/-- The latest version of `key` is a tombstone that may be collapsed at `sp`. -/
def Collapsible (sp : Timestamp) (collapse : Bool) (b : InMemoryBackend) (key : Key) : Prop :=
  collapse = true ∧ b.getIntent key = none ∧ FinalTombstone sp (b.history key)

/-- No version of `key` is older than its keeper, and the keeper is not a final
tombstone that may be collapsed. -/
def Clean (sp : Timestamp) (collapse : Bool) (b : InMemoryBackend) (key : Key) : Prop :=
  ¬ Debt sp (b.history key) ∧ ¬ Collapsible sp collapse b key

theorem Clean.congr {sp : Timestamp} {collapse : Bool} {b b' : InMemoryBackend} {key : Key}
    (hh : b'.history key = b.history key) (hi : b'.getIntent key = b.getIntent key)
    (h : Clean sp collapse b key) : Clean sp collapse b' key := by
  unfold Clean Collapsible
  rw [hh, hi]
  exact h

/-- A key without a version at or below the safe point is clean. -/
theorem clean_of_invisible {sp : Timestamp} {collapse : Bool} {b : InMemoryBackend} {key : Key}
    (h : ∀ t ≤ sp, b.history key t = none) : Clean sp collapse b key := by
  constructor
  · rintro ⟨t, ht, -⟩
    exact not_mem_dom.mpr (h t ht.1.2) ht.1.1
  · rintro ⟨-, -, t, ht, hl, -⟩
    exact not_mem_dom.mpr (h t ht) hl.1

/-- A final tombstone is the keeper. -/
theorem finalTombstone_iff {sp t : Timestamp} {H : Timestamp → Option (Option Value)}
    (ht : Visible H sp t) : FinalTombstone sp H ↔ Latest H t ∧ H t = some none := by
  constructor
  · rintro ⟨u, hu, hl, hv⟩
    have he : u = t := (hl.visible hu).unique ht
    exact ⟨he ▸ hl, he ▸ hv⟩
  · rintro ⟨hl, hv⟩
    exact ⟨t, ht.1.2, hl, hv⟩

/-! One key. -/

section Key
variable {sp : Timestamp} {options : GcOptions} {key : Key} {scan scan' : GcScan}
  {b b' : InMemoryBackend} {keeper : CommittedVersion}

/-- What collecting `key` does: it changes no other key and no intent, and stays
within the budget. It goes on to the next key only with `key` clean, and stops
only with the budget used up. -/
structure KeyStep (sp : Timestamp) (options : GcOptions) (key : Key) (scan : GcScan)
    (b : InMemoryBackend) (scan' : GcScan) (b' : InMemoryBackend) : Prop where
  off : ∀ k, k ≠ key → b'.history k = b.history k
  intents : ∀ k, b'.getIntent k = b.getIntent k
  keysScanned : scan'.keysScanned = scan.keysScanned
  intentsPreserved : scan'.intentsPreserved = scan.intentsPreserved
  removed : scan'.versionsRemoved + b'.committed.size = scan.versionsRemoved + b.committed.size
  grows : scan.versionsRemoved ≤ scan'.versionsRemoved
  budget : scan'.versionsRemoved ≤ options.budget.maxVersions.val
  goesOn : scan'.exhaustedVersions = false → scan'.nextCursorKey = scan.nextCursorKey ∧
    Clean sp options.collapseFinalTombstones b' key
  stops : scan'.exhaustedVersions = true → scan'.nextCursorKey = some key ∧
    scan'.versionsRemoved = options.budget.maxVersions.val ∧ ∃ t, t ∈ dom (b'.history key)

/-- The budget left before the next key. Where it is all of `usize`, the
look-ahead of one more wraps around. -/
structure Within (options : GcOptions) (scan : GcScan) : Prop where
  running : scan.exhaustedVersions = false
  budget : scan.versionsRemoved ≤ options.budget.maxVersions.val
  fits : options.budget.maxVersions.val + 1 < 2 ^ 64 + scan.versionsRemoved

theorem Within.not_stopped {p : Prop} (h : Within options scan) (hx : scan.exhaustedVersions = true) :
    p := by
  rw [h.running] at hx
  cases hx

/-- Subtracting what is not more. -/
theorem release_sub {α : Type} {n m : Nat} {f : Nat → Engine GcError α} (h : m ≤ n) :
    release.sub n m >>= f = f (n - m) := by
  show f (wrappingSub n m) = _
  rw [wrappingSub, if_pos h]

/-- Below the maximum the look-ahead asks for one more. -/
theorem lookAhead_eq {n : Nat} (h : n + 1 < 2 ^ 64) : lookAhead n = n + 1 :=
  Nat.mod_eq_of_lt h

theorem Within.lookAhead (h : Within options scan) :
    lookAhead (options.budget.maxVersions.val - scan.versionsRemoved) =
      options.budget.maxVersions.val - scan.versionsRemoved + 1 := by
  have := h.fits
  have := h.budget
  exact lookAhead_eq (by omega)

theorem isFinalTombstone_spec {collapse : Bool}
    (hk : b.getVisibleCommitted key sp = some keeper) :
    Spec sp collapse b (isFinalTombstone release options key keeper (b.getIntent key).isSome)
      fun final b' => b' = b ∧
        (final = true ↔ Collapsible sp options.collapseFinalTombstones b key) := by
  obtain ⟨-, hvis, hval⟩ := InMemoryBackend.getVisibleCommitted_eq_some.mp hk
  unfold isFinalTombstone Collapsible
  rw [finalTombstone_iff hvis, hval]
  split
  · next h =>
    obtain ⟨h1, h2, h3⟩ := h
    refine Spec.call rfl rfl ?_
    refine ⟨rfl, ?_⟩
    simp only [h1, Option.isNone_iff_eq_none.mp h2, decide_eq_true_iff, true_and, and_true,
      InMemoryBackend.getLatestCommitTs_eq_some]
    simpa using fun _ => h3
  · next h =>
    refine ⟨rfl, ?_⟩
    simp only [Bool.false_eq_true, false_iff]
    rintro ⟨h1, h2, -, h3⟩
    apply h
    simp_all

/-- Removing all that is older than the keeper cleans a key without a final tombstone. -/
theorem Removed.clean {collapse : Bool} {t : Timestamp} (ht : Visible (b.history key) sp t)
    (h : Removed key (b.olderThan key t) b b')
    (hf : ¬ Collapsible sp collapse b key) : Clean sp collapse b' key := by
  have hp : Pruned {sp} (b.history key) (b'.history key) :=
    h.pruned (fun u hu => (InMemoryBackend.mem_olderThan.mp hu).2) ht.1.2 ht.1.1
  constructor
  · rintro ⟨t', ht', u, hu, hlt⟩
    obtain rfl : t' = t := ((hp.visible_iff (by simp)).mpr ht').unique ht
    obtain ⟨hud, hul⟩ := h.mem_dom_iff.mp hu
    exact hul (InMemoryBackend.mem_olderThan.mpr ⟨hud, hlt⟩)
  · unfold Collapsible
    rw [h.intents, ← hp.finalTombstone_iff]
    exact hf

/-- Removing a first part of the older versions that uses up the budget, and stopping. -/
theorem KeyStep.stop {t : Timestamp} {n : Nat} (ht : Visible (b.history key) sp t)
    (h : Removed key ((b.olderThan key t).take n) b b') (hn : n ≤ (b.olderThan key t).length)
    (hs : scan'.versionsRemoved = scan.versionsRemoved + n)
    (hf : scan'.versionsRemoved = options.budget.maxVersions.val)
    (hk : scan'.keysScanned = scan.keysScanned)
    (hi : scan'.intentsPreserved = scan.intentsPreserved) :
    KeyStep sp options key scan b (scan'.stopAt key) b' := by
  have hlen : ((b.olderThan key t).take n).length = n := by
    rw [List.length_take]; omega
  have hsize := h.size
  refine ⟨h.off, h.intents, hk, hi, ?_, ?_, hf.le, ?_, ?_⟩
  · show scan'.versionsRemoved + _ = _
    omega
  · show _ ≤ scan'.versionsRemoved
    omega
  · intro hr
    cases hr
  · intro _
    refine ⟨rfl, hf, t, h.mem_dom_iff.mpr ⟨ht.1.1, ?_⟩⟩
    exact fun hm => lt_irrefl t (InMemoryBackend.mem_olderThan.mp (List.mem_of_mem_take hm)).2

theorem gcKeyExhausted_spec (hw : Within options scan)
    (hk : b.getVisibleCommitted key sp = some keeper)
    (h0 : scan.versionsRemoved = options.budget.maxVersions.val) :
    Spec sp options.collapseFinalTombstones b
      (gcKeyExhausted release options key keeper (b.getIntent key).isSome scan)
      (KeyStep sp options key scan b) := by
  obtain ⟨-, hvis, -⟩ := InMemoryBackend.getVisibleCommitted_eq_some.mp hk
  have hstop : KeyStep sp options key scan b (scan.stopAt key) b :=
    KeyStep.stop (n := 0) hvis (Removed.nil key b) (Nat.zero_le _) rfl h0 rfl rfl
  unfold gcKeyExhausted
  refine Spec.call rfl rfl ?_
  rw [InMemoryBackend.getCommittedTimestampsBefore_eq]
  split
  · exact Spec.pure hstop
  · next hnil =>
    have hold : b.olderThan key keeper.commitTs = [] := by
      simpa using hnil
    refine Spec.bind (isFinalTombstone_spec hk) ?_
    rintro final b₁ ⟨rfl, hfinal⟩
    split
    · exact Spec.pure hstop
    · next hn =>
      refine Spec.pure ⟨fun _ _ => rfl, fun _ => rfl, rfl, rfl, rfl, le_rfl, hw.budget, ?_, ?_⟩
      · intro _
        refine ⟨rfl, Removed.clean hvis ?_ (fun hf => hn (hfinal.mpr hf))⟩
        rw [hold]
        exact Removed.nil key _
      · exact fun hx => hw.not_stopped hx

/-- The page the look-ahead finds: one more than the limit, or all there is. -/
theorem page_of_gt {l : List Timestamp} {n : Nat} (h : (l.take (n + 1)).length > n) :
    (l.take (n + 1)).dropLast = l.take n ∧ n < l.length := by
  rw [List.length_take] at h
  have hn : n < l.length := by omega
  refine ⟨?_, hn⟩
  rw [List.dropLast_eq_take, List.take_take, List.length_take]
  congr 1
  omega

theorem page_of_le {l : List Timestamp} {n : Nat} (h : ¬ (l.take (n + 1)).length > n) :
    l.take (n + 1) = l ∧ l.length ≤ n := by
  rw [List.length_take] at h
  have hn : l.length ≤ n := by omega
  exact ⟨List.take_of_length_le (by omega), hn⟩

/-- Removing a page of the versions older than the keeper. -/
theorem removeOlder_spec {t : Timestamp} {n : Nat} {collapse : Bool}
    (ht : Visible (b.history key) sp t) :
    Spec sp collapse b (removeVersions release key ((b.olderThan key t).take n) scan) fun scan' b' =>
      scan' = { scan with
        versionsRemoved := scan.versionsRemoved + ((b.olderThan key t).take n).length } ∧
      Removed key ((b.olderThan key t).take n) b b' := by
  have hsub := List.take_sublist n (b.olderThan key t)
  refine removeVersions_spec (hsub.nodup (InMemoryBackend.olderThan_nodup b key t)) ht ?_
  exact fun u hu => InMemoryBackend.mem_olderThan.mp (hsub.mem hu)

/-- Removing the older versions that the budget allows, and stopping with it used up. -/
theorem removeStop_spec {t : Timestamp} {n : Nat} {collapse : Bool} {scan₀ : GcScan}
    {l : List Timestamp} (ht : Visible (b.history key) sp t) (hl : l = (b.olderThan key t).take n)
    (hn : n ≤ (b.olderThan key t).length)
    (hb : scan.versionsRemoved + n = options.budget.maxVersions.val)
    (hr : scan.versionsRemoved = scan₀.versionsRemoved)
    (hk : scan.keysScanned = scan₀.keysScanned)
    (hi : scan.intentsPreserved = scan₀.intentsPreserved) :
    Spec sp collapse b (removeVersions release key l scan >>= fun s => pure (s.stopAt key))
      (KeyStep sp options key scan₀ b) := by
  subst hl
  have hlen : ((b.olderThan key t).take n).length = n := by
    rw [List.length_take]; omega
  refine Spec.bind (removeOlder_spec ht) ?_
  rintro scan' b' ⟨rfl, hrem⟩
  rw [hlen]
  exact Spec.pure (KeyStep.stop ht hrem hn (by rw [hr]) hb hk hi)

theorem gcKeyNormal_spec (hw : Within options scan)
    (hk : b.getVisibleCommitted key sp = some keeper)
    (hf : ¬ Collapsible sp options.collapseFinalTombstones b key) :
    Spec sp options.collapseFinalTombstones b
      (gcKeyNormal release key keeper (options.budget.maxVersions.val - scan.versionsRemoved) scan)
      (KeyStep sp options key scan b) := by
  obtain ⟨-, hvis, -⟩ := InMemoryBackend.getVisibleCommitted_eq_some.mp hk
  have hbudget := hw.budget
  unfold gcKeyNormal
  refine Spec.call rfl rfl ?_
  rw [InMemoryBackend.getCommittedTimestampsBefore_eq, hw.lookAhead]
  dsimp only
  split
  · next hmore =>
    obtain ⟨hpage, hlt⟩ := page_of_gt hmore
    rw [release_sub (by omega)]
    exact removeStop_spec hvis hpage hlt.le (by dsimp only; omega) rfl rfl rfl
  · next hall =>
    obtain ⟨-, hle⟩ := page_of_le hall
    refine Spec.mono (removeOlder_spec hvis) ?_
    rintro scan' b' ⟨rfl, hrem⟩
    rw [(page_of_le hall).1] at hrem ⊢
    have hsize := hrem.size
    refine ⟨hrem.off, hrem.intents, rfl, rfl, ?_, ?_, ?_, ?_, ?_⟩
    · dsimp only; omega
    · dsimp only; omega
    · dsimp only; omega
    · exact fun _ => ⟨rfl, hrem.clean hvis hf⟩
    · exact fun hx => hw.not_stopped hx

theorem gcKeyFinal_spec (hw : Within options scan)
    (hk : b.getVisibleCommitted key sp = some keeper)
    (hc : Collapsible sp options.collapseFinalTombstones b key) :
    Spec sp options.collapseFinalTombstones b
      (gcKeyFinal release key keeper (options.budget.maxVersions.val - scan.versionsRemoved) scan)
      (KeyStep sp options key scan b) := by
  obtain ⟨-, hvis, -⟩ := InMemoryBackend.getVisibleCommitted_eq_some.mp hk
  obtain ⟨hcol, hi, hf⟩ := hc
  obtain ⟨hlat, htomb⟩ := (finalTombstone_iff hvis).mp hf
  have hbudget := hw.budget
  unfold gcKeyFinal
  refine Spec.call rfl rfl ?_
  rw [InMemoryBackend.getCommittedTimestampsBefore_eq, hw.lookAhead]
  dsimp only
  split
  · next hmore =>
    obtain ⟨hpage, hlt⟩ := page_of_gt hmore
    rw [release_sub (by omega)]
    exact removeStop_spec hvis hpage hlt.le (by dsimp only; omega) rfl rfl rfl
  · next hall =>
    obtain ⟨hpage, hle⟩ := page_of_le hall
    rw [hpage]
    have hmem : ∀ u, u ∈ b.olderThan key keeper.commitTs ↔
        u ∈ dom (b.history key) ∧ u < keeper.commitTs := fun u => InMemoryBackend.mem_olderThan
    have hnd := InMemoryBackend.olderThan_nodup b key keeper.commitTs
    split
    -- the whole history fits: collapse it
    · next hlt =>
      refine Spec.call rfl ⟨hcol, hi, hvis.1.2, hlat, htomb, hnd, hmem⟩ ?_
      have hrem : Removed key (keeper.commitTs :: b.olderThan key keeper.commitTs) b
          (b.collapseTombstone key keeper.commitTs (b.olderThan key keeper.commitTs)) := by
        refine removed_collapseTombstone (List.nodup_cons.mpr ⟨?_, hnd⟩) ?_
        · exact fun hm => lt_irrefl _ ((hmem _).mp hm).2
        · intro u hu
          rcases List.mem_cons.mp hu with rfl | hu
          · exact hvis.1.1
          · exact ((hmem u).mp hu).1
      have hsize := hrem.size
      rw [List.length_cons] at hsize
      refine Spec.pure ⟨hrem.off, hrem.intents, rfl, rfl, ?_, ?_, ?_, ?_, ?_⟩
      · dsimp only; omega
      · dsimp only; omega
      · dsimp only; omega
      · refine fun _ => ⟨rfl, clean_of_invisible ?_⟩
        intro u _
        refine not_mem_dom.mp fun hu => ?_
        obtain ⟨hud, hul⟩ := hrem.mem_dom_iff.mp hu
        rcases (hlat.2 hud).eq_or_lt with he | hlt
        · exact hul (he ▸ List.mem_cons_self)
        · exact hul (List.mem_cons_of_mem _ ((hmem u).mpr ⟨hud, hlt⟩))
      · exact fun hx => hw.not_stopped hx
    -- only the older versions fit
    · next hge =>
      have hlen : (b.olderThan key keeper.commitTs).length =
          options.budget.maxVersions.val - scan.versionsRemoved := by omega
      exact removeStop_spec hvis List.take_length.symm le_rfl (by dsimp only; omega) rfl rfl rfl

theorem gcKeyKeeper_spec (hw : Within options scan)
    (hk : b.getVisibleCommitted key sp = some keeper) :
    Spec sp options.collapseFinalTombstones b
      (gcKeyKeeper release options key keeper (b.getIntent key).isSome scan)
      (KeyStep sp options key scan b) := by
  unfold gcKeyKeeper
  rw [release_sub hw.budget]
  split
  · next h0 =>
    have := hw.budget
    exact gcKeyExhausted_spec hw hk (by omega)
  · refine Spec.bind (isFinalTombstone_spec hk) ?_
    rintro final b₁ ⟨rfl, hfinal⟩
    split
    · next hfin => exact gcKeyFinal_spec hw hk (hfinal.mp hfin)
    · next hfin => exact gcKeyNormal_spec hw hk fun h => hfin (hfinal.mpr h)

theorem gcKey_spec (hw : Within options scan) :
    Spec sp options.collapseFinalTombstones b (gcKey release sp options key scan)
      (KeyStep sp options key (scan.visit (b.getIntent key).isSome) b) := by
  unfold gcKey
  refine Spec.call rfl rfl ?_
  refine Spec.call rfl rfl ?_
  cases hk : b.getVisibleCommitted key sp with
  | none =>
    refine Spec.pure ⟨fun _ _ => rfl, fun _ => rfl, rfl, rfl, rfl, le_rfl, hw.budget, ?_, ?_⟩
    · exact fun _ => ⟨rfl, clean_of_invisible (InMemoryBackend.getVisibleCommitted_eq_none.mp hk)⟩
    · exact fun hx => hw.not_stopped hx
  | some keeper =>
    refine Spec.mono (gcKeyKeeper_spec ⟨hw.running, hw.budget, hw.fits⟩ hk) ?_
    -- the counter of scanned versions is free
    exact fun scan' b' h => ⟨h.off, h.intents, h.keysScanned, h.intentsPreserved, h.removed, h.grows,
      h.budget, h.goesOn, h.stops⟩

end Key

end NexirMvcc
