import Mathlib

/- Version histories. A history is a partial function from a linear order of
   timestamps to versions. A version is visible at `r` when it is the newest at
   or below `r`, and latest when it is the newest of all.

   `Pruned S H H'` says that `H'` is `H` less some versions, each of which a
   newer version of `H'` at or below a cutoff in `S` shadows. Pruning composes,
   keeps the latest version, and keeps what is visible at every timestamp above
   all cutoffs. Where a version may be a tombstone, `Collected` also allows a
   history whose latest version is a tombstone at or below the cutoff to vanish
   as a whole, which keeps every value read above the cutoff. -/
namespace VersionHistory
variable {τ β γ : Type}

/-- The timestamps that carry a version. -/
def dom (H : τ → Option β) : Set τ := {t | (H t).isSome}

theorem mem_dom {H : τ → Option β} {t : τ} : t ∈ dom H ↔ ∃ v, H t = some v :=
  Option.isSome_iff_exists

theorem not_mem_dom {H : τ → Option β} {t : τ} : t ∉ dom H ↔ H t = none := by
  simp [dom]

theorem dom_update_some [DecidableEq τ] {H : τ → Option β} {t : τ} {x : β} :
    dom (Function.update H t (some x)) = insert t (dom H) := by
  ext u
  by_cases hu : u = t <;> simp [dom, hu]

theorem dom_update_none [DecidableEq τ] {H : τ → Option β} {t : τ} :
    dom (Function.update H t none) = dom H \ {t} := by
  ext u
  by_cases hu : u = t <;> simp [dom, hu]

variable [LinearOrder τ]

/-- The newest version at or below `r`. -/
def Visible (H : τ → Option β) (r t : τ) : Prop := IsGreatest (dom H ∩ Set.Iic r) t

/-- The newest version. -/
def Latest (H : τ → Option β) (t : τ) : Prop := IsGreatest (dom H) t

/-- Above the latest version, the latest version is what is visible. -/
theorem Latest.visible {H : τ → Option β} {r t : τ} (h : Latest H t) (hr : t ≤ r) :
    Visible H r t :=
  ⟨⟨h.1, hr⟩, fun _ hu => h.2 hu.1⟩

theorem Visible.latest {H : τ → Option β} {r t : τ} (h : Visible H r t)
    (hr : ∀ u ∈ dom H, u ≤ r) : Latest H t :=
  ⟨h.1.1, fun u hu => h.2 ⟨hu, hr u hu⟩⟩

/-- Where a version is at or below `r`, one is visible. -/
theorem exists_visible [WellFoundedGT τ] {H : τ → Option β} {r t : τ} (ht : t ∈ dom H) (hr : t ≤ r) :
    ∃ u, Visible H r u := by
  obtain ⟨u, hu, hmax⟩ := wellFounded_gt.has_min (dom H ∩ Set.Iic r) ⟨t, ht, hr⟩
  exact ⟨u, hu, fun w hw => le_of_not_gt (hmax w hw)⟩

/-- Some version is older than the one visible at `r`. -/
def Debt (r : τ) (H : τ → Option β) : Prop := ∃ t, Visible H r t ∧ ∃ u ∈ dom H, u < t

/-- `H'` is `H` less versions that a newer version of `H'` at or below a cutoff
in `S` shadows. -/
structure Pruned (S : Set τ) (H H' : τ → Option β) : Prop where
  sub : ∀ t v, H' t = some v → H t = some v
  shadowed : ∀ t v, H t = some v →
    H' t = some v ∨ ∃ u ∈ dom H', t < u ∧ ∃ sp ∈ S, u ≤ sp

namespace Pruned
variable {S S' : Set τ} {H H' H'' : τ → Option β}

protected theorem refl (S : Set τ) (H : τ → Option β) : Pruned S H H :=
  ⟨fun _ _ h => h, fun _ _ h => .inl h⟩

/-- Cutoffs may be raised. -/
theorem mono (h : Pruned S H H') (hS : ∀ sp ∈ S, ∃ sp' ∈ S', sp ≤ sp') : Pruned S' H H' := by
  refine ⟨h.sub, ?_⟩
  intro t v ht
  rcases h.shadowed t v ht with hk | ⟨u, hu, htu, sp, hsp, hle⟩
  · exact .inl hk
  · obtain ⟨sp', hsp', hle'⟩ := hS sp hsp
    exact .inr ⟨u, hu, htu, sp', hsp', hle.trans hle'⟩

theorem dom_sub (h : Pruned S H H') : dom H' ⊆ dom H := by
  intro t ht
  obtain ⟨v, hv⟩ := mem_dom.mp ht
  exact mem_dom.mpr ⟨v, h.sub t v hv⟩

theorem shadowed_dom (h : Pruned S H H') {t : τ} (ht : t ∈ dom H) :
    t ∈ dom H' ∨ ∃ u ∈ dom H', t < u ∧ ∃ sp ∈ S, u ≤ sp := by
  obtain ⟨v, hv⟩ := mem_dom.mp ht
  exact (h.shadowed t v hv).imp (fun hk => mem_dom.mpr ⟨v, hk⟩) id

/-- A version kept carries the value it carried. -/
theorem eq_of_mem (h : Pruned S H H') {t : τ} (ht : t ∈ dom H') : H' t = H t := by
  obtain ⟨v, hv⟩ := mem_dom.mp ht
  rw [hv, h.sub t v hv]

theorem trans (h : Pruned S H H') (h' : Pruned S H' H'') : Pruned S H H'' := by
  refine ⟨fun t v ht => h.sub t v (h'.sub t v ht), ?_⟩
  intro t v ht
  rcases h.shadowed t v ht with hk | ⟨u, hu, htu, sp, hsp, hle⟩
  · exact h'.shadowed t v hk
  -- the shadow itself may be pruned, by a still newer shadow
  · rcases h'.shadowed_dom hu with hu' | ⟨w, hw, huw, hcut⟩
    · exact .inr ⟨u, hu', htu, sp, hsp, hle⟩
    · exact .inr ⟨w, hw, htu.trans huw, hcut⟩

/-- A version above every cutoff is kept. -/
theorem kept (h : Pruned S H H') {t : τ} {v : β} (ht : H t = some v) (hS : ∀ sp ∈ S, sp < t) :
    H' t = some v := by
  rcases h.shadowed t v ht with hk | ⟨u, -, htu, sp, hsp, hle⟩
  · exact hk
  · exact absurd (htu.trans_le hle) (hS sp hsp).not_gt

theorem visible_iff (h : Pruned S H H') {r t : τ} (hS : ∀ sp ∈ S, sp ≤ r) :
    Visible H r t ↔ Visible H' r t := by
  constructor
  · rintro ⟨⟨ht, hr⟩, hmax⟩
    have ht' : t ∈ dom H' := by
      rcases h.shadowed_dom ht with hk | ⟨u, hu, htu, sp, hsp, hle⟩
      · exact hk
      · exact absurd (hmax ⟨h.dom_sub hu, hle.trans (hS sp hsp)⟩) htu.not_ge
    exact ⟨⟨ht', hr⟩, fun u hu => hmax ⟨h.dom_sub hu.1, hu.2⟩⟩
  · rintro ⟨⟨ht, hr⟩, hmax⟩
    refine ⟨⟨h.dom_sub ht, hr⟩, ?_⟩
    rintro u ⟨hu, hur⟩
    rcases h.shadowed_dom hu with hk | ⟨w, hw, huw, sp, hsp, hle⟩
    · exact hmax ⟨hk, hur⟩
    · exact huw.le.trans (hmax ⟨hw, hle.trans (hS sp hsp)⟩)

/-- Bounds of the versions that are left are bounds of all. -/
theorem upperBounds_iff (h : Pruned S H H') {s : τ} :
    (∀ t ∈ dom H, t ≤ s) ↔ ∀ t ∈ dom H', t ≤ s := by
  refine ⟨fun hb t ht => hb t (h.dom_sub ht), ?_⟩
  intro hb t ht
  rcases h.shadowed_dom ht with hk | ⟨u, hu, htu, -⟩
  · exact hb t hk
  · exact htu.le.trans (hb u hu)

theorem latest_iff (h : Pruned S H H') {t : τ} : Latest H t ↔ Latest H' t := by
  constructor
  · rintro ⟨ht, hmax⟩
    have ht' : t ∈ dom H' := by
      rcases h.shadowed_dom ht with hk | ⟨u, hu, htu, -⟩
      · exact hk
      · exact absurd (hmax (h.dom_sub hu)) htu.not_ge
    exact ⟨ht', fun u hu => hmax (h.dom_sub hu)⟩
  · rintro ⟨ht, hmax⟩
    exact ⟨h.dom_sub ht, fun u hu => (h.upperBounds_iff.mpr fun _ hw => hmax hw) u hu⟩

/-- A version written to both stays a pruning. -/
theorem update (h : Pruned S H H') (c : τ) (x : β) :
    Pruned S (Function.update H c (some x)) (Function.update H' c (some x)) := by
  constructor
  · intro t v ht
    by_cases hc : t = c
    · subst hc; simpa using ht
    · rw [Function.update_of_ne hc] at ht ⊢
      exact h.sub t v ht
  · intro t v ht
    by_cases hc : t = c
    · subst hc
      rw [Function.update_self] at ht ⊢
      exact .inl ht
    · rw [Function.update_of_ne hc] at ht ⊢
      refine (h.shadowed t v ht).imp id ?_
      rintro ⟨u, hu, htu, hcut⟩
      refine ⟨u, ?_, htu, hcut⟩
      by_cases huc : u = c
      · simp [dom, huc]
      · simpa [dom, Function.update_of_ne huc] using hu

end Pruned

/-! Histories with tombstones: a version carries a value or none. -/

/-- `x` is the value read at `r`: that of the visible version, and none where no
version is visible. -/
def Reads (H : τ → Option (Option γ)) (r : τ) (x : Option γ) : Prop :=
  (∃ t, Visible H r t ∧ H t = some x) ∨ ((∀ t ≤ r, H t = none) ∧ x = none)

theorem Reads.unique {H : τ → Option (Option γ)} {r : τ} {x y : Option γ}
    (hx : Reads H r x) (hy : Reads H r y) : x = y := by
  rcases hx with ⟨t, ht, hvx⟩ | ⟨hn, rfl⟩ <;> rcases hy with ⟨u, hu, hvy⟩ | ⟨hn', rfl⟩
  · rw [ht.unique hu, hvy] at hvx
    simpa using hvx.symm
  · rw [hn' t ht.1.2] at hvx; cases hvx
  · rw [hn u hu.1.2] at hvy; cases hvy
  · rfl

theorem Pruned.reads_iff {S : Set τ} {H H' : τ → Option (Option γ)} (h : Pruned S H H') {r : τ}
    {x : Option γ} (hS : ∀ sp ∈ S, sp ≤ r) : Reads H r x ↔ Reads H' r x := by
  have hval : ∀ t, Visible H' r t → H' t = H t := fun t ht => h.eq_of_mem ht.1.1
  have hnone : (∀ t ≤ r, H t = none) ↔ ∀ t ≤ r, H' t = none := by
    constructor
    · intro hn t ht
      exact not_mem_dom.mp fun hd => not_mem_dom.mpr (hn t ht) (h.dom_sub hd)
    · intro hn t ht
      apply not_mem_dom.mp
      intro hd
      rcases h.shadowed_dom hd with hk | ⟨u, hu, -, sp, hsp, hle⟩
      · exact not_mem_dom.mpr (hn t ht) hk
      · exact not_mem_dom.mpr (hn u (hle.trans (hS sp hsp))) hu
  unfold Reads
  rw [hnone]
  apply or_congr_left
  constructor
  · rintro ⟨t, ht, hv⟩
    have ht' := (h.visible_iff hS).mp ht
    exact ⟨t, ht', by rw [hval t ht', hv]⟩
  · rintro ⟨t, ht, hv⟩
    exact ⟨t, (h.visible_iff hS).mpr ht, by rw [← hval t ht, hv]⟩

/-- A new latest version is what is read from its timestamp on. -/
theorem reads_update_of_le {H : τ → Option (Option γ)} {c r : τ} {v x : Option γ}
    (hlt : ∀ t ∈ dom H, t < c) (hr : c ≤ r) :
    Reads (Function.update H c (some v)) r x ↔ x = v := by
  have hv : Reads (Function.update H c (some v)) r v := by
    refine .inl ⟨c, ⟨⟨mem_dom.mpr ⟨v, Function.update_self _ _ _⟩, hr⟩, ?_⟩, Function.update_self _ _ _⟩
    rintro u ⟨hu, -⟩
    rw [dom_update_some] at hu
    rcases hu with rfl | hu
    · exact le_rfl
    · exact (hlt u hu).le
  constructor
  · exact fun h => h.unique hv
  · rintro rfl
    exact hv

/-- What is visible at `r` depends on the history up to `r` only. -/
theorem visible_congr {H H' : τ → Option β} {r t : τ} (h : ∀ u ≤ r, H u = H' u) :
    Visible H r t ↔ Visible H' r t := by
  have hset : dom H ∩ Set.Iic r = dom H' ∩ Set.Iic r := by
    ext u
    refine and_congr_left fun hu => ?_
    rw [mem_dom, mem_dom, h u hu]
  unfold Visible
  rw [hset]

/-- A new version is not seen below its timestamp. -/
theorem visible_update_of_lt {H : τ → Option β} {c r t : τ} {v : Option β} (hr : r < c) :
    Visible (Function.update H c v) r t ↔ Visible H r t :=
  visible_congr fun _ hu => Function.update_of_ne (hu.trans_lt hr).ne _ _

/-- So it leaves no debt below it. -/
theorem debt_update_of_lt {H : τ → Option β} {c r : τ} {v : Option β} (hr : r < c) :
    Debt r (Function.update H c v) ↔ Debt r H := by
  unfold Debt
  refine exists_congr fun t => ?_
  rw [visible_update_of_lt hr]
  refine and_congr_right fun ht => exists_congr fun u => and_congr_left fun hu => ?_
  rw [mem_dom, mem_dom, Function.update_of_ne ((hu.trans_le ht.1.2).trans hr).ne]

/-- Nor is anything else read there. -/
theorem reads_update_of_lt {H : τ → Option (Option γ)} {c r : τ} {v x : Option γ} (hr : r < c) :
    Reads (Function.update H c (some v)) r x ↔ Reads H r x := by
  have hne : ∀ t ≤ r, Function.update H c (some v) t = H t := fun t ht =>
    Function.update_of_ne (ht.trans_lt hr).ne _ _
  unfold Reads
  refine or_congr (exists_congr fun t => ?_) (and_congr_left fun _ => ?_)
  · rw [visible_update_of_lt hr]
    refine and_congr_right fun ht => ?_
    rw [hne t ht.1.2]
  · exact forall₂_congr fun t ht => by rw [hne t ht]

/-! A history without its latest version. -/

theorem dom_dropLatest {H : τ → Option β} {t : τ} (ht : Latest H t) :
    dom (Function.update H t none) = dom H ∩ Set.Iio t := by
  rw [dom_update_none]
  ext u
  constructor
  · rintro ⟨hd, hne⟩
    exact ⟨hd, lt_of_le_of_ne (ht.2 hd) hne⟩
  · rintro ⟨hd, hlt⟩
    exact ⟨hd, hlt.ne⟩

theorem visible_dropLatest {H : τ → Option β} {t r u : τ} (ht : Latest H t) (hr : t ≤ r) :
    Visible (Function.update H t none) r u ↔ IsGreatest (dom H ∩ Set.Iio t) u := by
  have hset : dom (Function.update H t none) ∩ Set.Iic r = dom H ∩ Set.Iio t := by
    rw [dom_dropLatest ht]
    exact Set.inter_eq_left.mpr fun w hw => hw.2.le.trans hr
  unfold Visible
  rw [hset]

/-- What is left is read as deleted exactly where the next version is a tombstone. -/
theorem reads_dropLatest [WellFoundedGT τ] {H : τ → Option (Option γ)} {t r : τ} (ht : Latest H t)
    (hr : t ≤ r) : Reads (Function.update H t none) r none ↔
      ∀ u, IsGreatest (dom H ∩ Set.Iio t) u → H u = some none := by
  constructor
  · intro h u hu
    have hvis := (visible_dropLatest ht hr).mpr hu
    have hval : Function.update H t none u = H u := Function.update_of_ne hu.1.2.ne _ _
    obtain ⟨x, hx⟩ := mem_dom.mp hu.1.1
    have hreads : Reads (Function.update H t none) r x := .inl ⟨u, hvis, hval.trans hx⟩
    rw [hx, hreads.unique h]
  · intro h
    by_cases hn : ∀ u ≤ r, Function.update H t none u = none
    · exact .inr ⟨hn, rfl⟩
    · push Not at hn
      obtain ⟨w, hwr, hw⟩ := hn
      obtain ⟨u, hu⟩ := exists_visible (Option.isSome_iff_ne_none.mpr hw) hwr
      have hgr := (visible_dropLatest ht hr).mp hu
      exact .inl ⟨u, hu, (Function.update_of_ne hgr.1.2.ne _ _).trans (h u hgr)⟩

theorem debt_dropLatest [WellFoundedGT τ] {H : τ → Option β} {t r : τ} (ht : Latest H t)
    (hr : t ≤ r) : Debt r (Function.update H t none) ↔ ¬ (dom H ∩ Set.Iio t).Subsingleton := by
  unfold Debt
  simp only [visible_dropLatest ht hr, dom_dropLatest ht]
  constructor
  · rintro ⟨u, hu, w, hw, hlt⟩ hs
    exact hlt.ne (hs hw hu.1)
  · intro hs
    obtain ⟨w, hw, w', hw', hne⟩ := Set.not_subsingleton_iff.mp hs
    have hd : w ∈ dom (Function.update H t none) := by rw [dom_dropLatest ht]; exact hw
    obtain ⟨u, hu⟩ := exists_visible hd (hw.2.le.trans hr)
    rw [visible_dropLatest ht hr] at hu
    by_cases he : w = u
    · exact ⟨u, hu, w', hw', lt_of_le_of_ne (hu.2 hw') (he ▸ hne.symm)⟩
    · exact ⟨u, hu, w, hw, lt_of_le_of_ne (hu.2 hw) he⟩

/-- The latest version is a tombstone at or below `sp`. -/
def FinalTombstone (sp : τ) (H : τ → Option (Option γ)) : Prop :=
  ∃ t ≤ sp, Latest H t ∧ H t = some none

theorem Pruned.finalTombstone_iff {S : Set τ} {H H' : τ → Option (Option γ)} (h : Pruned S H H')
    {sp : τ} : FinalTombstone sp H ↔ FinalTombstone sp H' := by
  constructor
  · rintro ⟨t, ht, hl, hv⟩
    have hl' := h.latest_iff.mp hl
    exact ⟨t, ht, hl', by rw [h.eq_of_mem hl'.1, hv]⟩
  · rintro ⟨t, ht, hl, hv⟩
    exact ⟨t, ht, h.latest_iff.mpr hl, h.sub t _ hv⟩

/-- What a collection at `sp` may make of a history: prune it, or drop it as a
whole if that is allowed and it ends in a tombstone. -/
def Collected (sp : τ) (allow : Prop) (H H' : τ → Option (Option γ)) : Prop :=
  Pruned {sp} H H' ∨ (allow ∧ FinalTombstone sp H ∧ ∀ t, H' t = none)

namespace Collected
variable {sp : τ} {allow : Prop} {H H' H'' : τ → Option (Option γ)}

protected theorem refl (sp : τ) (allow : Prop) (H : τ → Option (Option γ)) :
    Collected sp allow H H := .inl (Pruned.refl _ _)

theorem pruned (h : Collected sp allow H H') (hn : ¬ allow) : Pruned {sp} H H' :=
  h.resolve_right fun hc => hn hc.1

theorem mono {sp' : τ} (h : Collected sp allow H H') (hle : sp ≤ sp') :
    Collected sp' allow H H' := by
  rcases h with hp | ⟨ha, ⟨t, ht, hl, hv⟩, hn⟩
  · refine .inl (hp.mono fun s hs => ⟨sp', rfl, ?_⟩)
    rw [Set.mem_singleton_iff.mp hs]
    exact hle
  · exact .inr ⟨ha, ⟨t, ht.trans hle, hl, hv⟩, hn⟩

theorem sub (h : Collected sp allow H H') {t : τ} {v : Option γ} (ht : H' t = some v) :
    H t = some v := by
  rcases h with hp | ⟨-, -, hn⟩
  · exact hp.sub t v ht
  · rw [hn t] at ht; cases ht

theorem trans (h : Collected sp allow H H') (h' : Collected sp allow H' H'') :
    Collected sp allow H H'' := by
  rcases h with hp | ⟨ha, hf, hn⟩
  · rcases h' with hp' | ⟨ha, ⟨t, ht, hl, hv⟩, hn⟩
    · exact .inl (hp.trans hp')
    · exact .inr ⟨ha, ⟨t, ht, hp.latest_iff.mpr hl, hp.sub t _ hv⟩, hn⟩
  · refine .inr ⟨ha, hf, ?_⟩
    intro t
    cases hv : H'' t with
    | none => rfl
    | some v =>
      have := h'.sub hv
      rw [hn t] at this; cases this

theorem reads_iff (h : Collected sp allow H H') {r : τ} {x : Option γ} (hr : sp ≤ r) :
    Reads H r x ↔ Reads H' r x := by
  rcases h with hp | ⟨-, ⟨t, ht, hl, hv⟩, hn⟩
  · exact hp.reads_iff (by simpa using hr)
  -- before, the tombstone is what is read; after, nothing is
  · have hbefore : Reads H r none := .inl ⟨t, hl.visible (ht.trans hr), hv⟩
    have hafter : Reads H' r none := .inr ⟨fun u _ => hn u, rfl⟩
    constructor
    · intro hx; rw [hx.unique hbefore]; exact hafter
    · intro hx; rw [hx.unique hafter]; exact hbefore

/-- A version above the cutoff is kept. -/
theorem kept (h : Collected sp allow H H') {t : τ} {v : Option γ} (ht : H t = some v)
    (hsp : sp < t) : H' t = some v := by
  rcases h with hp | ⟨-, ⟨u, hu, hl, -⟩, -⟩
  · exact hp.kept ht (by simpa using hsp)
  · exact absurd (hl.2 (mem_dom.mpr ⟨v, ht⟩)) (hu.trans_lt hsp).not_ge

/-- So above the cutoff the history is what it was. -/
theorem eq_above (h : Collected sp allow H H') {t : τ} (hsp : sp < t) : H' t = H t := by
  cases hv : H t with
  | some v => exact h.kept hv hsp
  | none =>
    cases hv' : H' t with
    | none => rfl
    | some v =>
      rw [h.sub hv'] at hv
      cases hv

/-- A collection that leaves no version older than the visible one, and no final
tombstone where it may drop one, has left exactly the versions above the cutoff
and the visible one. -/
theorem exact [WellFoundedGT τ] (h : Collected sp allow H H')
    (hold : ¬ Debt sp H') (hfin : ¬ (allow ∧ FinalTombstone sp H'))
    {t : τ} {v : Option γ} :
    H' t = some v ↔
      H t = some v ∧ (sp < t ∨ Visible H sp t) ∧ ¬ (allow ∧ FinalTombstone sp H) := by
  rcases h with hp | ⟨ha, hf, hn⟩
  · have hvis : ∀ u, Visible H sp u ↔ Visible H' sp u := fun u => hp.visible_iff (by simp)
    rw [hp.finalTombstone_iff]
    constructor
    · intro ht
      refine ⟨hp.sub t v ht, ?_, hfin⟩
      rcases lt_or_ge sp t with hlt | hle
      · exact .inl hlt
      · have hd : t ∈ dom H' := mem_dom.mpr ⟨v, ht⟩
        obtain ⟨u, hu⟩ := exists_visible hd hle
        have he : u = t := by
          refine le_antisymm (le_of_not_gt fun hlt => hold ⟨u, hu, t, hd, hlt⟩) (hu.2 ⟨hd, hle⟩)
        exact .inr ((hvis t).mpr (he ▸ hu))
    · rintro ⟨ht, hlt | hv, -⟩
      · exact hp.kept ht (by simpa using hlt)
      · rw [hp.eq_of_mem ((hvis t).mp hv).1.1, ht]
  · rw [hn t]
    simp [ha, hf]

end Collected

/-! Histories that grow at the top. -/

/-- `H'` is `H` with versions added above all that `H` had. -/
structure Extended (H H' : τ → Option β) : Prop where
  kept : ∀ t v, H t = some v → H' t = some v
  above : ∀ t ∈ dom H', t ∉ dom H → ∀ u ∈ dom H, u < t

namespace Extended
variable {H H' H'' : τ → Option β}

protected theorem refl (H : τ → Option β) : Extended H H :=
  ⟨fun _ _ h => h, fun _ ht hn => absurd ht hn⟩

theorem dom_sub (h : Extended H H') : dom H ⊆ dom H' := by
  intro t ht
  obtain ⟨v, hv⟩ := mem_dom.mp ht
  exact mem_dom.mpr ⟨v, h.kept t v hv⟩

theorem trans (h : Extended H H') (h' : Extended H' H'') : Extended H H'' := by
  refine ⟨fun t v hv => h'.kept t v (h.kept t v hv), fun t ht hn u hu => ?_⟩
  by_cases ht' : t ∈ dom H'
  · exact h.above t ht' hn u hu
  · exact h'.above t ht ht' u (h.dom_sub hu)

/-- A new latest version extends. -/
theorem update {c : τ} {x : β} (hlt : ∀ t ∈ dom H, t < c) :
    Extended H (Function.update H c (some x)) := by
  constructor
  · intro t v hv
    rw [Function.update_of_ne (hlt t (mem_dom.mpr ⟨v, hv⟩)).ne, hv]
  · intro t ht hn u hu
    rw [dom_update_some] at ht
    rcases ht with rfl | ht
    · exact hlt u hu
    · exact absurd ht hn

/-- Nothing was added at or below a version. -/
theorem mem_of_le (h : Extended H H') {t u : τ} (ht : t ∈ dom H) (hu : u ∈ dom H') (hle : u ≤ t) :
    u ∈ dom H := by
  by_contra hn
  exact absurd (h.above u hu hn t ht) (not_lt_of_ge hle)

end Extended

/-- Dropping a tombstone with everything below it changes no read from it on. -/
theorem reads_dropUpTo {H H' : τ → Option (Option γ)} {t r : τ} {x : Option γ}
    (htomb : H t = some none) (hdrop : ∀ u ≤ t, H' u = none) (hkeep : ∀ u, t < u → H' u = H u)
    (hr : t ≤ r) : Reads H r x ↔ Reads H' r x := by
  have habove : ∀ u ∈ dom H', t < u := fun u hu =>
    not_le.mp fun hle => not_mem_dom.mpr (hdrop u hle) hu
  have hmem : ∀ u, t < u → (u ∈ dom H' ↔ u ∈ dom H) := fun u hu => by
    rw [mem_dom, mem_dom, hkeep u hu]
  have ht : t ∈ dom H := mem_dom.mpr ⟨none, htomb⟩
  constructor
  · rintro (⟨u, hu, hx⟩ | ⟨hn, rfl⟩)
    · rcases (hu.2 ⟨ht, hr⟩).eq_or_lt with rfl | hlt
      -- the tombstone is what is read, and nothing newer is visible
      · refine .inr ⟨fun w hw => not_mem_dom.mp fun hd => ?_, ?_⟩
        · have hle := hu.2 ⟨(hmem w (habove w hd)).mp hd, hw⟩
          exact absurd (habove w hd) (not_lt_of_ge hle)
        · rw [htomb] at hx
          exact (Option.some.inj hx).symm
      · refine .inl ⟨u, ⟨⟨(hmem u hlt).mpr hu.1.1, hu.1.2⟩, ?_⟩, by rw [hkeep u hlt, hx]⟩
        exact fun w hw => hu.2 ⟨(hmem w (habove w hw.1)).mp hw.1, hw.2⟩
    · exact .inr ⟨fun u hu => not_mem_dom.mp fun hd =>
        not_mem_dom.mpr (hn u hu) ((hmem u (habove u hd)).mp hd), rfl⟩
  · rintro (⟨u, hu, hx⟩ | ⟨hn, rfl⟩)
    · have hlt := habove u hu.1.1
      refine .inl ⟨u, ⟨⟨(hmem u hlt).mp hu.1.1, hu.1.2⟩, fun w hw => ?_⟩, by rw [← hkeep u hlt, hx]⟩
      rcases le_or_gt w t with hle | hgt
      · exact hle.trans hlt.le
      · exact hu.2 ⟨(hmem w hgt).mpr hw.1, hw.2⟩
    · refine .inl ⟨t, ⟨⟨ht, hr⟩, fun w hw => ?_⟩, htomb⟩
      by_contra hgt
      have hgt := not_le.mp hgt
      exact not_mem_dom.mpr (hn w hw.2) ((hmem w hgt).mpr hw.1)

end VersionHistory
