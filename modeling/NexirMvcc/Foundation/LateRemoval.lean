import NexirMvcc.Foundation.VersionHistory

/- Removals decided early and done late. At some time the versions `L` of a history
   are found to be older than a version `u` at or below a cutoff; later they are
   removed, all or some of them, when the history has been written to and collected
   by others. `Removable` is what is left true of `u` and `L` while nothing vanishes
   as a whole: `u` or something newer at or below a cutoff is still there, so the
   removal prunes. `Droppable` is the same where tombstones may be dropped together
   with all that is older: then `u` itself may be the tombstone to drop, or all of
   it may be gone already. -/
namespace VersionHistory
variable {τ β γ : Type} [LinearOrder τ]

/-- `H` less the versions `L`. -/
def without (H : τ → Option β) (L : List τ) : τ → Option β := fun t => if t ∈ L then none else H t

section Without
variable {H : τ → Option β} {L : List τ} {t : τ}

theorem without_of_mem (h : t ∈ L) : without H L t = none := if_pos h

theorem without_of_not_mem (h : t ∉ L) : without H L t = H t := if_neg h

theorem without_nil : without H [] = H := funext fun _ => without_of_not_mem List.not_mem_nil

theorem without_cons (a : τ) : without (Function.update H a none) L = without H (a :: L) := by
  funext t
  by_cases hL : t ∈ L
  · rw [without_of_mem hL, without_of_mem (List.mem_cons_of_mem a hL)]
  · rw [without_of_not_mem hL]
    by_cases ha : t = a
    · rw [ha, Function.update_self, without_of_mem List.mem_cons_self]
    · rw [Function.update_of_ne ha, without_of_not_mem (by simp [ha, hL])]

theorem mem_dom_without : t ∈ dom (without H L) ↔ t ∈ dom H ∧ t ∉ L := by
  by_cases h : t ∈ L
  · simp [mem_dom, without_of_mem h, h]
  · simp [mem_dom, without_of_not_mem h, h]

theorem without_sub {v : β} (h : without H L t = some v) : H t = some v := by
  have hL : t ∉ L := (mem_dom_without.mp (mem_dom.mpr ⟨v, h⟩)).2
  rwa [without_of_not_mem hL] at h

end Without

/-- A newer version at or below a cutoff shadows `t`. -/
def Shadowed (S : Set τ) (H : τ → Option β) (t : τ) : Prop :=
  ∃ u ∈ dom H, t < u ∧ ∃ sp ∈ S, u ≤ sp

section Shadowed
variable {S S' : Set τ} {H H' : τ → Option β} {t u : τ}

theorem Shadowed.mono (h : Shadowed S H t) (hS : S ⊆ S') : Shadowed S' H t := by
  obtain ⟨u, hu, htu, sp, hsp, hle⟩ := h
  exact ⟨u, hu, htu, sp, hS hsp, hle⟩

theorem Shadowed.of_le (h : Shadowed S H u) (htu : t ≤ u) : Shadowed S H t := by
  obtain ⟨w, hw, huw, hcut⟩ := h
  exact ⟨w, hw, htu.trans_lt huw, hcut⟩

theorem Shadowed.update (h : Shadowed S H t) (c : τ) (x : β) :
    Shadowed S (Function.update H c (some x)) t := by
  obtain ⟨u, hu, hrest⟩ := h
  refine ⟨u, ?_, hrest⟩
  rw [dom_update_some]
  exact Set.mem_insert_of_mem c hu

/-- A version of a pruned history is there or shadowed. -/
theorem Pruned.shadowed_or (h : Pruned S H H') (ht : t ∈ dom H) : t ∈ dom H' ∨ Shadowed S H' t :=
  h.shadowed_dom ht

theorem Pruned.shadowed_of (h : Pruned S H H') (ht : Shadowed S H t) : Shadowed S H' t := by
  obtain ⟨u, hu, htu, sp, hsp, hle⟩ := ht
  rcases h.shadowed_or hu with hk | hk
  · exact ⟨u, hk, htu, sp, hsp, hle⟩
  · exact hk.of_le htu.le

/-- Versions that are all shadowed by what stays can be removed. -/
theorem pruned_without {L : List τ} (h : ∀ t ∈ L, Shadowed S (without H L) t) :
    Pruned S H (without H L) := by
  refine ⟨fun t v => without_sub, fun t v hv => ?_⟩
  by_cases ht : t ∈ L
  · exact .inr (h t ht)
  · exact .inl ((without_of_not_mem ht).trans hv)

end Shadowed

/-- The versions `L` are older than `u`, which is there or shadowed. -/
structure Removable (S : Set τ) (u : τ) (L : List τ) (H : τ → Option β) : Prop where
  cut : ∃ sp ∈ S, u ≤ sp
  older : ∀ t ∈ L, t < u
  keeper : u ∈ dom H ∨ Shadowed S H u

namespace Removable
variable {S S' : Set τ} {u : τ} {L L' : List τ} {H H' : τ → Option β}

theorem mono (h : Removable S u L H) (hS : S ⊆ S') : Removable S' u L H := by
  obtain ⟨⟨sp, hsp, hle⟩, holder, hk⟩ := h
  exact ⟨⟨sp, hS hsp, hle⟩, holder, hk.imp_right fun hs => hs.mono hS⟩

theorem part (h : Removable S u L H) (hL : L' ⊆ L) : Removable S u L' H :=
  ⟨h.cut, fun t ht => h.older t (hL ht), h.keeper⟩

theorem update (h : Removable S u L H) (c : τ) (x : β) :
    Removable S u L (Function.update H c (some x)) := by
  refine ⟨h.cut, h.older, h.keeper.imp (fun hu => ?_) fun hs => hs.update c x⟩
  rw [dom_update_some]
  exact Set.mem_insert_of_mem c hu

theorem pruning (h : Removable S u L H) (hp : Pruned S H H') : Removable S u L H' :=
  ⟨h.cut, h.older, h.keeper.elim hp.shadowed_or fun hs => .inr (hp.shadowed_of hs)⟩

/-- Removing them is a pruning. -/
theorem pruned (h : Removable S u L H) : Pruned S H (without H L) := by
  refine pruned_without fun t ht => ?_
  have htu := h.older t ht
  rcases h.keeper with hu | ⟨w, hw, huw, hcut⟩
  · refine ⟨u, mem_dom_without.mpr ⟨hu, fun hm => lt_irrefl u (h.older u hm)⟩, htu, h.cut⟩
  · refine ⟨w, mem_dom_without.mpr ⟨hw, fun hm => ?_⟩, htu.trans huw, hcut⟩
    exact lt_asymm huw (h.older w hm)

end Removable

/-! Where a tombstone may go together with all that is older. -/

/-- No version is left at or below `t`. -/
def Gone (H : τ → Option β) (t : τ) : Prop := ∀ u ≤ t, H u = none

/-- How the versions `L`, none above `u`, stand to the history they are to be
dropped from. -/
inductive Standing (S : Set τ) (u : τ) (L : List τ) (H : τ → Option (Option γ)) : Prop where
  | shadowed (h : Shadowed S H u)
  | kept (hu : u ∈ dom H) (hL : ∀ t ∈ L, t < u)
  | tombstone (hu : H u = some none) (hall : ∀ t ∈ dom H, t ≤ u → t ∈ L)
  | gone (h : Gone H u)

/-- The versions `L` can be dropped, now and after what others do to the history. -/
structure Droppable (S : Set τ) (u : τ) (L : List τ) (H : τ → Option (Option γ)) : Prop where
  cut : ∃ sp ∈ S, u ≤ sp
  below : ∀ t ∈ L, t ≤ u
  standing : Standing S u L H

/-- What others do to the history: versions go, and where one went, a newer one at
or below a cutoff is there or everything up to it is gone. -/
structure Thinned (S : Set τ) (H H' : τ → Option β) : Prop where
  sub : ∀ t v, H' t = some v → H t = some v
  rest : ∀ t ∈ dom H, t ∈ dom H' ∨ Shadowed S H' t ∨ Gone H' t

namespace Thinned
variable {S : Set τ} {H H' : τ → Option β}

theorem of_pruned (h : Pruned S H H') : Thinned S H H' :=
  ⟨h.sub, fun _ ht => (h.shadowed_or ht).imp_right .inl⟩

theorem of_collected {sp : τ} {allow : Prop} {H H' : τ → Option (Option γ)} (hsp : sp ∈ S)
    (h : Collected sp allow H H') : Thinned S H H' := by
  rcases h with hp | ⟨-, -, hnone⟩
  · exact of_pruned (hp.mono fun s hs => ⟨sp, hsp, (Set.mem_singleton_iff.mp hs).le⟩)
  · refine ⟨fun t v hv => ?_, fun t _ => .inr (.inr fun u _ => hnone u)⟩
    rw [hnone t] at hv
    cases hv

theorem eq_of_mem (h : Thinned S H H') {t : τ} (ht : t ∈ dom H') : H' t = H t := by
  obtain ⟨v, hv⟩ := mem_dom.mp ht
  rw [hv, h.sub t v hv]

theorem dom_sub (h : Thinned S H H') : dom H' ⊆ dom H := by
  intro t ht
  obtain ⟨v, hv⟩ := mem_dom.mp ht
  exact mem_dom.mpr ⟨v, h.sub t v hv⟩

theorem gone (h : Thinned S H H') {t : τ} (hg : Gone H t) : Gone H' t := fun u hu =>
  not_mem_dom.mp fun hd => not_mem_dom.mpr (hg u hu) (h.dom_sub hd)

end Thinned

namespace Droppable
variable {S S' : Set τ} {u : τ} {L : List τ} {H H' : τ → Option (Option γ)}

theorem mono (h : Droppable S u L H) (hS : S ⊆ S') : Droppable S' u L H := by
  obtain ⟨⟨sp, hsp, hle⟩, hbelow, hstand⟩ := h
  refine ⟨⟨sp, hS hsp, hle⟩, hbelow, ?_⟩
  cases hstand with
  | shadowed h => exact .shadowed (h.mono hS)
  | kept hu hL => exact .kept hu hL
  | tombstone hu hall => exact .tombstone hu hall
  | gone h => exact .gone h

/-- Where `L` is older than `u`, part of it can be dropped. -/
theorem part {L' : List τ} (h : Droppable S u L H) (hlt : ∀ t ∈ L, t < u) (hL : L' ⊆ L) :
    Droppable S u L' H := by
  refine ⟨h.cut, fun t ht => h.below t (hL ht), ?_⟩
  cases h.standing with
  | shadowed h => exact .shadowed h
  | kept hu _ => exact .kept hu fun t ht => hlt t (hL ht)
  | tombstone hu hall =>
    exact absurd (hlt u (hall u (mem_dom.mpr ⟨none, hu⟩) le_rfl)) (lt_irrefl u)
  | gone h => exact .gone h

/-- New versions come above the cutoffs. -/
theorem update (h : Droppable S u L H) {c : τ} (hc : ∀ sp ∈ S, sp < c) (x : Option γ) :
    Droppable S u L (Function.update H c (some x)) := by
  obtain ⟨sp, hsp, hle⟩ := h.cut
  have huc : u < c := hle.trans_lt (hc sp hsp)
  refine ⟨h.cut, h.below, ?_⟩
  cases h.standing with
  | shadowed h => exact .shadowed (h.update c x)
  | kept hu hL =>
    refine .kept ?_ hL
    rw [dom_update_some]
    exact Set.mem_insert_of_mem c hu
  | tombstone hu hall =>
    refine .tombstone (by rwa [Function.update_of_ne huc.ne]) fun t ht htu => ?_
    rw [dom_update_some] at ht
    rcases ht with rfl | ht
    · exact absurd htu (not_le_of_gt huc)
    · exact hall t ht htu
  | gone h =>
    refine .gone fun t ht => ?_
    rw [Function.update_of_ne (ht.trans_lt huc).ne, h t ht]

theorem thinned (h : Droppable S u L H) (ht : Thinned S H H') : Droppable S u L H' := by
  refine ⟨h.cut, h.below, ?_⟩
  cases h.standing with
  | shadowed hs =>
    obtain ⟨w, hw, huw, hcut⟩ := hs
    rcases ht.rest w hw with hk | hk | hk
    · exact .shadowed ⟨w, hk, huw, hcut⟩
    · exact .shadowed (hk.of_le huw.le)
    · exact .gone fun t htu => hk t (htu.trans huw.le)
  | kept hu hL =>
    rcases ht.rest u hu with hk | hk | hk
    · exact .kept hk hL
    · exact .shadowed hk
    · exact .gone hk
  | tombstone hu hall =>
    rcases ht.rest u (mem_dom.mpr ⟨none, hu⟩) with hk | hk | hk
    · exact .tombstone ((ht.eq_of_mem hk).trans hu) fun t hd => hall t (ht.dom_sub hd)
    · exact .shadowed hk
    · exact .gone hk
  | gone hg => exact .gone (ht.gone hg)

/-- Dropping them prunes, or drops a tombstone with all that is older, or does nothing. -/
theorem cases (h : Droppable S u L H) : Pruned S H (without H L) ∨
    H u = some none ∧ Gone (without H L) u := by
  cases h.standing with
  | shadowed hs =>
    obtain ⟨w, hw, huw, hcut⟩ := hs
    refine .inl (pruned_without fun t ht => ⟨w, mem_dom_without.mpr ⟨hw, fun hm => ?_⟩,
      (h.below t ht).trans_lt huw, hcut⟩)
    exact absurd (h.below w hm) (not_le_of_gt huw)
  | kept hu hL => exact .inl (Removable.pruned ⟨h.cut, hL, .inl hu⟩)
  | tombstone hu hall =>
    refine .inr ⟨hu, fun t ht => ?_⟩
    by_cases hL : t ∈ L
    · exact without_of_mem hL
    · rw [without_of_not_mem hL]
      exact not_mem_dom.mp fun hd => hL (hall t hd ht)
  | gone hg =>
    have hsame : without H L = H := by
      funext t
      by_cases hL : t ∈ L
      · rw [without_of_mem hL, hg t (h.below t hL)]
      · exact without_of_not_mem hL
    rw [hsame]
    exact .inl (Pruned.refl S H)

/-- Above the cutoffs nothing is dropped. -/
theorem above (h : Droppable S u L H) {t : τ} (ht : ∀ sp ∈ S, sp < t) : without H L t = H t := by
  obtain ⟨sp, hsp, hle⟩ := h.cut
  refine without_of_not_mem fun hL => ?_
  exact absurd ((h.below t hL).trans hle) (not_le_of_gt (ht sp hsp))

theorem thins (h : Droppable S u L H) : Thinned S H (without H L) := by
  rcases h.cases with hp | ⟨-, hg⟩
  · exact .of_pruned hp
  · refine ⟨fun t v => without_sub, fun t ht => ?_⟩
    rcases le_or_gt t u with hle | hgt
    · exact .inr (.inr fun w hw => hg w (hw.trans hle))
    · exact .inl (mem_dom_without.mpr ⟨ht, fun hL => absurd (h.below t hL) (not_le_of_gt hgt)⟩)

/-- At or above the cutoffs everything is read as before. -/
theorem reads_iff (h : Droppable S u L H) {r : τ} {x : Option γ} (hr : ∀ sp ∈ S, sp ≤ r) :
    Reads H r x ↔ Reads (without H L) r x := by
  rcases h.cases with hp | ⟨hu, hg⟩
  · exact hp.reads_iff hr
  · obtain ⟨sp, hsp, hle⟩ := h.cut
    refine reads_dropUpTo hu hg (fun t ht => without_of_not_mem fun hL => ?_)
      (hle.trans (hr sp hsp))
    exact absurd (h.below t hL) (not_le_of_gt ht)

end Droppable

end VersionHistory
