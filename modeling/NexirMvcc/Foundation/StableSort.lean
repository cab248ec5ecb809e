import Mathlib

/- Sorting by a key, with equals left in their order. What a list is pairwise in,
   its sorted list is pairwise in among equals; across different keys it is in the
   order of the keys. -/
namespace StableSort
variable {α τ : Type} [LinearOrder τ] {f : α → τ} {l : List α}

/-- The list in the order of `f`, equals in their order. -/
def sortOn (f : α → τ) (l : List α) : List α := l.insertionSort fun a a' => f a ≤ f a'

theorem perm_sortOn (f : α → τ) (l : List α) : (sortOn f l).Perm l := List.perm_insertionSort _ l

theorem filter_sortOn (t : τ) : (sortOn f l).filter (f · = t) = l.filter (f · = t) := by
  have hsorted : (l.filter (f · = t)).Pairwise fun a a' => f a ≤ f a' := by
    refine List.pairwise_of_forall_mem_list fun a ha a' ha' => ?_
    have h : f a = t := by simpa using (List.mem_filter.mp ha).2
    have h' : f a' = t := by simpa using (List.mem_filter.mp ha').2
    rw [h, h']
  have hsub : (l.filter (f · = t)).Sublist ((sortOn f l).filter (f · = t)) := by
    have h := (List.sublist_insertionSort hsorted List.filter_sublist).filter (f · = t)
    rwa [List.filter_filter, funext fun a => Bool.and_self (decide (f a = t))] at h
  exact (hsub.eq_of_length ((perm_sortOn f l).filter _).length_eq.symm).symm

/-- Among equals, the sorted list is in the relation that the list is in. -/
theorem pairwise_sortOn {Q : α → α → Prop} (h : l.Pairwise Q) :
    (sortOn f l).Pairwise fun a a' => f a ≤ f a' ∧ (f a = f a' → Q a a') := by
  have : Std.Total fun a a' : α => f a ≤ f a' := ⟨fun a a' => le_total (f a) (f a')⟩
  have : IsTrans α fun a a' => f a ≤ f a' := ⟨fun _ _ _ => le_trans⟩
  refine (List.pairwise_insertionSort _ l).and ?_
  refine List.pairwise_iff_forall_sublist.mpr ?_
  intro a a' hsub heq
  have hfilter := hsub.filter (f · = f a')
  rw [show l.insertionSort _ = sortOn f l from rfl, filter_sortOn] at hfilter
  have hpair : [a, a'].filter (f · = f a') = [a, a'] := by simp [heq]
  rw [hpair] at hfilter
  exact List.pairwise_iff_forall_sublist.mp h (hfilter.trans List.filter_sublist)

/-- A list is pairwise in a relation if every element is, to all before it. -/
theorem pairwise_of_split {Q : α → α → Prop}
    (h : ∀ l₁ a l₂, l = l₁ ++ a :: l₂ → ∀ o ∈ l₁, Q o a) : l.Pairwise Q := by
  induction l using List.reverseRecOn with
  | nil => exact List.Pairwise.nil
  | append_singleton l a ih =>
    refine List.pairwise_append.mpr ⟨ih ?_, List.pairwise_singleton _ _, ?_⟩
    · exact fun l₁ c l₂ he => h l₁ c (l₂ ++ [a]) (by rw [he]; simp)
    · intro o ho c hc
      obtain rfl := List.mem_singleton.mp hc
      exact h l c [] rfl o ho

end StableSort
