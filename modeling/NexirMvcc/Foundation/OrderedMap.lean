import Mathlib
import NexirMvcc.Foundation.KeyOrder

/- Range queries over ordered maps and sets. The maps are `Std.ExtTreeMap`, the
   sets `Std.ExtTreeSet`, over a linear order: two maps with the same entries are
   equal. A range query returns the entries whose keys satisfy the bounds, in
   ascending order of the keys, so its last element is the one with the greatest
   key. -/

abbrev OrderedMap (α β : Type) [LinearOrder α] := Std.ExtTreeMap α β compare
abbrev OrderedSet (α : Type) [LinearOrder α] := Std.ExtTreeSet α compare

/-- Stated so that it is found for lists as well, which bring an `Ord` of their own. -/
instance linearOrderLawfulEqCmp {α : Type} [LinearOrder α] :
    Std.LawfulEqCmp (@compare α LinearOrder.toOrd) := inferInstance

namespace OrderedMap
variable {α β : Type} [LinearOrder α]

/-- The entries whose keys satisfy `p`, ascending. -/
def between (m : OrderedMap α β) (p : α → Bool) : List (α × β) :=
  m.toList.filter (fun e => p e.1)

/-- The entries from `lo` on. -/
def rangeFrom (m : OrderedMap α β) (lo : α) : List (α × β) :=
  m.between (fun a => lo ≤ a)

/-- The entries from `lo` to `hi`, both included. -/
def rangeIncl (m : OrderedMap α β) (lo hi : α) : List (α × β) :=
  m.between (fun a => lo ≤ a ∧ a ≤ hi)

/-- The entries from `lo` on and below `hi`. -/
def rangeExcl (m : OrderedMap α β) (lo hi : α) : List (α × β) :=
  m.between (fun a => lo ≤ a ∧ a < hi)

variable {m : OrderedMap α β} {p : α → Bool} {a : α} {v : β}

theorem get_insert [DecidableEq α] {k : α} :
    (m.insert k v)[a]? = if k = a then some v else m[a]? := by
  by_cases h : k = a <;> simp [Std.ExtTreeMap.getElem?_insert, h]

theorem get_erase [DecidableEq α] {k : α} :
    (m.erase k)[a]? = if k = a then none else m[a]? := by
  by_cases h : k = a <;> simp [Std.ExtTreeMap.getElem?_erase, h]

theorem mem_keys : a ∈ m.keys ↔ m[a]?.isSome := by
  rw [Std.ExtTreeMap.mem_keys, Std.ExtTreeMap.mem_iff_isSome_getElem?]

theorem mem_between : (a, v) ∈ m.between p ↔ m[a]? = some v ∧ p a = true := by
  rw [between, List.mem_filter, Std.ExtTreeMap.mem_toList_iff_getElem?_eq_some]

theorem between_sorted (m : OrderedMap α β) (p : α → Bool) :
    (m.between p).Pairwise (fun x y => x.1 < y.1) := by
  apply List.Pairwise.filter
  have h := Std.ExtTreeMap.ordered_keys_toList (t := m)
  exact h.imp (fun hxy => compare_lt_iff_lt.mp hxy)

theorem between_eq_nil : m.between p = [] ↔ ∀ a v, m[a]? = some v → p a = false := by
  rw [List.eq_nil_iff_forall_not_mem]
  constructor
  · intro h a v hv
    have := h (a, v)
    rw [mem_between] at this
    simpa [hv] using this
  · rintro h ⟨a, v⟩ hm
    rw [mem_between] at hm
    simp [h a v hm.1] at hm

/-- The last entry of a range is the one with the greatest key in it. -/
theorem between_getLast?_eq_some : (m.between p).getLast? = some (a, v) ↔
    (m[a]? = some v ∧ p a = true) ∧ ∀ a' v', m[a']? = some v' → p a' = true → a' ≤ a := by
  rw [KeyOrder.getLast?_eq_some_iff_of_sorted (f := Prod.fst) (between_sorted m p), mem_between]
  refine and_congr_right fun _ => ?_
  constructor
  · intro h a' v' hv hp
    exact h (a', v') (mem_between.mpr ⟨hv, hp⟩)
  · rintro h ⟨a', v'⟩ hm
    obtain ⟨hv, hp⟩ := mem_between.mp hm
    exact h a' v' hv hp

end OrderedMap

namespace OrderedSet
variable {α : Type} [LinearOrder α]

/-- The elements from `lo` on, ascending. -/
def rangeFrom (s : OrderedSet α) (lo : α) : List α := s.toList.filter (fun a => lo ≤ a)

theorem mem_insert {s : OrderedSet α} {k a : α} : a ∈ s.insert k ↔ k = a ∨ a ∈ s := by
  rw [Std.ExtTreeSet.mem_insert, compare_eq_iff_eq]

theorem mem_erase {s : OrderedSet α} {k a : α} : a ∈ s.erase k ↔ k ≠ a ∧ a ∈ s := by
  rw [Std.ExtTreeSet.mem_erase, ne_eq, compare_eq_iff_eq]

theorem toList_sorted (s : OrderedSet α) : s.toList.Pairwise (· < ·) := by
  have h := Std.ExtTreeSet.ordered_toList (t := s)
  exact h.imp (fun hxy => compare_lt_iff_lt.mp hxy)

theorem rangeFrom_sorted (s : OrderedSet α) (lo : α) : (s.rangeFrom lo).Pairwise (· < ·) :=
  (toList_sorted s).filter _

theorem mem_rangeFrom {s : OrderedSet α} {lo a : α} : a ∈ s.rangeFrom lo ↔ a ∈ s ∧ lo ≤ a := by
  rw [rangeFrom, List.mem_filter, Std.ExtTreeSet.mem_toList, decide_eq_true_iff]

end OrderedSet
