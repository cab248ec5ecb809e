import Mathlib

/- Sorted lists, and strings in lexicographic order. A predicate that is never
   regained along a list selects a leading part of it, so stopping at the first
   failure and filtering are the same; the last entry of a sorted list is its
   greatest. The strings that begin with a given one are an interval that starts
   at it, `a ++ [⊥]` is the immediate successor of `a`, and of two strings of one
   length the first difference decides. -/

namespace KeyOrder

/-! Sorted lists. -/

section Lists
variable {α : Type} {l : List α}

/-- Where `p`, once lost, is never regained, `takeWhile` loses nothing. -/
theorem takeWhile_eq_filter {p : α → Bool} (h : l.Pairwise (fun x y => p y = true → p x = true)) :
    l.takeWhile p = l.filter p := by
  induction l with
  | nil => rfl
  | cons a l ih =>
    obtain ⟨ha, hl⟩ := List.pairwise_cons.mp h
    by_cases hp : p a = true
    · rw [List.takeWhile_cons_of_pos hp, List.filter_cons_of_pos hp, ih hl]
    · rw [List.takeWhile_cons_of_neg hp, List.filter_cons_of_neg hp, eq_comm, List.filter_eq_nil_iff]
      exact fun b hb hpb => hp (ha b hb hpb)

/-- The last entry of a list that ascends in `f` is the one where `f` is greatest. -/
theorem getLast?_eq_some_iff_of_sorted {β : Type} [LinearOrder β] {f : α → β} {a : α}
    (h : l.Pairwise (fun x y => f x < f y)) :
    l.getLast? = some a ↔ a ∈ l ∧ ∀ x ∈ l, f x ≤ f a := by
  rcases l.eq_nil_or_concat with rfl | ⟨l, z, rfl⟩
  · simp
  · rw [List.concat_eq_append] at h ⊢
    have hz : ∀ x ∈ l, f x < f z := fun x hx => (List.pairwise_append.mp h).2.2 x hx z (by simp)
    rw [List.getLast?_concat, Option.some.injEq]
    constructor
    · rintro rfl
      refine ⟨by simp, ?_⟩
      intro x hx
      rcases List.mem_append.mp hx with hx | hx
      · exact (hz x hx).le
      · rw [List.mem_singleton.mp hx]
    · rintro ⟨hm, hmax⟩
      rcases List.mem_append.mp hm with hm | hm
      · exact absurd (hmax z (by simp)) (not_le_of_gt (hz a hm))
      · exact (List.mem_singleton.mp hm).symm

/-- A leading part of a strictly sorted list that holds all its members is the list. -/
theorem eq_of_isPrefix_of_mem [Preorder α] {l' : List α} (h : l.Pairwise (· < ·)) (hp : l' <+: l)
    (hm : ∀ a ∈ l, a ∈ l') : l' = l := by
  obtain ⟨rest, rfl⟩ := hp
  rcases rest with _ | ⟨a, rest⟩
  · rw [List.append_nil]
  · have ha : a ∈ l' := hm a (by simp)
    exact absurd ((List.pairwise_append.mp h).2.2 a ha a (by simp)) (lt_irrefl a)

/-- The least member of a strictly sorted list that a leading part lacks stands next. -/
theorem append_isPrefix [PartialOrder α] {l' : List α} {a : α} (h : l.Pairwise (· < ·)) (hp : l' <+: l)
    (ha : a ∈ l) (ha' : a ∉ l') (hmin : ∀ x ∈ l, x ∉ l' → a ≤ x) : l' ++ [a] <+: l := by
  obtain ⟨rest, rfl⟩ := hp
  have hrest : a ∈ rest := (List.mem_append.mp ha).resolve_left ha'
  rcases rest with _ | ⟨x, rest⟩
  · cases hrest
  · obtain ⟨-, hs, hcross⟩ := List.pairwise_append.mp h
    have hx : x ∉ l' := fun hx => lt_irrefl x (hcross x hx x List.mem_cons_self)
    have hax : a = x := by
      rcases List.mem_cons.mp hrest with he | hm
      · exact he
      · exact absurd (hmin x (by simp) hx) (not_le_of_gt ((List.pairwise_cons.mp hs).1 a hm))
    rw [hax]
    exact ⟨rest, by simp⟩

/-- In front of an entry of a strictly sorted list stand the members below it. -/
theorem mem_front_iff [Preorder α] {front rest : List α} {n a : α}
    (h : (front ++ n :: rest).Pairwise (· < ·)) : a ∈ front ↔ a ∈ front ++ n :: rest ∧ a < n := by
  obtain ⟨-, hrest, hcross⟩ := List.pairwise_append.mp h
  constructor
  · intro ha
    exact ⟨List.mem_append_left _ ha, hcross a ha n List.mem_cons_self⟩
  · rintro ⟨ha, hlt⟩
    refine (List.mem_append.mp ha).resolve_right fun hm => ?_
    rcases List.mem_cons.mp hm with rfl | hm
    · exact lt_irrefl a hlt
    · exact lt_asymm hlt ((List.pairwise_cons.mp hrest).1 a hm)

/-- After the last entry of a leading part stand the members above it. -/
theorem mem_drop_iff_of_sorted [Preorder α] {n : Nat} {a z : α} (h : l.Pairwise (· < ·))
    (hz : (l.take n).getLast? = some z) : a ∈ l.drop n ↔ a ∈ l ∧ z < a := by
  obtain ⟨init, hinit⟩ := List.getLast?_eq_some_iff.mp hz
  have hl : l = init ++ [z] ++ l.drop n := by rw [← hinit, List.take_append_drop]
  have hcut := h
  rw [hl] at hcut
  obtain ⟨hlow, -, hcross⟩ := List.pairwise_append.mp hcut
  constructor
  · intro ha
    exact ⟨List.mem_of_mem_drop ha, hcross z (by simp) a ha⟩
  · rintro ⟨ha, hza⟩
    rw [hl] at ha
    rcases List.mem_append.mp ha with ha | ha
    · rcases List.mem_append.mp ha with ha | ha
      · have haz := (List.pairwise_append.mp hlow).2.2 a ha z (by simp)
        exact absurd (haz.trans hza) (lt_irrefl a)
      · rw [List.mem_singleton.mp ha] at hza
        exact absurd hza (lt_irrefl z)
    · exact ha

end Lists

/-! Strings. -/

section Strings
variable {α : Type} [LinearOrder α] {p a b k : List α} {x y : α}

theorem cons_le_cons : x :: a ≤ y :: b ↔ x < y ∨ x = y ∧ a ≤ b := by
  rw [← not_lt, List.cons_lt_cons_iff, ← not_lt]
  constructor
  · intro h
    obtain ⟨hxy, hab⟩ := not_or.mp h
    rcases (not_lt.mp hxy).lt_or_eq with hlt | he
    · exact .inl hlt
    · exact .inr ⟨he, fun hba => hab ⟨he.symm, hba⟩⟩
  · rintro (hlt | ⟨rfl, hab⟩) (h | ⟨he, h⟩)
    · exact absurd (hlt.trans h) (lt_irrefl x)
    · exact hlt.ne' he
    · exact lt_irrefl x h
    · exact hab h

theorem le_of_isPrefix (h : p <+: k) : p ≤ k := not_lt.mp h.le

/-- What lies between two strings that begin with `p` begins with `p`. -/
theorem isPrefix_of_between (hak : a ≤ k) (hkb : k ≤ b) (ha : p <+: a) (hb : p <+: b) : p <+: k := by
  induction p generalizing a b k with
  | nil => exact List.nil_prefix
  | cons x p ih =>
    obtain ⟨a', rfl⟩ := ha
    obtain ⟨b', rfl⟩ := hb
    rw [List.cons_append] at hak hkb
    rcases k with _ | ⟨y, k⟩
    · exact absurd hak (not_le_of_gt (List.nil_lt_cons _ _))
    -- both bounds begin with `x`, so `k` does
    · rcases cons_le_cons.mp hak with hlt | ⟨rfl, hak'⟩
      · rcases cons_le_cons.mp hkb with hlt' | ⟨he, -⟩
        · exact absurd (hlt.trans hlt') (lt_irrefl x)
        · exact absurd he hlt.ne'
      · rcases cons_le_cons.mp hkb with hlt | ⟨-, hkb'⟩
        · exact absurd hlt (lt_irrefl x)
        · have hpk := ih hak' hkb' (List.prefix_append p a') (List.prefix_append p b')
          exact (List.prefix_cons_inj x).mpr hpk

/-- Of two strings of one length the smaller stays smaller, whatever follows them. -/
theorem append_lt_append (hlen : a.length = b.length) (h : a < b) (s t : List α) :
    a ++ s < b ++ t := by
  induction a generalizing b with
  | nil =>
    obtain rfl : b = [] := List.length_eq_zero_iff.mp hlen.symm
    exact absurd h (List.not_lt_nil _)
  | cons x a ih =>
    rcases b with _ | ⟨y, b⟩
    · cases hlen
    · rw [List.cons_append, List.cons_append, List.cons_lt_cons_iff]
      rcases List.cons_lt_cons_iff.mp h with hxy | ⟨hxy, hab⟩
      · exact .inl hxy
      · exact .inr ⟨hxy, ih (Nat.succ.inj hlen) hab⟩

/-- A common front decides nothing. -/
theorem append_lt_append_left_iff : p ++ a < p ++ b ↔ a < b := by
  induction p with
  | nil => rfl
  | cons x p ih => simp [ih]

/-- `a ++ [⊥]` is the immediate successor of `a`. -/
theorem append_bot_le_iff [OrderBot α] : a ++ [⊥] ≤ k ↔ a < k := by
  induction a generalizing k with
  | nil =>
    rcases k with _ | ⟨y, k⟩
    · exact iff_of_false (not_le_of_gt (List.nil_lt_cons _ _)) (lt_irrefl _)
    · refine iff_of_true (cons_le_cons.mpr ?_) (List.nil_lt_cons _ _)
      rcases (bot_le : ⊥ ≤ y).lt_or_eq with h | h
      · exact .inl h
      · exact .inr ⟨h, not_lt.mp (List.not_lt_nil k)⟩
  | cons x a ih =>
    rcases k with _ | ⟨y, k⟩
    · exact iff_of_false (not_le_of_gt (List.nil_lt_cons _ _)) (List.not_lt_nil _)
    · rw [List.cons_append, cons_le_cons, List.cons_lt_cons_iff, ih]

end Strings

end KeyOrder
