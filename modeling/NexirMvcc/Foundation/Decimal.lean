import Mathlib

/- Numbers in decimal, as ASCII bytes: printed with at least `width` digits, zeros in
   front, and read back from the first digit on. -/
namespace Decimal

/-- The byte of the digit `d`. -/
def digit (d : Nat) : Fin (2 ^ 8) := Fin.ofNat (2 ^ 8) (48 + d)

def isDigit (b : Fin (2 ^ 8)) : Bool := 48 ≤ b.val && b.val ≤ 57

/-- `n` with at least `width` digits. -/
def print (width n : Nat) : List (Fin (2 ^ 8)) :=
  List.replicate (width - (Nat.digits 10 n).length) (digit 0) ++ (Nat.digits 10 n).reverse.map digit

/-- The number that a string of digits stands for. -/
def value (bs : List (Fin (2 ^ 8))) : Nat := bs.foldl (fun v b => v * 10 + (b.val - 48)) 0

theorem digit_val {d : Nat} (hd : d < 10) : (digit d).val = 48 + d :=
  Nat.mod_eq_of_lt (by omega)

theorem isDigit_digit {d : Nat} (hd : d < 10) : isDigit (digit d) = true := by
  unfold isDigit
  rw [digit_val hd, Bool.and_eq_true, decide_eq_true_iff, decide_eq_true_iff]
  omega

/-- The digits of a number are below the base. -/
theorem lt_ten_of_mem {n d : Nat} (h : d ∈ Nat.digits 10 n) : d < 10 :=
  Nat.digits_lt_base (by decide) h

theorem isDigit_of_mem_print {width n : Nat} {b : Fin (2 ^ 8)} (h : b ∈ print width n) :
    isDigit b = true := by
  rcases List.mem_append.mp h with h | h
  · rw [List.eq_of_mem_replicate h]
    rfl
  · obtain ⟨d, hd, rfl⟩ := List.mem_map.mp h
    exact isDigit_digit (lt_ten_of_mem (List.mem_reverse.mp hd))

theorem length_print (width n : Nat) :
    (print width n).length = max width (Nat.digits 10 n).length := by
  unfold print
  rw [List.length_append, List.length_replicate, List.length_map, List.length_reverse]
  omega

theorem print_ne_nil {width : Nat} (hw : 0 < width) (n : Nat) : print width n ≠ [] := by
  refine List.ne_nil_of_length_pos ?_
  rw [length_print]
  omega

/-- Zeros in front do not count. -/
theorem value_zeros (k : Nat) (bs : List (Fin (2 ^ 8))) :
    value (List.replicate k (digit 0) ++ bs) = value bs := by
  induction k with
  | zero => rfl
  | succ k ih =>
    rw [← ih]
    rfl

theorem value_digits {ds : List Nat} (h : ∀ d ∈ ds, d < 10) :
    value (ds.reverse.map digit) = Nat.ofDigits 10 ds := by
  induction ds with
  | nil => rfl
  | cons d ds ih =>
    obtain ⟨hd, hds⟩ := List.forall_mem_cons.mp h
    unfold value at ih ⊢
    rw [List.reverse_cons, List.map_append, List.foldl_append, ih hds, Nat.ofDigits_cons]
    simp only [List.map_cons, List.map_nil, List.foldl_cons, List.foldl_nil, digit_val hd]
    omega

theorem value_print (width n : Nat) : value (print width n) = n := by
  unfold print
  rw [value_zeros, value_digits fun d hd => lt_ten_of_mem hd, Nat.ofDigits_digits]

theorem print_injective (width : Nat) : Function.Injective (print width) :=
  Function.LeftInverse.injective (value_print width)

end Decimal
