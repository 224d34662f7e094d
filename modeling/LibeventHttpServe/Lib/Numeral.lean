import Mathlib.Data.List.Basic
import Mathlib.Data.Nat.Digits.Defs
import Mathlib.Tactic.Ring

/-!
# Numerals

The value of a list of digits, most significant first, continued from the value
read so far.
-/

namespace LibeventHttpServe.Lib

/-- The value of `a` followed by the digits `ds` in base `b`. -/
def numeral (b a : ℕ) (ds : List ℕ) : ℕ := ds.foldl (fun n d => n * b + d) a

@[simp] theorem numeral_cons (b a d : ℕ) (ds : List ℕ) :
    numeral b a (d :: ds) = numeral b (a * b + d) ds := rfl

theorem le_numeral {b : ℕ} (hb : 0 < b) (a : ℕ) (ds : List ℕ) : a ≤ numeral b a ds := by
  induction ds generalizing a with
  | nil => exact Nat.le_refl a
  | cons d ds ih =>
    have hstep : a ≤ a * b + d := by
      have hmul : a * 1 ≤ a * b := Nat.mul_le_mul_left a hb
      omega
    rw [numeral_cons]
    exact Nat.le_trans hstep (ih _)

/-- The digits of `n` in base ten, most significant first; zero has the digit 0. -/
def decimalDigits (n : ℕ) : List ℕ := if n = 0 then [0] else (Nat.digits 10 n).reverse

theorem numeral_reverse (b : ℕ) (ds : List ℕ) :
    numeral b 0 ds.reverse = Nat.ofDigits b ds := by
  induction ds with
  | nil => rfl
  | cons d ds ih =>
    have hfold : numeral b 0 (ds.reverse ++ [d]) = numeral b 0 ds.reverse * b + d := by
      simp only [numeral, List.foldl_append, List.foldl_cons, List.foldl_nil]
    rw [List.reverse_cons, hfold, ih, Nat.ofDigits_cons]
    ring

theorem numeral_decimalDigits (n : ℕ) : numeral 10 0 (decimalDigits n) = n := by
  unfold decimalDigits
  split
  · rename_i h
    rw [h]
    rfl
  · rw [numeral_reverse, Nat.ofDigits_digits]

theorem decimalDigits_lt {n d : ℕ} (h : d ∈ decimalDigits n) : d < 10 := by
  unfold decimalDigits at h
  split at h
  · rw [List.mem_singleton.mp h]
    decide
  · exact Nat.digits_lt_base (by decide) (List.mem_reverse.mp h)

theorem decimalDigits_ne_nil (n : ℕ) : decimalDigits n ≠ [] := by
  unfold decimalDigits
  split
  · simp
  · rename_i h
    intro hnil
    exact h (Nat.digits_eq_nil_iff_eq_zero.mp (List.reverse_eq_nil_iff.mp hnil))

end LibeventHttpServe.Lib
