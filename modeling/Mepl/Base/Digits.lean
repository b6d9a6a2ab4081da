import Mathlib.Algebra.Order.Ring.Nat
import Mathlib.Data.List.Induction

namespace Mepl.Base

/-- The number with these digits, the highest first. -/
def digitsValue (b : Nat) (ds : List Nat) : Nat := ds.foldl (fun v d => v * b + d) 0

/-- The number with n digits that are 1. -/
def ones (b : Nat) : Nat → Nat
  | 0 => 0
  | n + 1 => ones b n * b + 1

def DigitsIn (lo hi : Nat) (ds : List Nat) : Prop := ∀ d ∈ ds, lo ≤ d ∧ d ≤ hi

variable {b lo hi n m d : Nat} {ds es : List Nat}

@[simp] theorem digits_value_snoc (b : Nat) (ds : List Nat) (d : Nat) :
    digitsValue b (ds ++ [d]) = digitsValue b ds * b + d := by
  simp [digitsValue]

theorem digits_in_snoc : DigitsIn lo hi (ds ++ [d]) ↔ DigitsIn lo hi ds ∧ lo ≤ d ∧ d ≤ hi := by
  simp only [DigitsIn, List.mem_append, List.mem_singleton, or_imp, forall_and, forall_eq]
  tauto

theorem ones_mul (b n : Nat) : b * ones (b + 1) n + 1 = (b + 1) ^ n := by
  induction n with
  | zero => rfl
  | succ n ih =>
    rw [ones, Nat.pow_succ, ← ih]
    simp only [Nat.mul_add, Nat.add_mul, Nat.mul_one, Nat.one_mul, Nat.mul_assoc]
    omega

theorem ones_mono (hb : 0 < b) (h : n ≤ m) : ones b n ≤ ones b m := by
  induction h with
  | refl => exact Nat.le_refl _
  | step _ ih =>
    rw [ones]
    exact Nat.le_succ_of_le (Nat.le_trans ih (Nat.le_mul_of_pos_right _ hb))

theorem digits_value_le (h : DigitsIn lo hi ds) : digitsValue b ds ≤ hi * ones b ds.length := by
  induction ds using List.reverseRecOn with
  | nil => exact Nat.zero_le _
  | append_singleton ds d ih =>
    obtain ⟨hds, -, hd⟩ := digits_in_snoc.mp h
    have hmul := Nat.mul_le_mul_right b (ih hds)
    rw [digits_value_snoc, List.length_append, List.length_singleton, ones, Nat.mul_add,
      Nat.mul_one, ← Nat.mul_assoc]
    exact Nat.add_le_add hmul hd

theorem le_digits_value (h : DigitsIn lo hi ds) : lo * ones b ds.length ≤ digitsValue b ds := by
  induction ds using List.reverseRecOn with
  | nil => exact Nat.zero_le _
  | append_singleton ds d ih =>
    obtain ⟨hds, hd, -⟩ := digits_in_snoc.mp h
    have hmul := Nat.mul_le_mul_right b (ih hds)
    rw [digits_value_snoc, List.length_append, List.length_singleton, ones, Nat.mul_add,
      Nat.mul_one, ← Nat.mul_assoc]
    exact Nat.add_le_add hmul hd

/-- A number with more digits is greater. -/
theorem digits_value_lt (hb : 0 < b) (hlo : 0 < lo) (hlow : hi ≤ lo * b) (hds : DigitsIn lo hi ds)
    (hes : DigitsIn lo hi es) (hlen : ds.length < es.length) :
    digitsValue b ds < digitsValue b es := by
  calc digitsValue b ds ≤ hi * ones b ds.length := digits_value_le hds
    _ ≤ lo * b * ones b ds.length := Nat.mul_le_mul_right _ hlow
    _ < lo * ones b (ds.length + 1) := by
      rw [ones, Nat.mul_add, Nat.mul_assoc, Nat.mul_comm b]
      omega
    _ ≤ lo * ones b es.length := Nat.mul_le_mul_left lo (ones_mono hb hlen)
    _ ≤ digitsValue b es := le_digits_value hes

/-- Of equally many digits, the last is the remainder, and the others the
quotient, as if they were below the base. -/
theorem digits_value_inj (hb : 0 < b) (hrange : hi < lo + b) (hds : DigitsIn lo hi ds)
    (hes : DigitsIn lo hi es) (hlen : ds.length = es.length)
    (h : digitsValue b ds = digitsValue b es) : ds = es := by
  induction ds using List.reverseRecOn generalizing es with
  | nil => exact (List.eq_nil_of_length_eq_zero hlen.symm).symm
  | append_singleton ds d ih =>
    induction es using List.reverseRecOn with
    | nil => simp at hlen
    | append_singleton es e _ =>
      obtain ⟨hds, hlod, hhid⟩ := digits_in_snoc.mp hds
      obtain ⟨hes, hloe, hhie⟩ := digits_in_snoc.mp hes
      have hsame : b * digitsValue b ds + (d - lo) = b * digitsValue b es + (e - lo) := by
        rw [digits_value_snoc, digits_value_snoc, Nat.mul_comm,
          Nat.mul_comm (digitsValue b es)] at h
        omega
      have hmod := congrArg (· % b) hsame
      simp only [Nat.mul_add_mod, Nat.mod_eq_of_lt (show d - lo < b by omega),
        Nat.mod_eq_of_lt (show e - lo < b by omega)] at hmod
      rw [hmod] at hsame
      rw [List.length_append, List.length_append] at hlen
      have hrest := ih hds hes (Nat.add_right_cancel hlen)
        (Nat.eq_of_mul_eq_mul_left hb (Nat.add_right_cancel hsame))
      have hlast : d = e := by omega
      rw [hrest, hlast]

/-- Different digits make different numbers. -/
theorem digits_value_ne (hb : 0 < b) (hlo : 0 < lo) (hlow : hi ≤ lo * b) (hrange : hi < lo + b)
    (hds : DigitsIn lo hi ds) (hes : DigitsIn lo hi es) (hne : ds ≠ es) :
    digitsValue b ds ≠ digitsValue b es := by
  intro h
  rcases Nat.lt_trichotomy ds.length es.length with hlt | heq | hgt
  · exact Nat.ne_of_lt (digits_value_lt hb hlo hlow hds hes hlt) h
  · exact hne (digits_value_inj hb hrange hds hes heq h)
  · exact Nat.ne_of_gt (digits_value_lt hb hlo hlow hes hds hgt) h

end Mepl.Base
