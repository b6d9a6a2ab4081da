import Mathlib.Data.Fintype.EquivFin

namespace Mepl.Base

variable {w : Nat}

instance finiteWord (w : Nat) : Finite (BitVec w) :=
  Finite.of_injective BitVec.toFin (fun _ _ => BitVec.eq_of_toFin_eq)

/-- x ^ (x >> s) -/
def xorShift (s : Nat) (x : BitVec w) : BitVec w := x ^^^ (x >>> s)

theorem xor_bijective (k : BitVec w) : Function.Bijective (· ^^^ k) := by
  apply Finite.injective_iff_bijective.mp
  intro x y h
  exact (BitVec.xor_left_inj k).mp h

theorem add_bijective (k : BitVec w) : Function.Bijective (· + k) := by
  apply Finite.injective_iff_bijective.mp
  intro x y h
  exact (BitVec.add_left_inj k).mp h

/-- A factor with an inverse, which an odd one has. -/
theorem mul_bijective {k inv : BitVec w} (hinv : k * inv = 1#w) : Function.Bijective (· * k) := by
  apply Finite.injective_iff_bijective.mp
  intro x y h
  have hback : x * k * inv = y * k * inv := congrArg (· * inv) h
  rwa [BitVec.mul_assoc, BitVec.mul_assoc, hinv, BitVec.mul_one, BitVec.mul_one] at hback

/-- Every bit is known from the bits above it. -/
theorem xor_shift_bijective {s : Nat} (hs : 0 < s) :
    Function.Bijective (xorShift s : BitVec w → BitVec w) := by
  apply Finite.injective_iff_bijective.mp
  intro x y h
  have hbits : ∀ n i, w ≤ i + n → x.getLsbD i = y.getLsbD i := by
    intro n
    induction n with
    | zero =>
      intro i hi
      rw [BitVec.getLsbD_of_ge x i hi, BitVec.getLsbD_of_ge y i hi]
    | succ n ih =>
      intro i hi
      have habove := ih (s + i) (by omega)
      have hbit := congrArg (BitVec.getLsbD · i) h
      simp only [xorShift, BitVec.getLsbD_xor, BitVec.getLsbD_ushiftRight, habove] at hbit
      exact Bool.xor_left_inj.mp hbit
  apply BitVec.eq_of_getLsbD_eq
  intro i _
  exact hbits w i (Nat.le_add_left w i)

end Mepl.Base
