import Mathlib.NumberTheory.Bertrand
import Mathlib.Order.Bounds.Basic
import Mepl.Ptrset.Hash

namespace Mepl

/-- A step of the two loops, with the value it is at. -/
inductive PrimeStep where
  /-- m * m, for the test of is_prime's loop -/
  | square (m : Word)
  /-- m++ -/
  | incr (m : Word)
  /-- is_prime(m) -/
  | tested (m : Word) (answer : Bool)
deriving DecidableEq, Repr

/-- The loop of is_prime. -/
def isPrimeWordLoop (n : Word) : Nat → Word → Res (Bool × List PrimeStep)
  | 0, _ => .error .fuel
  | fuel + 1, m =>
    if m * m ≤ n then
      if m = 0#64 then .error .fault
      else if n % m = 0#64 then pure (false, [.square m])
      else do
        let (answer, steps) ← isPrimeWordLoop n fuel (m + 1#64)
        pure (answer, .square m :: .incr m :: steps)
    else pure (true, [.square m])

def isPrimeWord (fuel : Nat) (n : Word) : Res (Bool × List PrimeStep) :=
  if n ≤ 1#64 then pure (false, []) else isPrimeWordLoop n fuel 2#64

def nextPrimeWord : Nat → Word → Res (Word × List PrimeStep)
  | 0, _ => .error .fuel
  | fuel + 1, n => do
    let (answer, steps) ← isPrimeWord fuel n
    if answer then pure (n, steps ++ [.tested n true])
    else do
      let (p, rest) ← nextPrimeWord fuel (n + 1#64)
      pure (p, steps ++ .tested n false :: .incr n :: rest)

/-- The step computes the number it stands for, and answers right. -/
def PrimeStep.Exact : PrimeStep → Prop
  | .square m => m.toNat * m.toNat < 2 ^ 64
  | .incr m => m.toNat + 1 < 2 ^ 64
  | .tested m answer => answer = true ↔ m.toNat.Prime

section
variable {n m p : Word} {fuel : Nat}

theorem succ_to_nat (h : m.toNat + 1 < 2 ^ 64) : (m + 1#64).toNat = m.toNat + 1 := by
  rw [BitVec.toNat_add]
  exact Nat.mod_eq_of_lt h

/-- Below 2^63, the loop stops short of a divisor whose square wraps. -/
theorem is_prime_word_loop (hn : n.toNat < 2 ^ 63) (hm : 2 ≤ m.toNat) (hroot : m.toNat < 2 ^ 32)
    (hfuel : 2 ^ 32 ≤ m.toNat + fuel) :
    ∃ steps, isPrimeWordLoop n fuel m = .ok (isPrimeLoop n.toNat m.toNat, steps) ∧
      ∀ step ∈ steps, step.Exact := by
  induction fuel generalizing m with
  | zero => omega
  | succ fuel ih =>
    have hfits : m.toNat * m.toNat < 2 ^ 64 :=
      calc m.toNat * m.toNat < 2 ^ 32 * 2 ^ 32 := Nat.mul_lt_mul'' hroot hroot
        _ = 2 ^ 64 := rfl
    have hsquare : (PrimeStep.square m).Exact := hfits
    have hle : m * m ≤ n ↔ m.toNat * m.toNat ≤ n.toNat := by
      rw [BitVec.le_def, BitVec.toNat_mul, Nat.mod_eq_of_lt hfits]
    have hmod : n % m = 0#64 ↔ n.toNat % m.toNat = 0 := by
      rw [← BitVec.toNat_inj, BitVec.toNat_umod]
      rfl
    have hzero : m ≠ 0#64 := by
      rintro rfl
      exact absurd hm (by decide)
    rw [isPrimeWordLoop, isPrimeLoop]
    simp only [hle, hmod, hzero, ↓reduceIte]
    split
    · split
      · exact ⟨_, rfl, by simpa using hsquare⟩
      · rename_i hbelow _
        -- the next divisor is in range: its predecessor's square is below 2^63
        have hnext : m.toNat + 1 < 2 ^ 32 := by
          by_contra hbig
          have hmul := Nat.mul_le_mul (show 2 ^ 32 - 1 ≤ m.toNat by omega)
            (show 2 ^ 32 - 1 ≤ m.toNat by omega)
          omega
        have hsucc : (m + 1#64).toNat = m.toNat + 1 := succ_to_nat (by omega)
        obtain ⟨steps, hrun, hexact⟩ := ih (m := m + 1#64) (by omega) (by omega) (by omega)
        have hincr : (PrimeStep.incr m).Exact := by
          show m.toNat + 1 < 2 ^ 64
          omega
        rw [hrun, ok_bind, hsucc]
        exact ⟨_, rfl, by simpa using ⟨hsquare, hincr, hexact⟩⟩
    · exact ⟨_, rfl, by simpa using hsquare⟩

theorem is_prime_word (fuel : Nat) (hn : n.toNat < 2 ^ 63) (hfuel : 2 ^ 32 ≤ fuel) :
    ∃ steps, isPrimeWord fuel n = .ok (isPrime n.toNat, steps) ∧ ∀ step ∈ steps, step.Exact := by
  unfold isPrimeWord isPrime
  have hle : n ≤ 1#64 ↔ n.toNat ≤ 1 := BitVec.le_def
  simp only [hle]
  split
  · exact ⟨[], rfl, by simp⟩
  · apply is_prime_word_loop hn
    · exact Nat.le_refl 2
    · decide
    · exact Nat.le_trans hfuel (Nat.le_add_left _ _)

theorem next_prime_least (n : Nat) : IsLeast {p | p.Prime ∧ n ≤ p} (nextPrime n) := by
  obtain ⟨hle, hprime⟩ := next_prime_spec n
  refine ⟨⟨hprime, hle⟩, ?_⟩
  fun_induction nextPrime n with
  | case1 n _ => exact fun p hp => hp.2
  | case2 n hn ih =>
    obtain ⟨hle', hprime'⟩ := next_prime_spec (n + 1)
    rintro p ⟨hp, hle⟩
    have hne : n ≠ p := by
      rintro rfl
      exact hn ((is_prime_iff n).mpr hp)
    exact ih hle' hprime' ⟨hp, Nat.lt_of_le_of_ne hle hne⟩

/-- There is a prime before twice a number. -/
theorem next_prime_lt {n : Nat} (hn : n < 2 ^ 62) : nextPrime n < 2 ^ 63 := by
  rcases Nat.eq_zero_or_pos n with rfl | hpos
  · have hle := (next_prime_least 0).2 ⟨Nat.prime_two, Nat.zero_le 2⟩
    omega
  · obtain ⟨p, hp, hlt, hle⟩ := Nat.exists_prime_lt_and_le_two_mul n (by omega)
    have hleast := (next_prime_least n).2 ⟨hp, Nat.le_of_lt hlt⟩
    omega

/-- One round for each number up to the prime, and the fuel for a test in each. -/
theorem next_prime_word (hn : nextPrime n.toNat < 2 ^ 63)
    (hfuel : 2 ^ 32 + (nextPrime n.toNat - n.toNat) < fuel) :
    ∃ p steps, nextPrimeWord fuel n = .ok (p, steps) ∧ p.toNat = nextPrime n.toNat ∧
      ∀ step ∈ steps, step.Exact := by
  induction fuel generalizing n with
  | zero => omega
  | succ fuel ih =>
    have hle := (next_prime_spec n.toNat).1
    obtain ⟨tests, htest, hexact⟩ := is_prime_word (n := n) fuel (by omega) (by omega)
    have htested : (PrimeStep.tested n (isPrime n.toNat)).Exact := is_prime_iff n.toNat
    rw [nextPrimeWord, htest, ok_bind]
    by_cases hp : isPrime n.toNat = true
    · rw [hp] at htested ⊢
      rw [nextPrime, if_pos hp]
      refine ⟨n, tests ++ [.tested n true], rfl, rfl, ?_⟩
      simp only [List.forall_mem_append, List.forall_mem_singleton]
      exact ⟨hexact, htested⟩
    · have hfalse : isPrime n.toNat = false := Bool.eq_false_of_not_eq_true hp
      have hnext : nextPrime n.toNat = nextPrime (n.toNat + 1) := by rw [nextPrime, if_neg hp]
      have hlt := (next_prime_spec (n.toNat + 1)).1
      have hsucc : (n + 1#64).toNat = n.toNat + 1 := succ_to_nat (by omega)
      obtain ⟨p, rest, hrun, hvalue, hrest⟩ := ih (n := n + 1#64) (by rw [hsucc]; omega)
        (by rw [hsucc]; omega)
      have hincr : (PrimeStep.incr n).Exact := by
        show n.toNat + 1 < 2 ^ 64
        omega
      rw [hfalse] at htested ⊢
      rw [hsucc, ← hnext] at hvalue
      refine ⟨p, tests ++ .tested n false :: .incr n :: rest, by simp [hrun], hvalue, ?_⟩
      simp only [List.forall_mem_append, List.forall_mem_cons]
      exact ⟨hexact, htested, hincr, hrest⟩

end

/-- next_prime ends at the least prime, and neither a square nor an increment
wraps before it does. -/
theorem next_prime_is_least (n : Word) (hn : n.toNat < 2 ^ 62) :
    ∃ bound, ∀ fuel, bound ≤ fuel → ∃ p steps, nextPrimeWord fuel n = .ok (p, steps) ∧
      IsLeast {q | q.Prime ∧ n.toNat ≤ q} p.toNat ∧ ∀ step ∈ steps, step.Exact := by
  refine ⟨2 ^ 32 + (nextPrime n.toNat - n.toNat) + 1, ?_⟩
  intro fuel hfuel
  obtain ⟨p, steps, hrun, hvalue, hexact⟩ := next_prime_word (next_prime_lt hn) hfuel
  exact ⟨p, steps, hrun, hvalue ▸ next_prime_least n.toNat, hexact⟩

theorem next_prime_is_least_fourteen : (14#64).toNat < 2 ^ 62 ∧
    ∃ bound, ∀ fuel, bound ≤ fuel → ∃ p steps, nextPrimeWord fuel 14#64 = .ok (p, steps) ∧
      IsLeast {q | q.Prime ∧ 14 ≤ q} p.toNat ∧ ∀ step ∈ steps, step.Exact :=
  ⟨by decide, next_prime_is_least 14#64 (by decide)⟩

end Mepl
