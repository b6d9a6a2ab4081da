import Mepl.Ptrset.HashGrowth

namespace Mepl
open Base

section
variable {links : List (Option Hlink)} {p : Ptr} {ks : List Nat} {n : Nat} {hp hp' : Hash}
  {chains : List (List Nat)} {added : List Word} {ptr : Word}

/-- The sizes of the tables of a run: 2, or no less than 5. -/
structure StatRun (hp : Hash) (added : List Word) : Prop where
  holds : HashHolds hp added
  cap : hp.cap = 2 ∨ 5 ≤ hp.cap

theorem StatRun.set (ptr : Word) (h : StatRun hp added) :
    ∃ hp', hashSet hp ptr = .ok hp' ∧ StatRun hp' (added ++ [ptr]) := by
  obtain ⟨hp', hset, hholds⟩ := h.holds.set ptr
  obtain ⟨chains, hok, -⟩ := h.holds
  obtain ⟨ks, -, hsizes⟩ := hok.set_sizes hset
  refine ⟨hp', hset, hholds, ?_⟩
  have hcap := h.cap
  generalize ks.length = moved at hsizes
  cases hsizes with
  | found same => exact same ▸ hcap
  | room light cap len => rwa [cap]
  | grown heavy cap len =>
    obtain ⟨hlower, -⟩ := next_prime_twice hok.prime.two_le
    exact Or.inr (by omega)

end

end Mepl
