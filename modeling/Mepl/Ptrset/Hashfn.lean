import Mepl.Base.Words
import Mepl.Ptrset.HashRuns

namespace Mepl
open Base

/-- The shifts and additions of hashfn are multiplications by odd numbers. -/
theorem hashfn_steps (seed : Word) : hashfn seed =
    (· * 2147483649#64) ∘ xorShift 28 ∘ (· * 21#64) ∘ xorShift 14 ∘ (· * 265#64) ∘ xorShift 24 ∘
      (· + -1#64) ∘ (· * 2097151#64) ∘ (· ^^^ seed) := by
  have hnot : ∀ h : Word, ~~~h + (h <<< 21) = h * 2097151#64 + -1#64 := fun h => by bv_omega
  have hadd₁ : ∀ h : Word, h + (h <<< 3) + (h <<< 8) = h * 265#64 := fun h => by bv_omega
  have hadd₂ : ∀ h : Word, h + (h <<< 2) + (h <<< 4) = h * 21#64 := fun h => by bv_omega
  have hadd₃ : ∀ h : Word, h + (h <<< 31) = h * 2147483649#64 := fun h => by bv_omega
  funext ptr
  simp only [hashfn, hnot, hadd₁, hadd₂, hadd₃, Function.comp_apply, xorShift]

theorem hashfn_mixes (seed : Word) : Function.Bijective (hashfn seed) := by
  have hinv₀ : 2097151#64 * 9223367638806167551#64 = 1#64 := rfl
  have hinv₁ : 265#64 * 15244667743933553977#64 = 1#64 := rfl
  have hinv₂ : 21#64 * 14933078535860113213#64 = 1#64 := rfl
  have hinv₃ : 2147483649#64 * 4611686016279904257#64 = 1#64 := rfl
  have h₀ := (add_bijective (-1#64)).comp ((mul_bijective hinv₀).comp (xor_bijective seed))
  have h₁ := (mul_bijective hinv₁).comp ((xor_shift_bijective (s := 24) (by decide)).comp h₀)
  have h₂ := (mul_bijective hinv₂).comp ((xor_shift_bijective (s := 14) (by decide)).comp h₁)
  rw [hashfn_steps]
  exact (mul_bijective hinv₃).comp ((xor_shift_bijective (s := 28) (by decide)).comp h₂)

/-- hashfn is a bijection, and in no table do links of different pointers have
the same hash: where they share a bucket, the reduction has made them. -/
theorem hashfn_bijective (seed : Word) (ptrs : List Word) : Function.Bijective (hashfn seed) ∧
    ∃ hp, hashRun seed ptrs = .ok hp ∧ ∀ i j link link', linkAt hp.links i = some link →
      linkAt hp.links j = some link' → link.ptr ≠ link'.ptr → link.hash ≠ link'.hash := by
  obtain ⟨hp, hrun, chains, h, -⟩ :=
    fold_keeps (P := HashHolds) (fun ptr h => h.set ptr) ptrs (hash_new_holds seed)
  refine ⟨hashfn_mixes seed, hp, hrun, ?_⟩
  intro i j link link' hi hj hne hsame
  rw [h.hashed i link hi, h.hashed j link' hj] at hsame
  exact hne ((hashfn_mixes hp.seed).injective hsame)

end Mepl
