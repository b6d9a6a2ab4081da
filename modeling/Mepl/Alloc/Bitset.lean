import Mepl.Base.Bits
import Mepl.C.Machine

namespace Mepl
open Base

def BITSET_SHIFT : Nat := 6

def BITSET_WORD_IDX (i : Nat) : Nat := i >>> BITSET_SHIFT

def BITSET_BIT_IDX (i : Nat) : Nat := i &&& 0x3F

def BITSET_SIZE (size : Nat) : Nat := size >>> BITSET_SHIFT

/-- (bitset_t)-1 -/
def NO_BIT : Nat := 2 ^ 64 - 1

/-- A SIZE that passes the static_asserts of BITSET_DEF. -/
structure BitsetSize where
  size : Nat
  power : ∃ k, size = 2 ^ k
  words : 0 < BITSET_SIZE size

def wordFirstZero (w : BitVec 64) : Int :=
  let inv := ~~~w
  if inv = 0#64 then -1 else inv.ctz.toNat

/-- A set of slots, and the word where the search for a free one starts. -/
structure Bitset where
  set : List (BitVec 64)
  last : Nat
deriving DecidableEq, Repr

def bitsetInit (SIZE : BitsetSize) : Bitset := ⟨List.replicate (BITSET_SIZE SIZE.size) 0#64, 0⟩

/-- The rounds of first_zero from word i on. -/
def bitsetFirstZeroFrom (SIZE : BitsetSize) (bp : Bitset) : Nat → Nat → Res (Nat × Bitset)
  | 0, _ => pure (NO_BIT, bp)
  | n + 1, i => do
    let w ← load bp.set i
    let bit := wordFirstZero w
    if bit < 0 then bitsetFirstZeroFrom SIZE bp n (i + 1)
    else
      let idx := (i <<< BITSET_SHIFT) + bit.toNat
      if idx < SIZE.size then pure (idx, { bp with last := i })
      else bitsetFirstZeroFrom SIZE bp n (i + 1)

def bitsetFirstZero (SIZE : BitsetSize) (bp : Bitset) : Res (Nat × Bitset) :=
  bitsetFirstZeroFrom SIZE bp (BITSET_SIZE SIZE.size - bp.last) bp.last

def bitsetSet (bp : Bitset) (n : Nat) : Res Bitset := do
  let word := BITSET_WORD_IDX n
  let bit := BITSET_BIT_IDX n
  let w ← load bp.set word
  let set ← store bp.set word (setBit w bit)
  pure { bp with set }

def bitsetClear (bp : Bitset) (n : Nat) : Res Bitset := do
  let word := BITSET_WORD_IDX n
  let bit := BITSET_BIT_IDX n
  let w ← load bp.set word
  let set ← store bp.set word (clearBit w bit)
  pure { set, last := word }

theorem bitset_word_idx (i : Nat) : BITSET_WORD_IDX i = i / 64 := Nat.shiftRight_eq_div_pow i 6

theorem bitset_bit_idx (i : Nat) : BITSET_BIT_IDX i = i % 64 :=
  Nat.and_two_pow_sub_one_eq_mod i 6

theorem bitset_size (i : Nat) : BITSET_SIZE i = i / 64 := Nat.shiftRight_eq_div_pow i 6

/-- A power of two with a whole word has nothing but whole words. -/
theorem bitset_size_words (SIZE : BitsetSize) : 64 * BITSET_SIZE SIZE.size = SIZE.size := by
  obtain ⟨size, ⟨k, rfl⟩, hwords⟩ := SIZE
  rw [bitset_size] at hwords ⊢
  have hk : 6 ≤ k := by
    by_contra hlt
    have hpow : 2 ^ k < 2 ^ 6 := Nat.pow_lt_pow_right (by omega) (by omega)
    omega
  apply Nat.mul_div_cancel'
  exact Nat.pow_dvd_pow 2 hk

/-- A word with a clear bit has its first clear bit found, at or below it. -/
theorem word_first_zero_found {w : BitVec 64} {b : Nat} (hb : b < 64)
    (hclear : w.getLsbD b = false) :
    ∃ k ≤ b, wordFirstZero w = (k : Int) ∧ w.getLsbD k = false := by
  obtain ⟨hne, hle, hfirst⟩ := ctz_not_clear hb hclear
  exact ⟨_, hle, if_neg hne, hfirst⟩

/-- No clear bit is found, or one of the word's. -/
theorem word_first_zero_cases (w : BitVec 64) :
    wordFirstZero w = -1 ∨
      ∃ k : Nat, k < 64 ∧ wordFirstZero w = (k : Int) ∧ w.getLsbD k = false := by
  by_cases hz : ~~~w = 0#64
  · exact Or.inl (if_pos hz)
  · right
    have hfirst := BitVec.getLsbD_true_ctz_of_ne_zero hz
    simp only [BitVec.getLsbD_not, Bool.and_eq_true, Bool.not_eq_true', decide_eq_true_eq] at hfirst
    exact ⟨_, hfirst.1, if_neg hz, hfirst.2⟩

section
variable {SIZE : BitsetSize} {bp : Bitset} {f n i : Nat}

theorem bitset_first_zero_from (hlen : bp.set.length = BITSET_SIZE SIZE.size)
    (hn : i + n = BITSET_SIZE SIZE.size) (hi : 64 * i ≤ f) (hf : f < SIZE.size)
    (hclear : hasBit bp.set f = false) :
    ∃ idx ≤ f, bitsetFirstZeroFrom SIZE bp n i = .ok (idx, { bp with last := idx / 64 }) ∧
      hasBit bp.set idx = false := by
  have hwords := bitset_size_words SIZE
  induction n generalizing i with
  | zero => omega
  | succ n ih =>
    have hlt : i < bp.set.length := by omega
    rw [bitsetFirstZeroFrom, load_lt hlt, ok_bind]
    have hbit : ∀ k < 64, hasBit bp.set (64 * i + k) = bp.set[i].getLsbD k := by
      intro k hk
      have hdiv : (64 * i + k) / 64 = i := by omega
      have hmod : (64 * i + k) % 64 = k := by omega
      simp [hasBit, hdiv, hmod, hlt]
    have hsame : f / 64 = i → ∃ k ≤ f % 64, wordFirstZero bp.set[i] = (k : Int) := by
      intro he
      have hsplit : f = 64 * i + f % 64 := by omega
      rw [hsplit, hbit _ (Nat.mod_lt f (by omega))] at hclear
      obtain ⟨k, hk, hfound, -⟩ := word_first_zero_found (Nat.mod_lt f (by omega)) hclear
      exact ⟨k, hk, hfound⟩
    rcases word_first_zero_cases bp.set[i] with hnone | ⟨k, hk, hfound, hfirst⟩
    · have hnext : 64 * (i + 1) ≤ f := by
        by_contra hgt
        obtain ⟨k, -, hk⟩ := hsame (by omega)
        rw [hnone] at hk
        omega
      obtain ⟨idx, hidx, hrun, hfree⟩ := ih (by omega) hnext
      refine ⟨idx, hidx, ?_, hfree⟩
      rw [hnone, if_pos (by omega), hrun]
    · have hidx : (i <<< BITSET_SHIFT) + (k : Int).toNat = 64 * i + k := by
        rw [Nat.shiftLeft_eq, Int.toNat_natCast, Nat.mul_comm]
        rfl
      have hsize : 64 * i + k < SIZE.size := by omega
      have hdiv : (64 * i + k) / 64 = i := by omega
      have hle : 64 * i + k ≤ f := by
        by_contra hgt
        obtain ⟨j, hj, hfound'⟩ := hsame (by omega)
        rw [hfound] at hfound'
        omega
      refine ⟨64 * i + k, hle, ?_, (hbit k hk).trans hfirst⟩
      rw [hfound, if_neg (by omega), hidx, if_pos hsize, hdiv]
      rfl

/-- With a clear bit at or past the word searched from, a clear bit no later
than it is found. -/
theorem bitset_first_zero (hlen : bp.set.length = BITSET_SIZE SIZE.size)
    (hlast : 64 * bp.last ≤ f) (hf : f < SIZE.size) (hclear : hasBit bp.set f = false) :
    ∃ idx ≤ f, bitsetFirstZero SIZE bp = .ok (idx, { bp with last := idx / 64 }) ∧
      hasBit bp.set idx = false := by
  have hwords := bitset_size_words SIZE
  exact bitset_first_zero_from hlen (by omega) hlast hf hclear

theorem bitset_set {b : Bitset} (hn : n / 64 < b.set.length) :
    bitsetSet b n =
      .ok { b with set := b.set.set (n / 64) (setBit b.set[n / 64] (n % 64)) } := by
  simp [bitsetSet, bitset_word_idx, bitset_bit_idx, load_lt hn, store_lt hn]

theorem bitset_clear (hn : n / 64 < bp.set.length) :
    bitsetClear bp n =
      .ok ⟨bp.set.set (n / 64) (clearBit bp.set[n / 64] (n % 64)), n / 64⟩ := by
  simp [bitsetClear, bitset_word_idx, bitset_bit_idx, load_lt hn, store_lt hn]

end

end Mepl
