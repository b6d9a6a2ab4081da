import Mathlib.Algebra.Order.Ring.Nat
import Mathlib.Data.Finset.Card

namespace Mepl.Base

/-- Bit b of a word set, and cleared. -/
def setBit (w : BitVec 64) (b : Nat) : BitVec 64 := w ||| 1#64 <<< b

def clearBit (w : BitVec 64) (b : Nat) : BitVec 64 := w &&& ~~~(1#64 <<< b)

/-- Whether i is in the set; what is past the words is not. -/
def hasBit (ws : List (BitVec 64)) (i : Nat) : Bool := (ws.getD (i / 64) 0#64).getLsbD (i % 64)

/-- The numbers below size that are not in the set. -/
def clearBits (ws : List (BitVec 64)) (size : Nat) : Finset Nat :=
  (Finset.range size).filter (fun i => hasBit ws i = false)

section
variable {w : BitVec 64} {ws : List (BitVec 64)} {b i n size : Nat}

theorem set_bit_get (w : BitVec 64) (hi : i < 64) :
    (setBit w b).getLsbD i = (w.getLsbD i || decide (i = b)) := by
  by_cases hb : i = b
  · simp [setBit, hb, hb ▸ hi]
  · by_cases hlt : i < b
    · simp [setBit, hb, hlt]
    · have hsub : i - b ≠ 0 := by omega
      simp [setBit, hb, hsub]

theorem clear_bit_get (w : BitVec 64) (hi : i < 64) :
    (clearBit w b).getLsbD i = (w.getLsbD i && !decide (i = b)) := by
  by_cases hb : i = b
  · simp [clearBit, hb, hb ▸ hi]
  · by_cases hlt : i < b
    · simp [clearBit, hb, hlt, hi]
    · have hsub : i - b ≠ 0 := by omega
      simp [clearBit, hb, hsub, hi]

theorem word_bit_eq : i = n ↔ i / 64 = n / 64 ∧ i % 64 = n % 64 := by omega

theorem has_bit_set_word {v : BitVec 64} (hn : n / 64 < ws.length) :
    hasBit (ws.set (n / 64) v) i =
      if i / 64 = n / 64 then v.getLsbD (i % 64) else hasBit ws i := by
  by_cases hi : i / 64 = n / 64
  · simp [hasBit, hi, hn]
  · have hne : n / 64 ≠ i / 64 := fun he => hi he.symm
    simp [hasBit, hi, hne]

theorem has_bit_set (hn : n / 64 < ws.length) :
    hasBit (ws.set (n / 64) (setBit ws[n / 64] (n % 64))) i = (hasBit ws i || decide (i = n)) := by
  rw [has_bit_set_word hn]
  by_cases hi : i / 64 = n / 64
  · simp [hasBit, hi, hn, set_bit_get ws[n / 64] (Nat.mod_lt i (by omega)), word_bit_eq (i := i)]
  · have hne : i ≠ n := fun he => hi (by rw [he])
    simp [hi, hne]

theorem has_bit_clear (hn : n / 64 < ws.length) :
    hasBit (ws.set (n / 64) (clearBit ws[n / 64] (n % 64))) i =
      (hasBit ws i && !decide (i = n)) := by
  rw [has_bit_set_word hn]
  by_cases hi : i / 64 = n / 64
  · simp [hasBit, hi, hn, clear_bit_get ws[n / 64] (Nat.mod_lt i (by omega)), word_bit_eq (i := i)]
  · have hne : i ≠ n := fun he => hi (by rw [he])
    simp [hi, hne]

@[simp] theorem has_bit_replicate (k i : Nat) : hasBit (List.replicate k 0#64) i = false := by
  simp [hasBit, List.getD_eq_getElem?_getD, List.getElem?_replicate]
  split <;> simp

@[simp] theorem mem_clear_bits : i ∈ clearBits ws size ↔ i < size ∧ hasBit ws i = false := by
  simp [clearBits]

theorem clear_bits_replicate (k size : Nat) :
    (clearBits (List.replicate k 0#64) size).card = size := by
  simp [clearBits]

/-- Setting a clear bit leaves one clear bit less. -/
theorem clear_bits_set (hn : n / 64 < ws.length) (hsize : n < size)
    (hclear : hasBit ws n = false) :
    (clearBits (ws.set (n / 64) (setBit ws[n / 64] (n % 64))) size).card + 1 =
      (clearBits ws size).card := by
  have herase : clearBits (ws.set (n / 64) (setBit ws[n / 64] (n % 64))) size =
      (clearBits ws size).erase n := by
    ext i
    simp only [mem_clear_bits, has_bit_set hn, Bool.or_eq_false_iff, decide_eq_false_iff_not,
      Finset.mem_erase]
    exact ⟨fun h => ⟨h.2.2, h.1, h.2.1⟩, fun h => ⟨h.2.1, h.2.2, h.1⟩⟩
  rw [herase]
  exact Finset.card_erase_add_one (mem_clear_bits.mpr ⟨hsize, hclear⟩)

/-- Clearing a set bit leaves one clear bit more. -/
theorem clear_bits_clear (hn : n / 64 < ws.length) (hsize : n < size)
    (hset : hasBit ws n = true) :
    (clearBits (ws.set (n / 64) (clearBit ws[n / 64] (n % 64))) size).card =
      (clearBits ws size).card + 1 := by
  have hinsert : clearBits (ws.set (n / 64) (clearBit ws[n / 64] (n % 64))) size =
      insert n (clearBits ws size) := by
    ext i
    simp only [mem_clear_bits, has_bit_clear hn, Finset.mem_insert]
    by_cases hi : i = n
    · simp [hi, hsize]
    · simp [hi]
  rw [hinsert]
  exact Finset.card_insert_of_notMem (by simp [hset])

/-- Where a word has a clear bit, the first one of its complement is it. -/
theorem ctz_not_clear (hb : b < 64) (hclear : w.getLsbD b = false) :
    ~~~w ≠ 0#64 ∧ (~~~w).ctz.toNat ≤ b ∧ w.getLsbD (~~~w).ctz.toNat = false := by
  have hbit : (~~~w).getLsbD b = true := by
    rw [BitVec.getLsbD_not, hclear]
    simp [hb]
  have hne : ~~~w ≠ 0#64 := by
    intro hz
    rw [hz] at hbit
    simp at hbit
  have hle : (~~~w).ctz.toNat ≤ b := by
    by_contra hgt
    have hlow := BitVec.getLsbD_false_of_lt_ctz (Nat.lt_of_not_le hgt)
    rw [hbit] at hlow
    exact Bool.noConfusion hlow
  have hfirst := BitVec.getLsbD_true_ctz_of_ne_zero hne
  simp only [BitVec.getLsbD_not, Bool.and_eq_true, Bool.not_eq_true'] at hfirst
  exact ⟨hne, hle, hfirst.2⟩

end

end Mepl.Base
