import Mepl.Base.Digits
import Mepl.Scripts.Hashgen

namespace Mepl
open Base

def LowerWord (s : List Byte) : Prop := s ≠ [] ∧ ∀ c ∈ s, isLowerByte c = true

/-- No round of hash * 31 + c leaves size_t. -/
def NoWrap (hash : List Byte → BitVec 64) (s : List Byte) : Prop :=
  ∀ pre c, pre ++ [c] <+: s →
    0 ≤ charToInt c ∧ ((hash pre).toNat : Int) * 31 + charToInt c < 2 ^ 64

section
variable {s u v : List Byte} {c : Byte} {L : Nat}

theorem strhash_snoc (s : List Byte) (c : Byte) :
    strhash (s ++ [c]) = strhash s * 31#64 + BitVec.ofInt 64 (charToInt c) := by
  simp [strhash, HASH_MULT]

theorem lower_char (h : isLowerByte c = true) : charToInt c = c.toNat ∧ 97 ≤ c.toNat ∧
    c.toNat ≤ 122 := by
  simp only [isLowerByte, Bool.and_eq_true, decide_eq_true_eq] at h
  refine ⟨?_, h⟩
  rw [charToInt, BitVec.toInt_eq_toNat_of_lt]
  omega

theorem lower_digits (h : ∀ c ∈ s, isLowerByte c = true) :
    DigitsIn 97 122 (s.map BitVec.toNat) := by
  intro d hd
  obtain ⟨c, hc, rfl⟩ := List.mem_map.mp hd
  exact (lower_char (h c hc)).2

/-- The largest length at which no word can wrap. -/
theorem no_wrap_length (L : Nat) : 122 * (31 ^ L - 1) / 30 < 2 ^ 64 ↔ L ≤ 12 := by
  have hones : 122 * (31 ^ L - 1) / 30 = 122 * ones 31 L := by
    have hmul : 30 * ones 31 L + 1 = 31 ^ L := ones_mul 30 L
    rw [← hmul, Nat.add_sub_cancel, Nat.mul_left_comm, Nat.mul_div_cancel_left _ (by decide)]
  rw [hones]
  constructor
  · intro hlt
    by_contra hL
    have hmono : ones 31 13 ≤ ones 31 L := ones_mono (by decide) (Nat.lt_of_not_le hL)
    have hbig : 2 ^ 64 ≤ 122 * ones 31 13 := by decide
    omega
  · intro hL
    have hmono := ones_mono (b := 31) (by decide) hL
    have hsmall : 122 * ones 31 12 < 2 ^ 64 := by decide
    omega

theorem digits_fit (h : ∀ c ∈ s, isLowerByte c = true) (hlen : s.length ≤ 12) :
    digitsValue 31 (s.map BitVec.toNat) < 2 ^ 64 := by
  have hle := digits_value_le (b := 31) (lower_digits h)
  rw [List.length_map] at hle
  have hmono := ones_mono (b := 31) (by decide) hlen
  have hsmall : 122 * ones 31 12 < 2 ^ 64 := by decide
  omega

/-- The hash of a short word is the number its letters write. -/
theorem strhash_value (h : ∀ c ∈ s, isLowerByte c = true) (hlen : s.length ≤ 12) :
    (strhash s).toNat = digitsValue 31 (s.map BitVec.toNat) := by
  induction s using List.reverseRecOn with
  | nil => rfl
  | append_singleton s c ih =>
    have hfit := digits_fit h hlen
    have hs : ∀ x ∈ s, isLowerByte x = true := fun x hx => h x (List.mem_append_left _ hx)
    obtain ⟨hc, -⟩ := lower_char (h c (by simp))
    rw [List.length_append, List.length_singleton] at hlen
    rw [List.map_append, List.map_singleton, digits_value_snoc] at hfit ⊢
    have hvalue := ih hs (by omega)
    rw [strhash_snoc, hc, BitVec.toNat_add, BitVec.toNat_mul, hvalue, BitVec.ofInt_natCast,
      BitVec.toNat_ofNat, BitVec.toNat_ofNat]
    omega

theorem strhash_no_wrap (h : ∀ c ∈ s, isLowerByte c = true) (hlen : s.length ≤ 12) :
    NoWrap strhash s := by
  intro pre c hpre
  have hall : ∀ x ∈ pre ++ [c], isLowerByte x = true := fun x hx => h x (hpre.subset hx)
  have hle := hpre.length_le
  have hfit := digits_fit hall (by omega)
  have hs : ∀ x ∈ pre, isLowerByte x = true := fun x hx => hall x (List.mem_append_left _ hx)
  obtain ⟨hc, -⟩ := lower_char (hall c (by simp))
  rw [List.length_append, List.length_singleton] at hle
  rw [List.map_append, List.map_singleton, digits_value_snoc] at hfit
  rw [strhash_value hs (by omega), hc]
  omega

end

/-- Different words of up to 12 small letters have different hashes, and 12 is
the greatest length at which no hash wraps. -/
theorem strhash_separates : (∀ L, 122 * (31 ^ L - 1) / 30 < 2 ^ 64 ↔ L ≤ 12) ∧
    ∀ u v, LowerWord u → LowerWord v → u.length ≤ 12 → v.length ≤ 12 → u ≠ v →
      (NoWrap strhash u ∧ NoWrap strhash v) ∧ (NoWrap hashgenStrhash u ∧ NoWrap hashgenStrhash v) ∧
      strhash u ≠ strhash v ∧ hashgenStrhash u ≠ hashgenStrhash v := by
  refine ⟨no_wrap_length, ?_⟩
  rintro u v ⟨-, hu⟩ ⟨-, hv⟩ hlenu hlenv hne
  have hapart : strhash u ≠ strhash v := by
    intro h
    have hvalue := congrArg BitVec.toNat h
    rw [strhash_value hu hlenu, strhash_value hv hlenv] at hvalue
    apply digits_value_ne (by decide) (by decide) (by decide) (by decide) (lower_digits hu)
      (lower_digits hv) _ hvalue
    intro hmap
    exact hne (List.map_injective_iff.mpr (fun _ _ => BitVec.eq_of_toNat_eq) hmap)
  have hfits : NoWrap strhash u ∧ NoWrap strhash v :=
    ⟨strhash_no_wrap hu hlenu, strhash_no_wrap hv hlenv⟩
  have hsame : hashgenStrhash = strhash := funext hashgen_strhash
  rw [hsame]
  exact ⟨hfits, hfits, hapart, hapart⟩

end Mepl
