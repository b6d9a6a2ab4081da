import Mepl.Alloc.Bitset

namespace Mepl
open Base

inductive BitsetOp (size : Nat) where
  | set (n : Fin size)
  | clear (n : Fin size)
  | firstZero

/-- A call of first_zero: the set it was made on, and what it returned. -/
structure FirstZeroCall where
  bp : Bitset
  idx : Nat
deriving DecidableEq, Repr

def bitsetCalls (SIZE : BitsetSize) (bp : Bitset) :
    List (BitsetOp SIZE.size) → Res (Bitset × List FirstZeroCall)
  | [] => pure (bp, [])
  | .set n :: ops => do
    let bp ← bitsetSet bp n
    bitsetCalls SIZE bp ops
  | .clear n :: ops => do
    let bp ← bitsetClear bp n
    bitsetCalls SIZE bp ops
  | .firstZero :: ops => do
    let (idx, bp') ← bitsetFirstZero SIZE bp
    let (last, calls) ← bitsetCalls SIZE bp' ops
    pure (last, ⟨bp, idx⟩ :: calls)

def bitsetRun (SIZE : BitsetSize) (ops : List (BitsetOp SIZE.size)) :
    Res (Bitset × List FirstZeroCall) :=
  bitsetCalls SIZE (bitsetInit SIZE) ops

/-- A clear bit is found if there is one, and (bitset_t)-1 says there is none. -/
structure FirstZeroRight (size : Nat) (c : FirstZeroCall) : Prop where
  found : (∃ i < size, hasBit c.bp.set i = false) → c.idx < size ∧ hasBit c.bp.set c.idx = false
  full : c.idx = NO_BIT → ∀ i < size, hasBit c.bp.set i = true

/-- If a bit is clear, one in the word last or in a later one is. -/
def LastReaches (size : Nat) (bp : Bitset) : Prop :=
  (∃ i < size, hasBit bp.set i = false) → ∃ i < size, bp.last ≤ i / 64 ∧ hasBit bp.set i = false

section
variable {SIZE : BitsetSize} {bp : Bitset} {i n : Nat}

/-- With every bit from word i on set, the rounds from there find nothing. -/
theorem bitset_first_zero_from_none (hlen : bp.set.length = BITSET_SIZE SIZE.size)
    (hn : n = BITSET_SIZE SIZE.size - i)
    (hset : ∀ j < SIZE.size, i ≤ j / 64 → hasBit bp.set j = true) :
    bitsetFirstZeroFrom SIZE bp n i = .ok (NO_BIT, bp) := by
  have hwords := bitset_size_words SIZE
  induction n generalizing i with
  | zero => rfl
  | succ n ih =>
    have hlt : i < bp.set.length := by omega
    have hfull : wordFirstZero bp.set[i] = -1 := by
      rcases word_first_zero_cases bp.set[i] with hnone | ⟨k, hk, -, hclear⟩
      · exact hnone
      · have hdiv : (64 * i + k) / 64 = i := by omega
        have hmod : (64 * i + k) % 64 = k := by omega
        have hbit := hset (64 * i + k) (by omega) (by omega)
        simp [hasBit, hdiv, hmod, hlt, hclear] at hbit
    rw [bitsetFirstZeroFrom, load_lt hlt, ok_bind, hfull, if_pos (by omega)]
    apply ih (by omega)
    intro j hj hle
    exact hset j hj (by omega)

/-- A call answers right exactly when its search does not start too late. -/
theorem bitset_first_zero_right (hsize : SIZE.size < 2 ^ 64)
    (hlen : bp.set.length = BITSET_SIZE SIZE.size) :
    ∃ idx bp', bitsetFirstZero SIZE bp = .ok (idx, bp') ∧ bp'.set = bp.set ∧
      (FirstZeroRight SIZE.size ⟨bp, idx⟩ ↔ LastReaches SIZE.size bp) := by
  have hwords := bitset_size_words SIZE
  by_cases hclear : ∃ i < SIZE.size, bp.last ≤ i / 64 ∧ hasBit bp.set i = false
  · obtain ⟨f, hf, hlast, hbit⟩ := hclear
    obtain ⟨idx, hidx, hrun, hfree⟩ := bitset_first_zero hlen (by omega) hf hbit
    refine ⟨idx, _, hrun, rfl, fun _ _ => ⟨f, hf, hlast, hbit⟩, fun _ => ⟨?_, ?_⟩⟩
    · intro _
      have hlt : idx < SIZE.size := by omega
      exact ⟨hlt, hfree⟩
    · intro hnone
      simp only [NO_BIT] at hnone
      omega
  · have hrun : bitsetFirstZero SIZE bp = .ok (NO_BIT, bp) := by
      apply bitset_first_zero_from_none hlen rfl
      intro j hj hle
      by_contra hbit
      exact hclear ⟨j, hj, hle, by simpa using hbit⟩
    refine ⟨NO_BIT, bp, hrun, rfl, ?_, ?_⟩
    · intro hright hany
      have hfound := (hright.found hany).1
      simp only [NO_BIT] at hfound
      omega
    · intro hreach
      have hall : ∀ i < SIZE.size, hasBit bp.set i = true := by
        intro i hi
        by_contra hbit
        exact hclear (hreach ⟨i, hi, by simpa using hbit⟩)
      refine ⟨?_, fun _ => hall⟩
      rintro ⟨i, hi, hbit⟩
      rw [hall i hi] at hbit
      cases hbit

theorem bitset_set_length {n : Fin SIZE.size} (hlen : bp.set.length = BITSET_SIZE SIZE.size) :
    ∃ bp', bitsetSet bp n = .ok bp' ∧ bp'.set.length = BITSET_SIZE SIZE.size := by
  have hwords := bitset_size_words SIZE
  have hn := n.isLt
  exact ⟨_, bitset_set (by omega), by simpa using hlen⟩

theorem bitset_clear_length {n : Fin SIZE.size} (hlen : bp.set.length = BITSET_SIZE SIZE.size) :
    ∃ bp', bitsetClear bp n = .ok bp' ∧ bp'.set.length = BITSET_SIZE SIZE.size := by
  have hwords := bitset_size_words SIZE
  have hn := n.isLt
  exact ⟨_, bitset_clear (by omega), by simpa using hlen⟩

theorem bitset_calls_right (hsize : SIZE.size < 2 ^ 64) (ops : List (BitsetOp SIZE.size))
    (hlen : bp.set.length = BITSET_SIZE SIZE.size) :
    ∃ bp' calls, bitsetCalls SIZE bp ops = .ok (bp', calls) ∧
      ∀ c ∈ calls, FirstZeroRight SIZE.size c ↔ LastReaches SIZE.size c.bp := by
  induction ops generalizing bp with
  | nil => exact ⟨bp, [], rfl, by simp⟩
  | cons op ops ih =>
    cases op with
    | set n =>
      obtain ⟨bp', hrun, hlen'⟩ := bitset_set_length (n := n) hlen
      rw [bitsetCalls, hrun]
      exact ih hlen'
    | clear n =>
      obtain ⟨bp', hrun, hlen'⟩ := bitset_clear_length (n := n) hlen
      rw [bitsetCalls, hrun]
      exact ih hlen'
    | firstZero =>
      obtain ⟨idx, bp', hrun, hset, hright⟩ := bitset_first_zero_right hsize hlen
      obtain ⟨last, calls, hrest, hcalls⟩ := ih (hset ▸ hlen)
      refine ⟨last, ⟨bp, idx⟩ :: calls, ?_, ?_⟩
      · simp only [bitsetCalls, hrun, ok_bind, hrest, pure_ok]
      · intro c hc
        rcases List.mem_cons.mp hc with rfl | hc
        · exact hright
        · exact hcalls c hc

end

/-- Every run returns from all its calls, and those of first_zero all answer
right exactly when each of them is made with a clear bit in the word last or
later, or with none. -/
theorem first_zero_right_iff (SIZE : BitsetSize) (hsize : SIZE.size < 2 ^ 64)
    (ops : List (BitsetOp SIZE.size)) :
    ∃ bp calls, bitsetRun SIZE ops = .ok (bp, calls) ∧
      ((∀ c ∈ calls, FirstZeroRight SIZE.size c) ↔ ∀ c ∈ calls, LastReaches SIZE.size c.bp) := by
  have hlen : (bitsetInit SIZE).set.length = BITSET_SIZE SIZE.size := List.length_replicate ..
  obtain ⟨bp, calls, hrun, hcalls⟩ := bitset_calls_right hsize ops hlen
  exact ⟨bp, calls, hrun, forall₂_congr hcalls⟩

def bitsetSize64 : BitsetSize := ⟨64, ⟨6, rfl⟩, by decide⟩

def bitsetSize128 : BitsetSize := ⟨128, ⟨7, rfl⟩, by decide⟩

theorem first_zero_right_iff_64 : bitsetSize64.size < 2 ^ 64 ∧
    ∃ bp calls, bitsetRun bitsetSize64 [.set ⟨0, by decide⟩, .firstZero] = .ok (bp, calls) ∧
      ((∀ c ∈ calls, FirstZeroRight bitsetSize64.size c) ↔
        ∀ c ∈ calls, LastReaches bitsetSize64.size c.bp) :=
  ⟨by decide, first_zero_right_iff bitsetSize64 (by decide) _⟩

/-- A bit of the second word is cleared and the word then filled. -/
def fillSecondWord : List (BitsetOp bitsetSize128.size) :=
  .clear ⟨64, by decide⟩ ::
    (List.finRange 64).map (fun i => .set ⟨64 + i, Nat.add_lt_add_left i.isLt 64⟩) ++ [.firstZero]

/-- The first word, all of it clear, is not looked at. -/
theorem first_zero_past_clear : ∃ bp c, bitsetRun bitsetSize128 fillSecondWord = .ok (bp, [c]) ∧
    ¬ FirstZeroRight bitsetSize128.size c := by
  let bp : Bitset := ⟨[0#64, ~~~0#64], 1⟩
  refine ⟨bp, ⟨bp, NO_BIT⟩, by decide +kernel, ?_⟩
  intro hright
  have hclear : hasBit bp.set 0 = false := by decide
  have hset : hasBit bp.set 0 = true := hright.full rfl 0 (by decide)
  rw [hclear] at hset
  cases hset

end Mepl
