import Mepl.Buf.Strings

namespace Mepl
open Base

section
variable {σ : Type} (getc : σ → Res (Int × σ))

/-- The loop of buf_test: the characters handed to fputc, which writes each as
an unsigned char. -/
def bufTest : Nat → σ → Res (List Byte × σ)
  | 0, _ => .error .fuel
  | n + 1, b => do
    let (c, b) ← getc b
    if c = BUF_EOF then pure ([], b)
    else
      let (copy, b) ← bufTest n b
      pure (intToChar c :: copy, b)

end

/-- The loop copies what the source gives before the first BUF_EOF. -/
theorem bufTest_serves {σ : Type} {getc : σ → Res (Int × σ)} {R : σ → List Int → Prop}
    (h : Serves getc BUF_EOF R) {b : σ} {vs : List Int} (hr : R b vs) {fuel : Nat}
    (hf : vs.length < fuel) :
    ∃ b', bufTest getc fuel b = .ok ((vs.takeWhile (· != BUF_EOF)).map intToChar, b') := by
  induction fuel generalizing b vs with
  | zero => exact absurd hf (Nat.not_lt_zero _)
  | succ n ih =>
    obtain ⟨b', hg, hr'⟩ := h b vs hr
    cases vs with
    | nil => exact ⟨b', by simp [bufTest, hg]⟩
    | cons v vs =>
      by_cases hv : v = BUF_EOF
      · exact ⟨b', by simp [bufTest, hg, hv]⟩
      · obtain ⟨b'', hb⟩ := ih hr' (by simpa using hf)
        simp only [List.tail_cons] at hb
        exact ⟨b'', by simp [bufTest, hg, hv, hb]⟩

theorem copied_eq_iff (w : List Byte) :
    ((w.map charToInt).takeWhile (· != BUF_EOF)).map intToChar = w ↔ 0xff#8 ∉ w := by
  induction w with
  | nil => simp
  | cons b w ih =>
    by_cases hb : charToInt b = BUF_EOF
    · have hf : b = 0xff#8 := (char_to_int_eof b).mp hb
      subst hf
      simp [hb]
    · have hf : ¬ 0xff#8 = b := fun he => hb ((char_to_int_eof b).mpr he.symm)
      simp [hb, hf, ih]

/-- The loop over a buf_nstr runs once for every byte of w and copies w. -/
def CopiesWhole (w : List Byte) : Prop :=
  ∀ fuel, w.length < fuel →
    ∃ b, bufTest bufNstrGetc fuel (bufNstrInit w w.length) = .ok (w, b)

/-- The loop always ends; it ends with the whole of w exactly when no byte of
w is the one that reads as BUF_EOF. -/
theorem nstr_copies_whole_iff (w : List Byte) : CopiesWhole w ↔ 0xff#8 ∉ w := by
  have hrun : ∀ fuel, w.length < fuel → ∃ b, bufTest bufNstrGetc fuel
      (bufNstrInit w w.length) =
        .ok (((w.map charToInt).takeWhile (· != BUF_EOF)).map intToChar, b) :=
    fun fuel hf => bufTest_serves nstr_serves (nstr_init_serves w) (by simpa using hf)
  rw [← copied_eq_iff]
  constructor
  · intro h
    obtain ⟨b, hb⟩ := h _ (Nat.lt_succ_self _)
    obtain ⟨b', hb'⟩ := hrun _ (Nat.lt_succ_self _)
    rw [hb] at hb'
    exact (Prod.mk.inj (Except.ok.inj hb')).1.symm
  · intro he fuel hf
    obtain ⟨b, hb⟩ := hrun fuel hf
    exact ⟨b, by rw [hb, he]⟩

/-- "a", the byte 0xff, "b": the copy stops after the first character. -/
theorem nstr_copy_stops_early : ¬ CopiesWhole [97#8, 0xff#8, 98#8] := by
  intro h
  obtain ⟨b, hb⟩ := h 4 (by decide)
  have hc : (bufTest bufNstrGetc 4 (bufNstrInit [97#8, 0xff#8, 98#8]
      [97#8, 0xff#8, 98#8].length)).map Prod.fst = .ok [97#8] := by decide
  rw [hb] at hc
  exact absurd (Except.ok.inj hc) (by simp)

end Mepl
