import Mathlib.Algebra.Order.Ring.Nat
import Mepl.Buf.UnixCuts

namespace Mepl
open Base

/-- Any two sizes of the stdio array give the same values. -/
def StdioSizeFree (w : List Byte) : Prop :=
  ∀ d e, 2 ≤ d → 2 ≤ e → ∀ n, stdioValues d w n = stdioValues e w n

/-- A NUL is only ever the first character, or the first after a newline. -/
def StdioSafe (w : List Byte) : Prop :=
  ∀ a b, w = a ++ 0#8 :: b → a = [] ∨ a.getLast? = some 10#8

/-- Within a line only the last character can be a newline. -/
theorem lineOf_newline {n : Nat} {w p q : List Byte} {c d : Byte}
    (h : lineOf n w = p ++ c :: d :: q) : c ≠ 10#8 := by
  induction n generalizing w p with
  | zero => simp [lineOf] at h
  | succ n ih =>
    cases w with
    | nil => simp [lineOf] at h
    | cons b w =>
      by_cases hb : b = 10#8
      · cases p <;> simp [lineOf, hb] at h
      · simp only [lineOf, if_neg hb] at h
        cases p with
        | nil =>
          rw [← (List.cons.inj h).1]
          exact hb
        | cons x p => exact ih (List.cons.inj h).2

/-- A line that stops short of the content and of the room ends in a newline. -/
theorem lineOf_last {n : Nat} {w : List Byte} (hn : w.length < n)
    (hd : w.drop (lineOf n w).length ≠ []) : (lineOf n w).getLast? = some 10#8 := by
  induction n generalizing w with
  | zero => exact absurd hn (Nat.not_lt_zero _)
  | succ n ih =>
    cases w with
    | nil => simp [lineOf] at hd
    | cons b w =>
      by_cases hb : b = 10#8
      · simp [lineOf, hb]
      · simp only [lineOf, if_neg hb, List.length_cons, List.drop_succ_cons] at hd ⊢
        have ht := ih (by simpa using hn) hd
        rw [List.getLast?_cons, ht]
        rfl

theorem linesOf_length {n : Nat} (w : List Byte) : ∀ l ∈ linesOf n w, l.length ≤ n := by
  induction w using linesOf.induct n with
  | case1 w h => rw [linesOf, h]; simp
  | case2 w b bs h ih =>
    rw [linesOf, h]
    intro l hl
    rcases List.mem_cons.mp hl with rfl | hl
    · exact h ▸ lineOf_length n w
    · exact ih l hl

/-- In a safe content no line has a NUL after its first character. -/
theorem StdioSafe.lines {n : Nat} {w : List Byte} (h : StdioSafe w) :
    ∀ l ∈ linesOf n w, 0#8 ∉ l.tail := by
  induction w using linesOf.induct n with
  | case1 w hl => rw [linesOf, hl]; simp
  | case2 w b bs hl ih =>
    have hw : w = b :: bs ++ w.drop (b :: bs).length := by
      conv => lhs; rw [← lineOf_append n w, hl]
    rw [linesOf, hl]
    intro l hm
    rcases List.mem_cons.mp hm with rfl | hm
    · intro hz
      obtain ⟨p, q, he⟩ := List.append_of_mem hz
      rw [List.tail_cons] at he
      rw [he] at hw hl
      rcases h (b :: p) (q ++ w.drop (b :: (p ++ 0#8 :: q)).length) (by simpa using hw) with hn | hn
      · exact absurd hn (by simp)
      · obtain ⟨r, hr⟩ := List.getLast?_eq_some_iff.mp hn
        have hl' : lineOf n w = r ++ 10#8 :: 0#8 :: q := by
          rw [hl, ← List.cons_append, hr]
          simp
        exact lineOf_newline hl' rfl
    · refine ih ?_ l hm
      intro a c he
      rcases h (b :: bs ++ a) c (by rw [hw, he, List.append_assoc]) with hn | hn
      · exact absurd hn (by simp)
      · rcases Decidable.em (a = []) with ha | ha
        · exact Or.inl ha
        · right
          rwa [List.getLast?_append_of_ne_nil _ ha] at hn

/-- Conversely, whole lines without a NUL after their first character. -/
theorem stdio_safe_of_lines {n : Nat} {w : List Byte} (hn : w.length < n)
    (h : ∀ l ∈ linesOf n w, 0#8 ∉ l.tail) : StdioSafe w := by
  induction w using linesOf.induct n with
  | case1 w hl =>
    have : w = [] := by
      by_contra hc
      exact lineOf_ne_nil (by omega) hc hl
    subst this
    intro a b he
    simp at he
  | case2 w b bs hl ih =>
    have hw : w = b :: bs ++ w.drop (b :: bs).length := by
      conv => lhs; rw [← lineOf_append n w, hl]
    rw [linesOf, hl] at h
    have hrest := ih (by rw [List.length_drop]; omega) (fun l hm => h l (List.mem_cons_of_mem _ hm))
    intro a c he
    rw [hw] at he
    rcases List.append_eq_append_iff.mp he with ⟨d, ha, hd⟩ | ⟨d, hd, ha⟩
    · rcases hrest d c hd with rfl | hlast
      · -- the NUL starts the next line
        right
        have := lineOf_last hn (by rw [hl, hd]; simp)
        rwa [ha, List.append_nil, ← hl]
      · right
        rw [ha, List.getLast?_append, hlast]
        rfl
    · cases d with
      | nil =>
        rw [List.append_nil] at hd
        right
        rw [← hd, ← hl]
        exact lineOf_last hn (by rw [hl, ← List.nil_append (w.drop _), ← ha]; simp)
      | cons x d =>
        obtain ⟨rfl, _⟩ := List.cons.inj ha
        cases a with
        | nil => exact Or.inl rfl
        | cons y a =>
          obtain ⟨_, hbs⟩ := List.cons.inj hd
          exact absurd (by simp [hbs]) (h (b :: bs) List.mem_cons_self)

theorem stdio_free_of_safe {w : List Byte} (h : StdioSafe w) : StdioSizeFree w := by
  have hvalues : ∀ d, 2 ≤ d → ∀ n,
      stdioValues d w n = .ok (upTo BUF_EOF (w.map charToInt) n) := by
    intro d hd n
    have hline : ∀ bs ∈ linesOf (d - 1) w, stdioLine bs = bs.map charToInt :=
      fun bs hb => stdioLine_whole (h.lines bs hb)
    rw [stdioValues_eq hd, flatMap_whole hline, linesOf_flatten (by omega)]
  intro d e hd he n
  rw [hvalues d hd, hvalues e he]

theorem char_to_int_zero (b : Byte) : charToInt b = 0 ↔ b = 0#8 := by
  constructor
  · intro h
    exact BitVec.toInt_inj.mp h
  · intro hin
    subst hin
    rfl

theorem zeros_map (bs : List Byte) : (bs.map charToInt).count 0 = bs.count 0#8 := by
  induction bs with
  | nil => rfl
  | cons b bs ih => simp [List.count_cons, ih, char_to_int_zero]

/-- What a line loses are its NULs after the first character, and what follows
them. -/
theorem stdioLine_zeros (bs : List Byte) :
    (stdioLine bs).count 0 + bs.tail.count 0#8 = bs.count 0#8 := by
  cases bs with
  | nil => rfl
  | cons b bs =>
    have hz : (bs.takeWhile (· != 0#8)).count 0#8 = 0 := by
      rw [List.count_eq_zero]
      intro hm
      simpa using List.mem_takeWhile_imp hm
    rw [stdioLine, ← List.map_cons, zeros_map, List.count_cons, hz, List.count_cons, List.tail_cons]
    omega

theorem lines_zeros (lines : List (List Byte)) :
    (lines.flatMap stdioLine).count 0 + (lines.map (fun l => l.tail.count 0#8)).sum =
      lines.flatten.count 0#8 := by
  induction lines with
  | nil => rfl
  | cons l lines ih =>
    have hl := stdioLine_zeros l
    simp only [List.flatMap_cons, List.map_cons, List.sum_cons, List.flatten_cons,
      List.count_append]
    omega

/-- Equal values for ever hold equally many zeros. -/
theorem zeros_of_same {vs ws : List Int} (h : ∀ n, upTo BUF_EOF vs n = upTo BUF_EOF ws n) :
    vs.count 0 = ws.count 0 := by
  have hn := congrArg (List.count 0) (h (vs.length + ws.length))
  rw [upTo_length_add, Nat.add_comm, upTo_length_add, List.count_append, List.count_append,
    List.count_replicate, List.count_replicate] at hn
  simpa [BUF_EOF] using hn

theorem stdio_safe_of_free {w : List Byte} (h : StdioSizeFree w) : StdioSafe w := by
  have hshort : ∀ bs ∈ linesOf (2 - 1) w, stdioLine bs = bs.map charToInt := by
    intro bs hb
    apply stdioLine_whole
    have hl := linesOf_length w bs hb
    rw [List.eq_nil_of_length_eq_zero (l := bs.tail) (by rw [List.length_tail]; omega)]
    exact List.not_mem_nil
  have hsame : ∀ n, upTo BUF_EOF (w.map charToInt) n =
      upTo BUF_EOF ((linesOf (w.length + 1) w).flatMap stdioLine) n := by
    intro n
    have hn := h 2 (w.length + 2) (Nat.le_refl 2) (by omega) n
    rw [stdioValues_eq (Nat.le_refl 2), stdioValues_eq (by omega), flatMap_whole hshort,
      linesOf_flatten (by omega)] at hn
    exact Except.ok.inj hn
  have hzeros := zeros_of_same hsame
  have hlines := lines_zeros (linesOf (w.length + 1) w)
  rw [linesOf_flatten (by omega), ← zeros_map] at hlines
  refine stdio_safe_of_lines (Nat.lt_succ_self _) (fun l hl hz => ?_)
  have hsum : ((linesOf (w.length + 1) w).map (fun l => l.tail.count 0#8)).sum = 0 := by omega
  rw [List.sum_eq_zero_iff_forall_eq_nat] at hsum
  have hzero := hsum _ (List.mem_map_of_mem hl)
  exact List.count_eq_zero.mp hzero hz

/-- The values do not depend on where the content is cut exactly when no NUL
can be taken for the end of a piece at one cut and for a character at another. -/
theorem cut_free_iff (unixSize : Nat) (w : List Byte) :
    (UnixCutFree unixSize w ∧ StdioSizeFree w) ↔ (UnixSafe unixSize w ∧ StdioSafe w) :=
  ⟨fun h => ⟨unix_safe_of_free h.1, stdio_safe_of_free h.2⟩,
    fun h => ⟨unix_free_of_safe h.1, stdio_free_of_safe h.2⟩⟩

/-- The three characters 'a', NUL, 'b' from one read() are cut off at the NUL;
from three they are not. -/
theorem cut_at_nul : ¬ UnixCutFree 8191 [97#8, 0#8, 98#8] := by
  intro h
  have hone : Cuts 8191 [97#8, 0#8, 98#8] [[97#8, 0#8, 98#8]] := ⟨rfl, by decide, by decide⟩
  have hthree : Cuts 8191 [97#8, 0#8, 98#8] [[97#8], [0#8], [98#8]] :=
    ⟨rfl, by decide, by decide⟩
  have hv := h _ _ hone hthree 3
  rw [unixValues_eq hone.fits, unixValues_eq hthree.fits] at hv
  exact absurd hv (by decide)

end Mepl
