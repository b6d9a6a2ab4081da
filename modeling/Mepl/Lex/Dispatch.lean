import Mepl.Buf.Agree
import Mepl.Lex.Runs

namespace Mepl
open Base

/-- Where a value stands in the input of a lexer. -/
inductive At where
  | boundary
  | ident
  | literal
  /-- past the end of file or the error that ended the run -/
  | done
deriving DecidableEq, Repr

def advance : At → Int → At
  | .boundary, v =>
    if v = BUF_EOF then .done
    else if spaceChar v then .boundary
    else match charFn v.toNat with
      | .id => .ident
      | .str => .literal
      | .single => .boundary
      | .err => .done
  | .ident, v => if alphaChar v then .ident else .boundary
  | .literal, v => if v = BUF_EOF then .done else if v = 34 then .boundary else .literal
  | .done, _ => .done

/-- From s on, every value the lexer comes to outside a string literal is
BUF_EOF or one of unsigned char. -/
def OutsideInRange : At → List Int → Prop
  | _, [] => True
  | s, v :: vs => (s = .boundary ∨ s = .ident → InRange v) ∧ OutsideInRange (advance s v) vs

/-- A stop in isspace, isalpha, CHAR_FN or SINGLE. -/
def OutOfRange (e : Stop) : Prop := ∃ c, e = .ctype c ∨ e = .index c

/-- The computation does not stop in a lookup out of range. -/
def DispatchInRange (x : Res α) : Prop := ∀ e, x = .error e → ¬ OutOfRange e

theorem outside_done (vs : List Int) : OutsideInRange .done vs := by
  induction vs with
  | nil => trivial
  | cons v vs ih => exact ⟨by simp, ih⟩

theorem isspace_eq {v : Int} (h : InRange v) : isspace v = .ok (spaceChar v) := ctype_ok _ h

theorem isalpha_eq {v : Int} (h : InRange v) : isalpha v = .ok (alphaChar v) := ctype_ok _ h

theorem skipped_error {vs : List Int} {e : Stop} (h : skipped vs = .error e) :
    OutOfRange e ∧ ¬ OutsideInRange .boundary vs := by
  induction vs with
  | nil => cases h
  | cons v vs ih =>
    by_cases hv : InRange v
    · rw [skipped, isspace_eq hv, ok_bind] at h
      cases hsp : spaceChar v with
      | false => simp [hsp] at h
      | true =>
        simp only [hsp, ↓reduceIte] at h
        have hne : v ≠ BUF_EOF := by
          intro hin
          subst hin
          cases hsp
        obtain ⟨ho, hn⟩ := ih h
        refine ⟨ho, fun hc => hn ?_⟩
        simpa [advance, hne, hsp] using hc.2
    · rw [skipped, isspace, ctype_range _ hv] at h
      cases h
      exact ⟨⟨v, Or.inl rfl⟩, fun hc => hv (hc.1 (Or.inl rfl))⟩

theorem skipped_scan {vs rest : List Int} {c : Int} (h : skipped vs = .ok (c, rest)) :
    InRange c ∧ spaceChar c = false ∧
      (OutsideInRange .boundary vs ↔ OutsideInRange .boundary (c :: rest)) := by
  induction vs with
  | nil =>
    cases h
    exact ⟨in_range_eof, rfl, fun _ => ⟨fun _ => in_range_eof, trivial⟩, fun _ => trivial⟩
  | cons v vs ih =>
    by_cases hv : InRange v
    · rw [skipped, isspace_eq hv, ok_bind] at h
      cases hsp : spaceChar v with
      | false =>
        simp only [hsp, Bool.false_eq_true, ↓reduceIte, pure_ok] at h
        cases h
        exact ⟨hv, hsp, Iff.rfl⟩
      | true =>
        simp only [hsp, ↓reduceIte] at h
        have hne : v ≠ BUF_EOF := by
          intro hin
          subst hin
          cases hsp
        obtain ⟨hc, hcs, hi⟩ := ih h
        refine ⟨hc, hcs, ?_⟩
        rw [← hi]
        simp [OutsideInRange, advance, hne, hsp, hv]
    · rw [skipped, isspace, ctype_range _ hv] at h
      cases h

theorem letters_error {vs : List Int} {e : Stop} (h : letters vs = .error e) :
    OutOfRange e ∧ ¬ OutsideInRange .ident vs := by
  induction vs with
  | nil => cases h
  | cons v vs ih =>
    by_cases hv : InRange v
    · rw [letters, isalpha_eq hv, ok_bind] at h
      cases hal : alphaChar v with
      | false => simp [hal] at h
      | true =>
        simp only [hal, ↓reduceIte] at h
        cases hl : letters vs with
        | ok r => simp [hl] at h
        | error e' =>
          rw [hl, error_bind] at h
          cases h
          obtain ⟨ho, hn⟩ := ih hl
          exact ⟨ho, fun hc => hn (by simpa [advance, hal] using hc.2)⟩
    · rw [letters, isalpha, ctype_range _ hv] at h
      cases h
      exact ⟨⟨v, Or.inl rfl⟩, fun hc => hv (hc.1 (Or.inr rfl))⟩

theorem letters_scan {vs ls rest : List Int} (h : letters vs = .ok (ls, rest)) :
    OutsideInRange .ident vs ↔ OutsideInRange .boundary rest := by
  induction vs generalizing ls with
  | nil =>
    cases h
    exact Iff.rfl
  | cons v vs ih =>
    by_cases hv : InRange v
    · rw [letters, isalpha_eq hv, ok_bind] at h
      cases hal : alphaChar v with
      | false =>
        simp only [hal, Bool.false_eq_true, ↓reduceIte, pure_ok] at h
        cases h
        simp [OutsideInRange, advance, hal, hv]
      | true =>
        simp only [hal, ↓reduceIte, bind_ok] at h
        obtain ⟨⟨ls', rest'⟩, hl, h⟩ := h
        cases h
        rw [← ih hl]
        simp [OutsideInRange, advance, hal, hv]
    · rw [letters, isalpha, ctype_range _ hv] at h
      cases h

theorem literal_open {vs ls : List Int} (h : literal vs = (ls, none)) :
    OutsideInRange .literal vs := by
  induction vs generalizing ls with
  | nil => trivial
  | cons v vs ih =>
    refine ⟨by simp, ?_⟩
    unfold literal at h
    unfold advance
    split at h
    · rename_i hv
      simp only [hv, ↓reduceIte]
      exact outside_done vs
    · rename_i hv
      split at h
      · cases h
      · rename_i hq
        simp only [hv, hq, ↓reduceIte]
        exact @ih (literal vs).1 (Prod.ext rfl (Prod.mk.inj h).2)

theorem literal_closed {vs ls rest : List Int} (h : literal vs = (ls, some rest)) :
    OutsideInRange .literal vs ↔ OutsideInRange .boundary rest := by
  induction vs generalizing ls with
  | nil => cases h
  | cons v vs ih =>
    unfold literal at h
    split at h
    · cases h
    · rename_i hv
      split at h
      · rename_i hq
        cases h
        subst hq
        simp [OutsideInRange, advance, BUF_EOF]
      · rename_i hq
        have hl := @ih (literal vs).1 (Prod.ext rfl (Prod.mk.inj h).2)
        rw [← hl]
        simp [OutsideInRange, advance, hv, hq]

/-- The first value a call does not skip is in range; what follows it decides
the rest, unless the call ends the run. -/
theorem outside_first {vs : List Int} {c : Int} (hc : InRange c) (hsp : spaceChar c = false)
    (he : c ≠ BUF_EOF) : OutsideInRange .boundary (c :: vs) ↔
      OutsideInRange (match charFn c.toNat with
        | .id => .ident
        | .str => .literal
        | .single => .boundary
        | .err => .done) vs := by
  simp only [OutsideInRange, advance, he, hsp, Bool.false_eq_true, ↓reduceIte, hc, implies_true,
    true_and]

theorem index_in_range {c : Int} (hc : InRange c) (he : c ≠ BUF_EOF) :
    index CHAR_FN c = .ok (charFn c.toNat) := by
  obtain ⟨h0, h255⟩ := hc
  simp only [BUF_EOF, UCHAR_MAX] at h0 h255 he
  obtain ⟨n, rfl⟩ := Int.eq_ofNat_of_zero_le (a := c) (by omega)
  have hn : n < 256 := by omega
  apply index_ok
  simp [CHAR_FN, List.getElem?_range hn]

theorem lower_ident {c : Int} (h : charFn c.toNat = .id) : alphaChar c = true := by
  rw [char_fn_id] at h
  simp [alphaChar]
  omega

/-- What one call of lex_next says about the values in front of it. -/
theorem lexed_scan (vs : List Int) :
    match lexed KWORDS vs with
    | .error e => OutsideInRange .boundary vs ↔ ¬ OutOfRange e
    | .ok t => if t.type = TT.eof.val then OutsideInRange .boundary vs
        else (OutsideInRange .boundary vs ↔ OutsideInRange .boundary t.rest) := by
  unfold lexed
  cases hsk : skipped vs with
  | error e =>
    obtain ⟨ho, hn⟩ := skipped_error hsk
    exact iff_of_false hn (not_not_intro ho)
  | ok r =>
    obtain ⟨c, cs⟩ := r
    obtain ⟨hc, hsp, hiff⟩ := skipped_scan hsk
    rw [hiff]
    by_cases he : c = BUF_EOF
    · simp only [ok_bind, he, ↓reduceIte, pure_ok]
      exact ⟨fun _ => in_range_eof, outside_done cs⟩
    · simp only [ok_bind, he, ↓reduceIte, index_in_range hc he, outside_first hc hsp he]
      cases hf : charFn c.toNat with
      | id =>
        have hident : OutsideInRange .ident (c :: cs) ↔ OutsideInRange .ident cs := by
          simp [OutsideInRange, advance, lower_ident hf, hc]
        rw [← hident]
        cases hl : letters (c :: cs) with
        | error e =>
          obtain ⟨ho, hn⟩ := letters_error hl
          exact iff_of_false hn (not_not_intro ho)
        | ok r =>
          obtain ⟨ls, rest⟩ := r
          simp only [ok_bind, lookup_kwords, pure_ok]
          split
          · rename_i hty
            rcases identType_cases (text ls) with hi | hi <;> rw [hi] at hty <;> cases hty
          · exact letters_scan hl
      | str =>
        cases hl : literal cs with
        | mk ls left =>
          cases left with
          | none =>
            simp only [throw_error]
            refine iff_of_true (literal_open hl) ?_
            rintro ⟨c, h | h⟩ <;> cases h
          | some rest => exact literal_closed hl
      | single =>
        obtain rfl : c = 61 := by
          rw [char_fn_single] at hf
          simp only [BUF_EOF] at he
          have := hc.1
          simp only [BUF_EOF] at this
          omega
        rw [single_assign]
        exact Iff.rfl
      | err =>
        refine iff_of_true (outside_done cs) ?_
        rintro ⟨c, h | h⟩ <;> cases h

/-- A whole run looks nothing up out of range exactly when every value outside
a string literal is in range. -/
theorem tokensFrom_in_range_iff {n : Nat} {vs : List Int} (hn : vs.length < n) :
    DispatchInRange (tokensFrom n (lexed KWORDS vs)).2 ↔ OutsideInRange .boundary vs := by
  induction n generalizing vs with
  | zero => exact absurd hn (Nat.not_lt_zero _)
  | succ n ih =>
    have hscan := lexed_scan vs
    cases hl : lexed KWORDS vs with
    | error e =>
      simp only [hl] at hscan
      rw [hscan]
      exact ⟨fun h => h e rfl, fun h e' he => by cases he; exact h⟩
    | ok t =>
      simp only [hl] at hscan
      simp only [tokensFrom]
      split at hscan
      · rename_i ht
        simp only [ht, ↓reduceIte]
        exact iff_of_true (fun e he => by cases he) hscan
      · rename_i ht
        have hlen := (lexed_found hl).length.resolve_left ht
        simp only [ht, ↓reduceIte, hscan]
        exact ih (by omega)

theorem alike_in_range {P : α → β → Prop} {x : Res α} {y : Res β} (h : Alike P x y) :
    DispatchInRange x ↔ DispatchInRange y := by
  cases h with
  | stop e => exact ⟨fun h e' he => h e' (by cases he; rfl), fun h e' he => h e' (by cases he; rfl)⟩
  | ret => exact iff_of_true (fun e he => by cases he) (fun e he => by cases he)

/-- The same over any source of values. -/
theorem lexRun_in_range_iff {σ : Type} {getc : σ → Res (Int × σ)} {R : σ → List Int → Prop}
    (hs : Serves getc BUF_EOF R) {fuel : Nat} {b : σ} {vs : List Int} (hr : R b vs)
    (hf : vs.length + 1 < fuel) :
    DispatchInRange (lexRun getc KWORDS fuel b).2 ↔ OutsideInRange .boundary vs := by
  rw [alike_in_range (lexRun_alike hs hr hf).2]
  exact tokensFrom_in_range_iff (Nat.lt_of_succ_lt hf)

theorem flatMap_length_le {pieces : List (List Byte)} {f : List Byte → List Int}
    (h : ∀ bs ∈ pieces, (f bs).length ≤ bs.length) :
    (pieces.flatMap f).length ≤ pieces.flatten.length := by
  induction pieces with
  | nil => exact Nat.le_refl _
  | cons bs pieces ih =>
    rw [List.flatMap_cons, List.flatten_cons, List.length_append, List.length_append]
    exact Nat.add_le_add (h bs List.mem_cons_self)
      (ih (fun b hb => h b (List.mem_cons_of_mem _ hb)))

theorem unixChunk_length {bs : List Byte} (h : bs ≠ []) : (unixChunk bs).length ≤ bs.length := by
  have hpos := List.length_pos_of_ne_nil h
  have htake : (bs.takeWhile (· != 0#8)).length ≤ bs.length := (List.takeWhile_sublist _).length_le
  unfold unixChunk
  split
  · exact hpos
  · simpa using htake

theorem stdioLine_length (bs : List Byte) : (stdioLine bs).length ≤ bs.length := by
  cases bs with
  | nil => exact Nat.le_refl _
  | cons b bs =>
    have htake : (bs.takeWhile (· != 0#8)).length ≤ bs.length :=
      (List.takeWhile_sublist _).length_le
    simpa [stdioLine] using htake

/-- The lexer over each of the four bufs: no lookup is out of range exactly
when every value the buf gives outside a string literal is in range. -/
theorem dispatch_in_range_iff {w : List Byte} {unixSize stdioSize fuel : Nat}
    {chunks : List (List Byte)} (hc : Cuts unixSize w chunks) (hs : 2 ≤ stdioSize)
    (hf : w.length + 1 < fuel) :
    (DispatchInRange (lexRun bufNstrGetc KWORDS fuel (bufNstrInit w w.length)).2 ↔
      OutsideInRange .boundary (w.map charToInt)) ∧
    (DispatchInRange (lexRun bufCstrGetc KWORDS fuel (bufCstrInit (w ++ [0#8]))).2 ↔
      OutsideInRange .boundary ((w.takeWhile (· != 0#8)).map charToInt)) ∧
    (∃ b, bufUnixInit unixSize ⟨0, chunksOf chunks⟩ = .ok b ∧
      (DispatchInRange (lexRun (bufUnixGetc unixSize) KWORDS fuel b).2 ↔
        OutsideInRange .boundary (chunks.flatMap unixChunk))) ∧
    (DispatchInRange
        (lexRun (bufStdioGetc stdioSize) KWORDS fuel (bufStdioInit stdioSize ⟨w, false⟩)).2 ↔
      OutsideInRange .boundary ((linesOf (stdioSize - 1) w).flatMap stdioLine)) := by
  refine ⟨?_, ?_, ?_, ?_⟩
  · exact lexRun_in_range_iff nstr_serves (nstr_init_serves w) (by simpa using hf)
  · have htake : (w.takeWhile (· != 0#8)).length ≤ w.length := (List.takeWhile_sublist _).length_le
    exact lexRun_in_range_iff cstr_serves (cstr_init_serves w [])
      (by rw [List.length_map]; omega)
  · obtain ⟨b, hb, hserves⟩ := unix_init_serves (Int.le_refl 0) hc.fits
    have hlen : (chunks.flatMap unixChunk).length ≤ chunks.flatten.length :=
      flatMap_length_le (fun bs hb => unixChunk_length (hc.nonempty bs hb))
    rw [hc.whole] at hlen
    exact ⟨b, hb, lexRun_in_range_iff (unix_serves unixSize) hserves (by omega)⟩
  · have hlen : ((linesOf (stdioSize - 1) w).flatMap stdioLine).length ≤
        (linesOf (stdioSize - 1) w).flatten.length :=
      flatMap_length_le (fun bs _ => stdioLine_length bs)
    rw [linesOf_flatten (by omega)] at hlen
    exact lexRun_in_range_iff (stdio_serves hs) (stdio_init_serves stdioSize w) (by omega)

theorem dispatch_in_range_quoted :
    (DispatchInRange (lexRun bufNstrGetc KWORDS 5
        (bufNstrInit [34#8, 0x80#8, 34#8] [34#8, 0x80#8, 34#8].length)).2 ↔
      OutsideInRange .boundary ([34#8, 0x80#8, 34#8].map charToInt)) ∧
    (DispatchInRange (lexRun bufCstrGetc KWORDS 5
        (bufCstrInit ([34#8, 0x80#8, 34#8] ++ [0#8]))).2 ↔
      OutsideInRange .boundary (([34#8, 0x80#8, 34#8].takeWhile (· != 0#8)).map charToInt)) ∧
    (∃ b, bufUnixInit 2 ⟨0, chunksOf [[34#8, 0x80#8], [34#8]]⟩ = .ok b ∧
      (DispatchInRange (lexRun (bufUnixGetc 2) KWORDS 5 b).2 ↔
        OutsideInRange .boundary ([[34#8, 0x80#8], [34#8]].flatMap unixChunk))) ∧
    (DispatchInRange (lexRun (bufStdioGetc 2) KWORDS 5
        (bufStdioInit 2 ⟨[34#8, 0x80#8, 34#8], false⟩)).2 ↔
      OutsideInRange .boundary ((linesOf (2 - 1) [34#8, 0x80#8, 34#8]).flatMap stdioLine)) :=
  dispatch_in_range_iff ⟨rfl, by decide, by decide⟩ (Nat.le_refl 2) (by decide)

/-- The one byte 0x80, read as -128, is given to isspace. -/
theorem dispatch_high_byte :
    ¬ DispatchInRange (lexRun bufNstrGetc KWORDS 3 (bufNstrInit [0x80#8] [0x80#8].length)).2 := by
  intro h
  have hrun : (lexRun bufNstrGetc KWORDS 3 (bufNstrInit [0x80#8] [0x80#8].length)).2 =
      .error (.ctype (-128)) := by decide
  exact h _ hrun ⟨-128, Or.inl rfl⟩

end Mepl
