import Mepl.Lex.Step

namespace Mepl
open Base

/-- The loop of main on tokens in place of lexer states. -/
def tokensFrom : Nat → Res Lexed → List Lexed × Res Lexed
  | 0, _ => ([], .error .fuel)
  | _ + 1, .error e => ([], .error e)
  | n + 1, .ok t =>
    if t.type = TT.eof.val then ([], .ok t)
    else
      let (ts, r) := tokensFrom n (lexed KWORDS t.rest)
      (t :: ts, r)

theorem index_char_fn {c : Int} {f : CharFn} (h : index CHAR_FN c = .ok f) :
    0 ≤ c ∧ c ≤ UCHAR_MAX ∧ f = charFn c.toNat := by
  cases c with
  | negSucc n => cases h
  | ofNat n =>
    simp only [index] at h
    split at h
    · rename_i x hx
      rw [CHAR_FN, List.getElem?_map, Option.map_eq_some_iff] at hx
      obtain ⟨m, hm, rfl⟩ := hx
      cases h
      have hlt := (List.getElem?_eq_some_iff.mp hm).1
      rw [List.getElem?_range (by simpa using hlt)] at hm
      cases hm
      simp only [List.length_range] at hlt
      simp only [UCHAR_MAX]
      exact ⟨by simp, by simp; omega, rfl⟩
    · cases h

theorem char_fn_id (n : Nat) : charFn n = .id ↔ 97 ≤ n ∧ n ≤ 122 := by
  unfold charFn
  grind

theorem char_fn_str (n : Nat) : charFn n = .str ↔ n = 34 := by
  unfold charFn
  grind

theorem char_fn_single (n : Nat) : charFn n = .single ↔ n = 61 := by
  unfold charFn
  grind

theorem single_assign : index SINGLE 61 = .ok TT.assign.val := by decide

theorem TT.val_range {t : TT} (h : t ≠ .count) :
    TT.eof.val ≤ t.val ∧ t.val < TT.count.val := by
  cases t <;> first | decide | exact absurd rfl h

/-- The type id gives the identifier s. -/
def identType (s : List Byte) : TT := if s = [115#8, 116#8, 114#8] then .str else .id

theorem identType_cases (s : List Byte) : identType s = .id ∨ identType s = .str := by
  unfold identType
  split
  · exact Or.inr rfl
  · exact Or.inl rfl

theorem lookup_kwords (s : List Byte) : lookup KWORDS s = .ok (identType s).val := by
  simp only [lookup, KWORDS, load, List.length_singleton, Nat.mod_one, List.getElem?_cons_zero,
    ok_bind, pure_ok, identType]
  split <;> rfl

/-- Every successful call gives one of the four tokens, or end of file. -/
inductive Found : List Int → Lexed → Prop
  | eof {vs rest : List Int} (gap : skipped vs = .ok (BUF_EOF, rest)) :
      Found vs ⟨TT.eof.val, [], rest⟩
  | ident {vs cs ls rest : List Int} {c : Int} (gap : skipped vs = .ok (c, cs))
      (first : 97 ≤ c ∧ c ≤ 122) (run : letters (c :: cs) = .ok (ls, rest)) :
      Found vs ⟨(identType (text ls)).val, ls, rest⟩
  | assign {vs cs : List Int} (gap : skipped vs = .ok (61, cs)) :
      Found vs ⟨TT.assign.val, [], cs⟩
  | strLit {vs cs ls rest : List Int} (gap : skipped vs = .ok (34, cs))
      (closed : literal cs = (ls, some rest)) : Found vs ⟨TT.strLit.val, ls, rest⟩

theorem lexed_found {vs : List Int} {t : Lexed} (h : lexed KWORDS vs = .ok t) : Found vs t := by
  unfold lexed at h
  rw [bind_ok] at h
  obtain ⟨⟨c, cs⟩, hsk, h⟩ := h
  simp only at h
  split at h
  · rename_i hc
    cases h
    exact .eof (hc ▸ hsk)
  · rw [bind_ok] at h
    obtain ⟨f, hf, h⟩ := h
    obtain ⟨h0, _, rfl⟩ := index_char_fn hf
    split at h
    · rename_i hfn
      rw [char_fn_id] at hfn
      rw [bind_ok] at h
      obtain ⟨⟨ls, rest⟩, hl, h⟩ := h
      simp only [lookup_kwords, ok_bind, pure_ok] at h
      cases h
      exact .ident hsk (by omega) hl
    · rename_i hfn
      rw [char_fn_str] at hfn
      obtain rfl : c = 34 := by omega
      split at h
      · cases h
        exact .strLit hsk ‹_›
      · cases h
    · rename_i hfn
      rw [char_fn_single] at hfn
      obtain rfl : c = 61 := by omega
      rw [single_assign] at h
      cases h
      exact .assign hsk
    · cases h

theorem Found.type {vs : List Int} {t : Lexed} (h : Found vs t) :
    TT.eof.val ≤ t.type ∧ t.type < TT.count.val := by
  cases h with
  | eof => exact TT.val_range (by decide)
  | ident => exact TT.val_range (by unfold identType; split <;> decide)
  | assign => exact TT.val_range (by decide)
  | strLit => exact TT.val_range (by decide)

theorem letters_length {vs ls rest : List Int} (h : letters vs = .ok (ls, rest)) :
    rest.length ≤ vs.length := by
  induction vs generalizing ls with
  | nil =>
    cases h
    exact Nat.le_refl _
  | cons v vs ih =>
    rw [letters, bind_ok] at h
    obtain ⟨al, _, h⟩ := h
    cases al with
    | false =>
      cases h
      exact Nat.le_succ _
    | true =>
      simp only [↓reduceIte, bind_ok] at h
      obtain ⟨⟨ls', rest'⟩, hl, h⟩ := h
      cases h
      exact Nat.le_succ_of_le (ih hl)

theorem literal_length {vs ls rest : List Int} (h : literal vs = (ls, some rest)) :
    rest.length < vs.length := by
  induction vs generalizing ls with
  | nil => cases h
  | cons v vs ih =>
    unfold literal at h
    split at h
    · cases h
    · split at h
      · cases h
        exact Nat.lt_succ_self _
      · have hl := @ih (literal vs).1 (Prod.ext rfl (Prod.mk.inj h).2)
        exact Nat.lt_succ_of_lt hl

theorem skipped_found {vs rest : List Int} {c : Int} (h : skipped vs = .ok (c, rest))
    (hc : c ≠ BUF_EOF) : rest.length < vs.length := by
  induction vs with
  | nil => cases h; exact absurd rfl hc
  | cons v vs ih =>
    rw [skipped, bind_ok] at h
    obtain ⟨sp, _, h⟩ := h
    cases sp with
    | true => exact Nat.lt_succ_of_lt (ih h)
    | false =>
      cases h
      exact Nat.lt_succ_self _

/-- Every token takes at least one value. -/
theorem Found.length {vs : List Int} {t : Lexed} (h : Found vs t) :
    t.type = TT.eof.val ∨ t.rest.length < vs.length := by
  cases h with
  | eof => exact Or.inl rfl
  | @ident cs ls rest c gap first run =>
    right
    have hc : c ≠ BUF_EOF := by simp only [BUF_EOF]; omega
    have halpha : isalpha c = .ok true := by
      rw [isalpha, ctype_ok _ ⟨by simp only [BUF_EOF]; omega, by simp only [UCHAR_MAX]; omega⟩]
      simp [alphaChar]
      omega
    have hgap := skipped_found gap hc
    rw [letters, halpha] at run
    simp only [ok_bind, ↓reduceIte, bind_ok] at run
    obtain ⟨⟨ls', rest'⟩, hl, run⟩ := run
    cases run
    exact Nat.lt_of_le_of_lt (letters_length hl) hgap
  | assign gap => exact Or.inr (skipped_found gap (by decide))
  | strLit gap closed =>
    exact Or.inr (Nat.lt_trans (literal_length closed) (skipped_found gap (by decide)))

section
variable {σ : Type} {getc : σ → Res (Int × σ)} {R : σ → List Int → Prop}

theorem Leaves.between {l : Lex σ} {t : Lexed} {vs : List Int} (h : Leaves R l t)
    (hf : Found vs t) : Between R l t.rest where
  toReady := h.toReady
  type := h.type ▸ hf.type
  text := ⟨_, h.holds⟩

/-- The loop of main prints the states that leave the tokens found, and ends
as the search for the next token does. -/
theorem mainLoop_alike (hs : Serves getc BUF_EOF R) {fuel n : Nat} {vs : List Int}
    {x : Res (Lex σ)} (h : Alike (Leaves R) x (lexed KWORDS vs)) (hf : vs.length + 1 < fuel) :
    List.Forall₂ (Leaves R) (mainLoop getc KWORDS fuel n x).1
        (tokensFrom n (lexed KWORDS vs)).1 ∧
      Alike (Leaves R) (mainLoop getc KWORDS fuel n x).2 (tokensFrom n (lexed KWORDS vs)).2 := by
  induction n generalizing vs x with
  | zero => exact ⟨.nil, .stop _⟩
  | succ n ih =>
    generalize hy : lexed KWORDS vs = y at h
    cases h with
    | stop e => exact ⟨.nil, .stop e⟩
    | @ret l t related =>
      simp only [mainLoop, tokensFrom, related.type]
      have hfound := lexed_found hy
      split
      · exact ⟨.nil, .ret related⟩
      · rename_i hne
        have hlen := hfound.length.resolve_left hne
        have hnext := lexNext_alike hs KWORDS (n := fuel) (related.between hfound) (by omega)
        obtain ⟨hstates, hend⟩ := ih hnext (by omega)
        exact ⟨.cons related hstates, hend⟩

theorem lexRun_alike (hs : Serves getc BUF_EOF R) {fuel : Nat} {b : σ} {vs : List Int}
    (hr : R b vs) (hf : vs.length + 1 < fuel) :
    List.Forall₂ (Leaves R) (lexRun getc KWORDS fuel b).1 (tokensFrom fuel (lexed KWORDS vs)).1 ∧
      Alike (Leaves R) (lexRun getc KWORDS fuel b).2 (tokensFrom fuel (lexed KWORDS vs)).2 :=
  mainLoop_alike hs (lexNext_alike hs KWORDS (between_init hr) hf) hf

end

end Mepl
