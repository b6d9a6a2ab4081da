import Mepl.Lex.Runs

namespace Mepl
open Base

/-- The values a buf gives for characters read as unsigned. -/
def codes (w : List Byte) : List Int := w.map (fun b => (b.toNat : Int))

def isSpaceByte (b : Byte) : Bool := spaceChar b.toNat

def isAlphaByte (b : Byte) : Bool := alphaChar b.toNat

def isLowerByte (b : Byte) : Bool := 97 ≤ b.toNat && b.toNat ≤ 122

structure Token where
  type : TT
  lexeme : List Byte
deriving DecidableEq, Repr

inductive Ending where
  | eof
  /-- a character that starts no token -/
  | invalid (c : Byte)
  /-- a literal that is not closed, and its text -/
  | malformed (s : List Byte)
deriving DecidableEq, Repr

/-- The token at the start of w and what follows it. -/
def nextToken (w : List Byte) : Except Ending (Token × List Byte) :=
  match w.dropWhile isSpaceByte with
  | [] => .error .eof
  | c :: cs =>
    if isLowerByte c then
      let s := (c :: cs).takeWhile isAlphaByte
      .ok (⟨identType s, s⟩, (c :: cs).dropWhile isAlphaByte)
    else if c = 61#8 then .ok (⟨.assign, []⟩, cs)
    else if c = 34#8 then
      match cs.dropWhile (· != 34#8) with
      | [] => .error (.malformed cs)
      | _ :: rest => .ok (⟨.strLit, cs.takeWhile (· != 34#8)⟩, rest)
    else .error (.invalid c)

/-- How a token is written. -/
def Token.spelling (t : Token) : List Byte :=
  match t.type with
  | .assign => [61#8]
  | .strLit => 34#8 :: t.lexeme ++ [34#8]
  | _ => t.lexeme

theorem spelling_ident (s : List Byte) : Token.spelling ⟨identType s, s⟩ = s := by
  unfold identType
  split <;> rfl

theorem lower_alpha {b : Byte} (h : isLowerByte b = true) : isAlphaByte b = true := by
  simp [isLowerByte] at h
  simp [isAlphaByte, alphaChar]
  omega

theorem not_mem_takeWhile_ne (c : Byte) (w : List Byte) : c ∉ w.takeWhile (· != c) := by
  intro h
  simpa using List.mem_takeWhile_imp h

/-- The tokens there are. -/
inductive IsToken : Token → Prop
  | ident {c : Byte} {s : List Byte} (lower : isLowerByte c = true)
      (alpha : ∀ b ∈ c :: s, isAlphaByte b = true) : IsToken ⟨identType (c :: s), c :: s⟩
  | assign : IsToken ⟨.assign, []⟩
  | strLit {s : List Byte} (unquoted : 34#8 ∉ s) : IsToken ⟨.strLit, s⟩

/-- White space, a token, and the rest make up the whole stream. -/
theorem nextToken_covers {w rest : List Byte} {t : Token} (h : nextToken w = .ok (t, rest)) :
    IsToken t ∧ ∃ gap, (∀ b ∈ gap, isSpaceByte b = true) ∧ w = gap ++ t.spelling ++ rest := by
  have hgap : ∀ b ∈ w.takeWhile isSpaceByte, isSpaceByte b = true :=
    fun b hb => List.mem_takeWhile_imp hb
  have hw : w = w.takeWhile isSpaceByte ++ w.dropWhile isSpaceByte :=
    List.takeWhile_append_dropWhile.symm
  unfold nextToken at h
  split at h
  · cases h
  · rename_i c cs hd
    rw [hd] at hw
    split at h
    · rename_i hc
      cases h
      have hs : (c :: cs).takeWhile isAlphaByte = c :: cs.takeWhile isAlphaByte := by
        simp [lower_alpha hc]
      refine ⟨?_, w.takeWhile isSpaceByte, hgap, ?_⟩
      · rw [hs]
        refine .ident hc (fun b hb => ?_)
        rw [← hs] at hb
        exact List.mem_takeWhile_imp hb
      · rw [spelling_ident, List.append_assoc, List.takeWhile_append_dropWhile]
        exact hw
    · split at h
      · rename_i hc
        cases h
        subst hc
        exact ⟨.assign, _, hgap, by simpa [Token.spelling] using hw⟩
      · split at h
        · rename_i hc
          subst hc
          split at h
          · cases h
          · rename_i q rest' hq
            cases h
            have hqe : q = 34#8 := by
              have := List.head?_dropWhile_not (· != 34#8) cs
              rw [hq] at this
              simpa using this
            subst hqe
            have hcs : cs = cs.takeWhile (· != 34#8) ++ 34#8 :: rest := by
              rw [← hq, List.takeWhile_append_dropWhile]
            refine ⟨.strLit (not_mem_takeWhile_ne _ _), _, hgap, ?_⟩
            conv => lhs; rw [hw, hcs]
            simp [Token.spelling]
        · cases h

theorem TT.val_eof {t : TT} : t.val = TT.eof.val ↔ t = .eof := by
  cases t <;> decide

/-- A token is never end of file. -/
theorem IsToken.type {t : Token} (h : IsToken t) : t.type.val ≠ TT.eof.val := by
  rw [ne_eq, TT.val_eof]
  cases h with
  | @ident c s => rcases identType_cases (c :: s) with hi | hi <;> simp [hi]
  | assign => simp
  | strLit => simp

theorem IsToken.spelling {t : Token} (h : IsToken t) : t.spelling ≠ [] := by
  cases h with
  | ident =>
    rw [spelling_ident]
    simp
  | assign => simp [Token.spelling]
  | strLit => simp [Token.spelling]

theorem nextToken_length {w rest : List Byte} {t : Token} (h : nextToken w = .ok (t, rest)) :
    rest.length < w.length := by
  obtain ⟨ht, gap, _, rfl⟩ := nextToken_covers h
  have := List.length_pos_of_ne_nil ht.spelling
  simp only [List.length_append]
  omega

/-- The tokens of w, each with what follows it, and why there are no more. -/
def tokenize (w : List Byte) : List (Token × List Byte) × Ending :=
  match h : nextToken w with
  | .error e => ([], e)
  | .ok (t, rest) =>
    have := nextToken_length h
    ((t, rest) :: (tokenize rest).1, (tokenize rest).2)
termination_by w.length

theorem nextToken_space {c : Byte} (h : isSpaceByte c = true) (w : List Byte) :
    nextToken (c :: w) = nextToken w := by
  simp only [nextToken, List.dropWhile_cons, h, ↓reduceIte]

theorem tokenize_error {w : List Byte} {e : Ending} (h : nextToken w = .error e) :
    tokenize w = ([], e) := by
  rw [tokenize]
  split
  · rename_i e' he
    rw [h] at he
    cases he
    rfl
  · rename_i t rest he
    rw [h] at he
    cases he

theorem tokenize_ok {w rest : List Byte} {t : Token} (h : nextToken w = .ok (t, rest)) :
    tokenize w = ((t, rest) :: (tokenize rest).1, (tokenize rest).2) := by
  rw [tokenize]
  split
  · rename_i e he
    rw [h] at he
    cases he
  · rename_i t' rest' he
    rw [h] at he
    cases he
    rfl

end Mepl
