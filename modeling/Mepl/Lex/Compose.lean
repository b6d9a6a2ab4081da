import Mepl.Lex.Ends

namespace Mepl
open Base

/-- What main prints of a state: its type and its lexeme. -/
def Lex.token {σ : Type} (l : Lex σ) : Int × Dstr := (l.lType, l.lLex)

/-- The tokens of a run, and how it ended. -/
def tokensOf {σ : Type} (run : List (Lex σ) × Res (Lex σ)) :
    List (Int × Dstr) × Res (Int × Dstr) :=
  (run.1.map Lex.token, run.2.map Lex.token)

def Lexed.token (t : Lexed) : Int × List Int := (t.type, t.pushes)

def pushesOf (run : List Lexed × Res Lexed) : List (Int × List Int) × Res (Int × List Int) :=
  (run.1.map Lexed.token, run.2.map Lexed.token)

/-- What the next call sees of rest: an identifier takes the character behind it. -/
def Token.after (t : Token) (rest : List Byte) : List Byte :=
  if t.type = .id ∨ t.type = .str then rest.tail else rest

/-- One run after another. -/
def followed (first second : List α × Res α) : List α × Res α := (first.1 ++ second.1, second.2)

section
variable {u v rest : List Byte} {s : Byte} {t : Token}

theorem nextToken_gap (h : nextToken u = .error .eof) (hs : isSpaceByte s = true) :
    nextToken (u ++ s :: v) = nextToken v := by
  have hu : ∀ b ∈ u, isSpaceByte b = true := by
    rw [← List.dropWhile_eq_nil_iff]
    unfold nextToken at h
    split at h
    · assumption
    · split at h
      · cases h
      · split at h
        · cases h
        · split at h
          · split at h
            · cases h
            · cases h
          · cases h
  rw [← nextToken_space hs v]
  unfold nextToken
  rw [List.dropWhile_append_of_pos hu]

/-- What stops a search in a stream stops it there with more behind it. -/
theorem dropWhile_before {p : Byte → Bool} {c : Byte} {cs : List Byte}
    (h : u.dropWhile p = c :: cs) (w : List Byte) :
    (u ++ w).dropWhile p = c :: (cs ++ w) ∧ (u ++ w).takeWhile p = u.takeWhile p := by
  constructor
  · rw [List.dropWhile_append, h]
    simp
  · rw [List.takeWhile_append, if_neg]
    intro hlen
    have hsplit := congrArg List.length (List.takeWhile_append_dropWhile (p := p) (l := u))
    rw [h, List.length_append, List.length_cons] at hsplit
    omega

theorem dropWhile_stop {p : Byte → Bool} (hs : p s = false) :
    (u ++ s :: v).dropWhile p = u.dropWhile p ++ s :: v ∧
      (u ++ s :: v).takeWhile p = u.takeWhile p := by
  cases h : u.dropWhile p with
  | nil =>
    rw [List.dropWhile_eq_nil_iff] at h
    have hu : u.takeWhile p = u := List.takeWhile_eq_self_iff.mpr h
    rw [List.dropWhile_append_of_pos h, List.takeWhile_append_of_pos h, hu]
    simp [hs]
  | cons c cs => exact dropWhile_before h _

theorem space_not_alpha (h : isSpaceByte s = true) : isAlphaByte s = false := by
  simp only [isSpaceByte, spaceChar, Bool.or_eq_true, Bool.and_eq_true, decide_eq_true_eq,
    beq_iff_eq] at h
  simp only [isAlphaByte, alphaChar, Bool.or_eq_false_iff, Bool.and_eq_false_iff,
    decide_eq_false_iff_not]
  omega

/-- White space behind a stream that has a token changes nothing in the token. -/
theorem nextToken_append (h : nextToken u = .ok (t, rest)) (hs : isSpaceByte s = true) :
    nextToken (u ++ s :: v) = .ok (t, rest ++ s :: v) := by
  unfold nextToken at h ⊢
  cases hd : u.dropWhile isSpaceByte with
  | nil =>
    rw [hd] at h
    cases h
  | cons c cs =>
    rw [hd] at h
    rw [(dropWhile_before hd _).1]
    simp only at h ⊢
    split at h
    · rename_i hc
      cases h
      obtain ⟨hdrop, htake⟩ := dropWhile_stop (u := c :: cs) (v := v) (space_not_alpha hs)
      rw [List.cons_append] at hdrop htake
      rw [if_pos hc, hdrop, htake]
    · rename_i hc
      rw [if_neg hc]
      split at h
      · rename_i ha
        cases h
        rw [if_pos ha]
      · rename_i ha
        rw [if_neg ha]
        split at h
        · rename_i hq
          rw [if_pos hq]
          cases hl : cs.dropWhile (· != 34#8) with
          | nil =>
            rw [hl] at h
            cases h
          | cons q rest' =>
            obtain ⟨hdrop, htake⟩ := dropWhile_before hl (s :: v)
            rw [hl] at h
            cases h
            rw [hdrop, htake]
        · cases h

theorem after_append (t : Token) (rest : List Byte) :
    t.after (rest ++ s :: v) =
      if (t.type = .id ∨ t.type = .str) ∧ rest = [] then v else t.after rest ++ s :: v := by
  unfold Token.after
  cases rest with
  | nil => simp
  | cons c rest =>
    simp only [List.cons_append, List.tail_cons, reduceCtorEq, and_false, ↓reduceIte]
    split
    · rfl
    · rfl

theorem after_length (t : Token) (rest : List Byte) : (t.after rest).length ≤ rest.length := by
  unfold Token.after
  split
  · exact List.length_tail ▸ Nat.sub_le _ _
  · exact Nat.le_refl _

theorem tokensFrom_fuel {n m : Nat} (hn : v.length < n) (hm : v.length < m) :
    tokensFrom n (lexed KWORDS (codes v)) = tokensFrom m (lexed KWORDS (codes v)) := by
  induction n generalizing v m with
  | zero => exact absurd hn (Nat.not_lt_zero _)
  | succ n ih =>
    obtain ⟨m, rfl⟩ : ∃ k, m = k + 1 := ⟨m - 1, by omega⟩
    cases hv : lexed KWORDS (codes v) with
    | error e => rfl
    | ok t =>
      simp only [tokensFrom]
      split
      · rfl
      · rename_i hne
        obtain ⟨rest, hrest, hconsumes⟩ := lexed_consumes hv hne
        have hlt := hconsumes.2
        rw [hrest, ih (m := m) (by omega) (by omega)]

theorem tokensFrom_next {n : Nat} (h : nextToken u = .ok (t, rest)) :
    pushesOf (tokensFrom (n + 1) (lexed KWORDS (codes u))) =
      followed ([(t.type.val, codes t.lexeme)], .error .fuel)
        (pushesOf (tokensFrom n (lexed KWORDS (codes (t.after rest))))) := by
  have htype := (nextToken_covers h).1.type
  rw [lexed_next, h]
  simp only [tokensFrom, htype, ↓reduceIte]
  rfl

theorem followed_assoc (x y z : List α × Res α) :
    followed x (followed y z) = followed (followed x y) z := by
  simp [followed]

/-- By induction over the tokens of u: the calls see the same token in both
streams, until u has no more. -/
theorem tokensFrom_append (hs : isSpaceByte s = true) {nu nv nw : Nat} (hu : u.length < nu)
    (hv : v.length < nv) (hw : (u ++ s :: v).length < nw) {t : Int × List Int}
    (hend : (pushesOf (tokensFrom nu (lexed KWORDS (codes u)))).2 = .ok t) :
    pushesOf (tokensFrom nw (lexed KWORDS (codes (u ++ s :: v)))) =
      followed (pushesOf (tokensFrom nu (lexed KWORDS (codes u))))
        (pushesOf (tokensFrom nv (lexed KWORDS (codes v)))) := by
  induction nu generalizing u nw with
  | zero => exact absurd hu (Nat.not_lt_zero _)
  | succ n ih =>
    have hlen : (u ++ s :: v).length = u.length + (v.length + 1) := by simp
    cases hnext : nextToken u with
    | error e =>
      have hlexed := lexed_next u
      rw [hnext] at hlexed
      cases e with
      | invalid c =>
        rw [hlexed] at hend
        cases hend
      | malformed m =>
        rw [hlexed] at hend
        cases hend
      | eof =>
        have hgap : lexed KWORDS (codes (u ++ s :: v)) = lexed KWORDS (codes v) := by
          rw [lexed_next, nextToken_gap hnext hs, ← lexed_next]
        rw [hgap, hlexed, tokensFrom_fuel (m := nv) (by omega) hv]
        rfl
    | ok p =>
      obtain ⟨tok, rest⟩ := p
      have hlt := nextToken_length hnext
      have hafter := after_length tok rest
      obtain ⟨m, rfl⟩ : ∃ k, nw = k + 1 := ⟨nw - 1, by omega⟩
      rw [tokensFrom_next hnext] at hend
      rw [tokensFrom_next (nextToken_append hnext hs), tokensFrom_next hnext, after_append,
        ← followed_assoc]
      congr 1
      split
      · -- the identifier at the end of u takes the white space
        rename_i hlast
        have hnil : tok.after rest = [] := by
          rw [Token.after, if_pos hlast.1, hlast.2]
          rfl
        obtain ⟨n, rfl⟩ : ∃ k, n = k + 1 := ⟨n - 1, by omega⟩
        rw [hnil, tokensFrom_fuel (m := nv) (by omega) hv]
        rfl
      · exact ih (by omega) (by simp; omega) hend

end

/-- The lexeme that pushes make. -/
def lexemeOf (pushes : List Int) : Dstr :=
  match pushAll dstrInit pushes with
  | .ok d => d
  | .error _ => dstrInit

def written (run : List (Int × List Int) × Res (Int × List Int)) :
    List (Int × Dstr) × Res (Int × Dstr) :=
  (run.1.map (Prod.map id lexemeOf), run.2.map (Prod.map id lexemeOf))

theorem written_followed (x y : List (Int × List Int) × Res (Int × List Int)) :
    written (followed x y) = followed (written x) (written y) := by
  simp [written, followed]

section
variable {σ : Type} {getc : σ → Res (Int × σ)} {R : σ → List Int → Prop}

theorem Leaves.token {l : Lex σ} {t : Lexed} (h : Leaves R l t) :
    l.token = Prod.map id lexemeOf t.token := by
  simp [Lex.token, Lexed.token, lexemeOf, h.type, h.pushed]

/-- The tokens of a run depend on nothing but the values. -/
theorem tokensOf_run (hs : Serves getc BUF_EOF R) {b : σ} {w : List Byte} (hr : R b (codes w))
    {fuel : Nat} (hf : w.length + 1 < fuel) : tokensOf (lexRun getc KWORDS fuel b) =
      written (pushesOf (tokensFrom fuel (lexed KWORDS (codes w)))) := by
  have hlen : (codes w).length + 1 < fuel := by simpa [codes] using hf
  obtain ⟨hstates, hend⟩ := lexRun_alike hs hr hlen
  refine Prod.ext ?_ ?_
  · simp only [tokensOf, written, pushesOf, List.map_map]
    generalize (lexRun getc KWORDS fuel b).1 = ls at hstates
    generalize (tokensFrom fuel (lexed KWORDS (codes w))).1 = ts at hstates
    induction hstates with
    | nil => rfl
    | cons h _ ih => rw [List.map_cons, List.map_cons, ih, h.token, Function.comp_apply]
  · simp only [tokensOf, written, pushesOf]
    generalize (lexRun getc KWORDS fuel b).2 = x at hend
    generalize (tokensFrom fuel (lexed KWORDS (codes w))).2 = y at hend
    cases hend with
    | stop e => rfl
    | ret related => simp [Except.map, related.token]

/-- Lexing u to its end, white space, and v gives the tokens of u and then all
that lexing v gives. -/
theorem lex_run_append (hs : Serves getc BUF_EOF R) {bu bv bw : σ} {u v : List Byte} {s : Byte}
    (hspace : isSpaceByte s = true) (hu : R bu (codes u)) (hv : R bv (codes v))
    (hw : R bw (codes (u ++ s :: v))) {fuel : Nat} (hf : (u ++ s :: v).length + 1 < fuel)
    {l : Lex σ} (hend : (lexRun getc KWORDS fuel bu).2 = .ok l) :
    tokensOf (lexRun getc KWORDS fuel bw) =
      followed (tokensOf (lexRun getc KWORDS fuel bu)) (tokensOf (lexRun getc KWORDS fuel bv)) := by
  have hlen : (u ++ s :: v).length = u.length + (v.length + 1) := by simp
  have hlenu : (codes u).length + 1 < fuel := by
    simp only [codes, List.length_map]
    omega
  obtain ⟨-, halike⟩ := lexRun_alike hs hu hlenu
  rw [hend] at halike
  obtain ⟨t, ht, -⟩ := halike.ok_left
  have hpushes : (pushesOf (tokensFrom fuel (lexed KWORDS (codes u)))).2 = .ok t.token := by
    simp [pushesOf, ht, Except.map]
  have happend : pushesOf (tokensFrom fuel (lexed KWORDS (codes (u ++ s :: v)))) =
      followed (pushesOf (tokensFrom fuel (lexed KWORDS (codes u))))
        (pushesOf (tokensFrom fuel (lexed KWORDS (codes v)))) :=
    tokensFrom_append hspace (by omega) (by omega) (by omega) hpushes
  rw [tokensOf_run hs hw hf, tokensOf_run hs hu (by omega), tokensOf_run hs hv (by omega),
    ← written_followed, happend]

end

/-- "a" and "=". -/
theorem lex_run_append_assign :
    tokensOf (lexRun (fromList BUF_EOF) KWORDS 6 (codes ([97#8] ++ 32#8 :: [61#8]))) =
      followed (tokensOf (lexRun (fromList BUF_EOF) KWORDS 6 (codes [97#8])))
        (tokensOf (lexRun (fromList BUF_EOF) KWORDS 6 (codes [61#8]))) := by
  have hend : ∃ l, (lexRun (fromList BUF_EOF) KWORDS 6 (codes [97#8])).2 = .ok l := ⟨_, rfl⟩
  obtain ⟨l, hend⟩ := hend
  exact lex_run_append (from_list_serves BUF_EOF) rfl rfl rfl rfl (by decide) hend

end Mepl
