import Mepl.C.Chars
import Mepl.Lex.Grammar

namespace Mepl
open Base

section
variable {σ : Type} (getc : σ → Res (Int × σ)) (fuel : Nat) (b : σ)

/-- The states lex_init and every later lex_next that returns leave. -/
inductive Reached : Lex σ → Prop
  | init {l : Lex σ} (run : lexInit getc KWORDS fuel b = .ok l) : Reached l
  | next {l l' : Lex σ} (before : Reached l) (run : lexNext getc KWORDS fuel l = .ok l') :
      Reached l'

end

/-- The state of a lexer over the stream w, of which rest is still to be read. -/
structure LexInv {σ : Type} (w rest : List Byte) (l : Lex σ) : Prop where
  type : TT.eof.val ≤ l.lType ∧ l.lType < TT.count.val
  putback : l.lPutback = 0
  unread : rest <:+ w
  empty : l.lType = TT.eof.val ∨ l.lType = TT.assign.val → Faithful [] l.lLex
  ident : l.lType = TT.id.val → ∃ c s, Faithful (c :: s) l.lLex ∧ isLowerByte c = true ∧
    (∀ b ∈ c :: s, isAlphaByte b = true) ∧ ∀ k ∈ KWORDS, k.kId ≠ some (c :: s)
  str : l.lType = TT.str.val → Faithful [115#8, 116#8, 114#8] l.lLex
  /-- the pushed characters are those between the last two quotes read -/
  strLit : l.lType = TT.strLit.val → ∃ pre s, w = pre ++ 34#8 :: s ++ 34#8 :: rest ∧
    pushAll dstrInit (codes s) = .ok l.lLex ∧ 34#8 ∉ s
  consumed : l.lType = TT.eof.val → rest = []

theorem alpha_nul_safe {s : List Byte} (h : ∀ b ∈ s, isAlphaByte b = true) : NulSafe s := by
  right
  intro hz
  exact absurd (h _ (List.mem_of_mem_take hz)) (by decide)

/-- The only keyword is str. -/
theorem ident_not_kword {s : List Byte} (h : identType s = .id) : ∀ k ∈ KWORDS, k.kId ≠ some s := by
  intro k hk hs
  rw [KWORDS, List.mem_singleton] at hk
  subst hk
  have he : s = [115#8, 116#8, 114#8] := (Option.some.inj hs).symm
  rw [identType, if_pos he] at h
  cases h

theorem ident_str {s : List Byte} (h : identType s = .str) : s = [115#8, 116#8, 114#8] := by
  unfold identType at h
  split at h
  · assumption
  · cases h

theorem TT.val_inj {t u : TT} : t.val = u.val ↔ t = u := by
  cases t <;> cases u <;> decide

/-- The tokens a call over byte values can leave. -/
theorem lexed_codes {v : List Byte} {t : Lexed} (h : lexed KWORDS (codes v) = .ok t) :
    t = ⟨TT.eof.val, [], []⟩ ∨ ∃ tok gap rest left, IsToken tok ∧
      v = gap ++ tok.spelling ++ rest ∧ left <:+ rest ∧
      (tok.type = .strLit → left = rest) ∧
      t = ⟨tok.type.val, codes tok.lexeme, codes left⟩ := by
  rw [lexed_next] at h
  split at h
  · cases h
    exact Or.inl rfl
  · cases h
  · cases h
  · rename_i tok rest hn
    cases h
    obtain ⟨htok, gap, _, hv⟩ := nextToken_covers hn
    refine Or.inr ⟨tok, gap, rest, _, htok, hv, ?_, ?_, rfl⟩
    · split
      · exact List.tail_suffix rest
      · exact List.suffix_refl rest
    · intro ht
      simp [ht]

section
variable {σ : Type} {getc : σ → Res (Int × σ)} {R : σ → List Int → Prop}

/-- One call of lex_next: what it leaves, whatever it started from. -/
theorem lexNext_inv (hs : Serves getc BUF_EOF R) {fuel : Nat} {w v : List Byte} {l l' : Lex σ}
    (h : Between R l (codes v)) (hv : v <:+ w) (hf : w.length + 1 < fuel)
    (hrun : lexNext getc KWORDS fuel l = .ok l') :
    ∃ rest, Between R l' (codes rest) ∧ LexInv w rest l' := by
  have halike := lexNext_alike hs KWORDS h (n := fuel)
    (by simpa [codes] using Nat.lt_of_le_of_lt (Nat.succ_le_succ hv.length_le) hf)
  rw [hrun] at halike
  obtain ⟨t, ht, hl⟩ := halike.ok_left
  have hbetween := hl.between (lexed_found ht)
  have hh := hl.holds
  rcases lexed_codes ht with rfl | ⟨tok, gap, rest, left, htok, hcov, hleft, hlit, rfl⟩
  · have htype : l'.lType = TT.eof.val := hl.type
    refine ⟨[], hbetween, ?_⟩
    constructor
    case type => exact hbetween.type
    case putback => exact hl.putback
    case unread => exact List.nil_suffix
    case empty => exact fun _ => hh.faithful_iff.mpr (Or.inl (Nat.zero_le _))
    case consumed => exact fun _ => rfl
    all_goals
      intro hc
      rw [htype, TT.val_inj] at hc
      cases hc
  · have htype : l'.lType = tok.type.val := hl.type
    simp only [text_codes] at hh
    have hsuffix : left <:+ w :=
      hleft.trans ((hcov ▸ List.suffix_append _ rest).trans hv)
    refine ⟨left, hbetween, ?_⟩
    constructor
    case type => exact hbetween.type
    case putback => exact hl.putback
    case unread => exact hsuffix
    case consumed => exact fun hc => absurd (htype ▸ hc) htok.type
    case empty =>
      intro hc
      rw [htype, TT.val_inj, TT.val_inj] at hc
      cases htok with
      | @ident c s =>
        rcases identType_cases (c :: s) with hi | hi <;> simp [hi] at hc
      | assign => exact hh.faithful_iff.mpr (Or.inl (Nat.zero_le _))
      | strLit => simp at hc
    case ident =>
      intro hc
      rw [htype, TT.val_inj] at hc
      cases htok with
      | @ident c s lower alpha =>
        exact ⟨c, s, hh.faithful_iff.mpr (alpha_nul_safe alpha), lower, alpha,
          ident_not_kword hc⟩
      | assign => cases hc
      | strLit => cases hc
    case str =>
      intro hc
      rw [htype, TT.val_inj] at hc
      cases htok with
      | @ident c s lower alpha =>
        have he := ident_str hc
        exact he ▸ hh.faithful_iff.mpr (alpha_nul_safe alpha)
      | assign => cases hc
      | strLit => cases hc
    case strLit =>
      intro hc
      rw [htype, TT.val_inj] at hc
      cases htok with
      | @ident c s lower alpha =>
        rcases identType_cases (c :: s) with hi | hi <;> simp [hi] at hc
      | assign => cases hc
      | @strLit s unquoted =>
        obtain ⟨pre, hpre⟩ := hv
        refine ⟨pre ++ gap, s, ?_, hl.pushed, unquoted⟩
        rw [← hpre, hcov, hlit rfl]
        simp [Token.spelling]

/-- Every state lex_init and lex_next leave is one of the reference's tokens,
or the end of the whole stream. -/
theorem lex_invariant (hs : Serves getc BUF_EOF R) {fuel : Nat} {b : σ} {w : List Byte}
    (hr : R b (codes w)) (hf : w.length + 1 < fuel) {l : Lex σ} (h : Reached getc fuel b l) :
    ∃ rest, R l.lBuf (codes rest) ∧ LexInv w rest l := by
  have hstep : ∃ rest, Between R l (codes rest) ∧ LexInv w rest l := by
    induction h with
    | init run => exact lexNext_inv hs (between_init hr) (List.suffix_refl w) hf run
    | next _ run ih =>
      obtain ⟨v, hb, hi⟩ := ih
      exact lexNext_inv hs hb hi.unread hf run
  obtain ⟨rest, hb, hi⟩ := hstep
  exact ⟨rest, hb.reads, hi⟩

end

/-- A line with a token of every kind: str ab = "x" -/
def strLine : List Byte := chars "str ab = " ++ [34#8, 120#8, 34#8]

/-- The states at its identifier and at its literal, one and three calls of
lex_next after lex_init. -/
theorem reached_str_line : ∃ l l' : Lex (List Int),
    Reached (fromList BUF_EOF) 20 (codes strLine) l ∧ l.lType = TT.id.val ∧
    Reached (fromList BUF_EOF) 20 (codes strLine) l' ∧ l'.lType = TT.strLit.val := by
  have hstr : Reached (fromList BUF_EOF) 20 (codes strLine) _ := .init rfl
  have hid := hstr.next rfl
  have hassign := hid.next rfl
  exact ⟨_, _, hid, rfl, hassign.next rfl, rfl⟩

theorem lex_invariant_str_line : ∃ l l' : Lex (List Int),
    l.lType = TT.id.val ∧ (∃ rest, l.lBuf = codes rest ∧ LexInv strLine rest l) ∧
    l'.lType = TT.strLit.val ∧ ∃ rest, l'.lBuf = codes rest ∧ LexInv strLine rest l' := by
  obtain ⟨l, l', hid, htype, hlit, htype'⟩ := reached_str_line
  have hfuel : strLine.length + 1 < 20 := by decide
  exact ⟨l, l', htype, lex_invariant (from_list_serves BUF_EOF) rfl hfuel hid,
    htype', lex_invariant (from_list_serves BUF_EOF) rfl hfuel hlit⟩

end Mepl
