import Mepl.Buf.Agree
import Mepl.Lex.Compose

namespace Mepl
open Base

/-- token type names -/
def TT_NAMES : List (List Byte) :=
  ["TT_EOF", "TT_STR", "TT_ID", "TT_ASSIGN", "TT_STR_LIT"].map chars

def bufStdioFree (dataSize : Nat) (b : BufStdio) : Res Unit := bufStdioOk dataSize b

section
variable {σ : Type}

def lexName (l : Lex σ) : Res (List Byte) := do
  lexOk l
  index TT_NAMES l.lType

/-- One turn of the loop of main: its three calls of printf. -/
def mainLine (l : Lex σ) : Res (List Byte) := do
  let name ← lexName l
  let lexeme ← if l.lType = TT.id.val ∨ l.lType = TT.strLit.val then do
      let s ← cstr (← l.lLex.cur)
      pure (chars ": " ++ s)
    else pure []
  pure (name ++ lexeme ++ chars "\n")

variable (getc : σ → Res (Int × σ))

/-- The loop of main: what is printed, and how it ends. -/
def mainOut (fuel : Nat) : Nat → Res (Lex σ) → List Byte × Res (Lex σ)
  | 0, _ => ([], .error .fuel)
  | _ + 1, .error e => ([], .error e)
  | n + 1, .ok l =>
    if l.lType = TT.eof.val then ([], .ok l)
    else match mainLine l with
      | .error e => ([], .error e)
      | .ok line =>
        let (out, r) := mainOut fuel n (lexNext getc KWORDS fuel l)
        (line ++ out, r)

end

/-- c/main.c with content at its standard input: the text at its standard
output, and the lexer it leaves when it returns. -/
def main (dataSize fuel : Nat) (content : List Byte) : List Byte × Res (Lex BufStdio) :=
  let b := bufStdioInit dataSize ⟨content, false⟩
  let (out, r) := mainOut (bufStdioGetc dataSize) fuel fuel
    (lexInit (bufStdioGetc dataSize) KWORDS fuel b)
  (out, do
    let l ← r
    bufStdioFree dataSize l.lBuf
    pure l)

/-- The tokens main finds in w: as the reference, but each search starts where
the last call left the stream. -/
def mainTokens (w : List Byte) : List Token × Ending :=
  match h : nextToken w with
  | .error e => ([], e)
  | .ok (t, rest) =>
    have := nextToken_length h
    have := after_length t rest
    (t :: (mainTokens (t.after rest)).1, (mainTokens (t.after rest)).2)
termination_by w.length

def TT.name (t : TT) : List Byte := TT_NAMES.getD t.ctorIdx []

/-- The line of a token, without its newline. -/
def Token.line (t : Token) : List Byte :=
  t.type.name ++ (if t.type = .id ∨ t.type = .strLit then chars ": " ++ t.lexeme else [])

def report (ts : List Token) : List Byte := ts.flatMap (fun t => t.line ++ chars "\n")

/-- Why main ends: it returns, with nothing in the lexer that lex_free would
give back, or usage() names what was wrong. -/
inductive MainEnds {σ : Type} (R : σ → List Int → Prop) : Res (Lex σ) → Ending → Prop
  | eof {l : Lex σ} (lexeme : l.lLex = dstrInit) (left : R l.lBuf []) : MainEnds R (.ok l) .eof
  | invalid (c : Byte) :
      MainEnds R (.error (.usage "lexer: character invalid: %c" [c])) (.invalid c)
  | malformed (s : List Byte) :
      MainEnds R (.error (.usage "malformed string: \"%s\"" s)) (.malformed s)

theorem mainTokens_error {w : List Byte} {e : Ending} (h : nextToken w = .error e) :
    mainTokens w = ([], e) := by
  rw [mainTokens]
  split
  · rename_i e' he
    rw [h] at he
    cases he
    rfl
  · rename_i t rest he
    rw [h] at he
    cases he

theorem mainTokens_ok {w rest : List Byte} {t : Token} (h : nextToken w = .ok (t, rest)) :
    mainTokens w = (t :: (mainTokens (t.after rest)).1, (mainTokens (t.after rest)).2) := by
  rw [mainTokens]
  split
  · rename_i e he
    rw [h] at he
    cases he
  · rename_i t' rest' he
    rw [h] at he
    cases he
    rfl

theorem IsToken.ne_count {t : Token} (h : IsToken t) : t.type ≠ .count := by
  cases h with
  | @ident c s => rcases identType_cases (c :: s) with hi | hi <;> simp [hi]
  | assign => simp
  | strLit => simp

theorem TT.index_name {t : TT} (h : t ≠ .count) : index TT_NAMES t.val = .ok t.name := by
  cases t <;> first | rfl | exact absurd rfl h

/-- The text of an open literal is the end of the stream. -/
theorem nextToken_malformed {w s : List Byte} (h : nextToken w = .error (.malformed s)) :
    s <:+ w := by
  unfold nextToken at h
  split at h
  · cases h
  · rename_i c cs hd
    split at h
    · cases h
    · split at h
      · cases h
      · split at h
        · split at h
          · cases h
            exact (List.suffix_cons c s).trans (hd ▸ List.dropWhile_suffix isSpaceByte)
          · cases h
        · cases h

theorem after_suffix (t : Token) (rest : List Byte) : t.after rest <:+ rest := by
  unfold Token.after
  split
  · exact List.tail_suffix rest
  · exact List.suffix_refl rest

theorem lexeme_sublist (t : Token) (h : IsToken t) : t.lexeme.Sublist t.spelling := by
  cases h with
  | ident => rw [spelling_ident]
  | assign => exact List.nil_sublist _
  | strLit => simp [Token.spelling]

section
variable {σ : Type} {getc : σ → Res (Int × σ)} {R : σ → List Int → Prop}

/-- What is printed of the state a token was left in. -/
theorem Leaves.line {l : Lex σ} {t : Token} {rest : List Int}
    (h : Leaves R l ⟨t.type.val, codes t.lexeme, rest⟩) (ht : t.type ≠ .count)
    (hz : 0#8 ∉ t.lexeme) : mainLine l = .ok (t.line ++ chars "\n") := by
  have htype : l.lType = t.type.val := h.type
  have hbetween : Between R l rest := ⟨h.toReady, htype ▸ TT.val_range ht, ⟨_, h.holds⟩⟩
  have hname : lexName l = .ok t.type.name := by
    rw [lexName, hbetween.ok, ok_bind, htype, TT.index_name ht]
  have hh := h.holds
  simp only [text_codes] at hh
  obtain ⟨tail, hcur⟩ := hh.cur
  have hstr : cstr (stored t.lexeme ++ some 0#8 :: tail) = .ok t.lexeme := by
    rw [cstr_stored, takeWhile_nul_free hz]
  simp only [mainLine, hname, ok_bind, htype, TT.val_inj, Token.line]
  split
  · simp [hcur, hstr]
  · simp

/-- The loop of main, by induction over the tokens that the calls find. -/
theorem mainOut_prints (hs : Serves getc BUF_EOF R) {fuel n : Nat} (w : List Byte)
    {x : Res (Lex σ)} (h : Alike (Leaves R) x (lexed KWORDS (codes w))) (hz : 0#8 ∉ w)
    (hf : w.length + 1 < fuel) (hn : w.length < n) :
    (mainOut getc fuel n x).1 = report (mainTokens w).1 ∧
      MainEnds R (mainOut getc fuel n x).2 (mainTokens w).2 := by
  induction w using mainTokens.induct generalizing n x with
  | case1 w e he =>
    obtain ⟨n, rfl⟩ : ∃ k, n = k + 1 := ⟨n - 1, by omega⟩
    rw [mainTokens_error he]
    rw [lexed_next, he] at h
    cases e with
    | eof =>
      obtain ⟨l, rfl, hl⟩ := h.ok
      have ht : l.lType = TT.eof.val := hl.type
      have hlex : l.lLex = dstrInit := Except.ok.inj hl.pushed.symm
      simp only [mainOut, ht, ↓reduceIte]
      exact ⟨rfl, .eof hlex hl.reads⟩
    | invalid c =>
      rw [h.error]
      exact ⟨rfl, .invalid c⟩
    | malformed s =>
      have hs : 0#8 ∉ s := fun hin => hz ((nextToken_malformed he).subset hin)
      simp only [takeWhile_nul_free hs] at h
      rw [h.error]
      exact ⟨rfl, .malformed s⟩
  | case2 w t rest he hlt hle ih =>
    obtain ⟨n, rfl⟩ : ∃ k, n = k + 1 := ⟨n - 1, by omega⟩
    obtain ⟨htok, gap, -, hw⟩ := nextToken_covers he
    have hrest : 0#8 ∉ t.after rest := fun hin => hz (by
      rw [hw]
      exact List.mem_append_right _ ((after_suffix t rest).subset hin))
    have hlexeme : 0#8 ∉ t.lexeme := fun hin => hz (by
      rw [hw, List.append_assoc]
      exact List.mem_append_right _
        (List.mem_append_left _ ((lexeme_sublist t htok).subset hin)))
    rw [mainTokens_ok he]
    rw [lexed_next, he] at h
    obtain ⟨l, rfl, hl⟩ := h.ok
    have hne : l.lType ≠ TT.eof.val := hl.type ▸ htok.type
    have hfound := lexed_found (by rw [lexed_next, he])
    have hnext : Alike (Leaves R) (lexNext getc KWORDS fuel l)
        (lexed KWORDS (codes (t.after rest))) :=
      lexNext_alike hs KWORDS (hl.between hfound) (by
        rw [codes, List.length_map]
        omega)
    obtain ⟨hout, hend⟩ := ih (n := n) hnext hrest (by omega) (by omega)
    simp only [mainOut, hne, ↓reduceIte, hl.line htok.ne_count hlexeme, hout]
    exact ⟨rfl, hend⟩

end

theorem stdio_free_ok {dataSize : Nat} {b : BufStdio} {vs : List Int}
    (h : StdioServes dataSize b vs) : bufStdioFree dataSize b = .ok () := by
  obtain ⟨-, hdata, he, -⟩ := h
  have hlt := he.lt
  have hin : ¬ dataSize < b.sP := by omega
  simp [bufStdioFree, bufStdioOk, hin]

/-- The values of an ASCII content without NUL are its characters. -/
theorem stdio_codes {dataSize : Nat} {w : List Byte} (hsize : 2 ≤ dataSize) (hz : 0#8 ∉ w)
    (ascii : ∀ b ∈ w, b.toNat < 128) :
    StdioServes dataSize (bufStdioInit dataSize ⟨w, false⟩) (codes w) := by
  have hflat := linesOf_flatten (n := dataSize - 1) (by omega) w
  have hline : ∀ bs ∈ linesOf (dataSize - 1) w, stdioLine bs = bs.map charToInt := by
    intro bs hb
    apply stdioLine_whole
    intro hin
    apply hz
    rw [← hflat]
    exact List.mem_flatten.mpr ⟨bs, hb, List.mem_of_mem_tail hin⟩
  have hcodes : codes w = w.map charToInt := by
    refine List.map_congr_left (fun b hb => ?_)
    have hb := ascii b hb
    rw [charToInt, BitVec.toInt_eq_toNat_of_lt (by omega)]
  rw [hcodes, ← hflat, ← flatMap_whole hline, hflat]
  exact stdio_init_serves dataSize w

/-- For every ASCII input without NUL, and whatever the size of the array that
fgets fills, main prints the line of each token in turn and then returns, or
exits in usage() at the first thing that is no token. -/
theorem main_prints {w : List Byte} (hz : 0#8 ∉ w) (ascii : ∀ b ∈ w, b.toNat < 128)
    {dataSize fuel : Nat} (hsize : 2 ≤ dataSize) (hf : w.length + 1 < fuel) :
    (main dataSize fuel w).1 = report (mainTokens w).1 ∧
      MainEnds (StdioServes dataSize) (main dataSize fuel w).2 (mainTokens w).2 := by
  have hinit := between_init (stdio_codes hsize hz ascii)
  have hserves := stdio_serves hsize
  have hfirst := lexNext_alike hserves KWORDS (n := fuel) hinit (by simpa [codes] using hf)
  obtain ⟨hout, hend⟩ := mainOut_prints (n := fuel) hserves w hfirst hz hf (by omega)
  refine ⟨hout, ?_⟩
  have hmain : (main dataSize fuel w).2 = (do
      let l ← (mainOut (bufStdioGetc dataSize) fuel fuel
        (lexInit (bufStdioGetc dataSize) KWORDS fuel (bufStdioInit dataSize ⟨w, false⟩))).2
      bufStdioFree dataSize l.lBuf
      pure l) := rfl
  rw [hmain, lexInit]
  revert hend
  generalize (mainOut (bufStdioGetc dataSize) fuel fuel _).2 = r
  generalize (mainTokens w).2 = e
  intro hend
  cases hend with
  | eof lexeme left =>
    rw [ok_bind, stdio_free_ok left]
    exact .eof lexeme left
  | invalid c => exact .invalid c
  | malformed s => exact .malformed s

theorem main_prints_assign :
    (main 2 5 [97#8, 32#8, 61#8]).1 = report (mainTokens [97#8, 32#8, 61#8]).1 ∧
      MainEnds (StdioServes 2) (main 2 5 [97#8, 32#8, 61#8]).2 (mainTokens [97#8, 32#8, 61#8]).2 :=
  main_prints (by decide) (by decide) (Nat.le_refl 2) (by decide)

/-- The token that a line of the output names. -/
def readLine (line : List Byte) : Option Token :=
  if line = TT.str.name then some ⟨.str, chars "str"⟩
  else if line = TT.assign.name then some ⟨.assign, []⟩
  else match (TT.id.name ++ chars ": ").isPrefixOf? line with
    | some s => some ⟨.id, s⟩
    | none => ((TT.strLit.name ++ chars ": ").isPrefixOf? line).map (fun s => ⟨.strLit, s⟩)

/-- Reading the whole output line by line. -/
def readReport (out : List Byte) : Option (List Token) :=
  (out.splitOn 10#8).dropLast.mapM readLine

/-- Tokens as they are written so that none is lost: white space before each,
and behind an identifier white space or nothing. -/
inductive Written : List Token → List Byte → Prop
  | nil {gap : List Byte} (spaces : ∀ b ∈ gap, isSpaceByte b = true) : Written [] gap
  | cons {t : Token} {ts : List Token} {gap w : List Byte} (token : IsToken t)
      (spaces : ∀ b ∈ gap, isSpaceByte b = true)
      (next : t.type = .id ∨ t.type = .str → ∀ c, w.head? = some c → isSpaceByte c = true)
      (rest : Written ts w) : Written (t :: ts) (gap ++ t.spelling ++ w)

/-- A line with a lexeme is no line without one. -/
theorem line_of_prefix {p line : List Byte} (h : p.isPrefixOf? line = none) (s : List Byte) :
    p ++ s ≠ line := by
  intro he
  rw [List.isPrefixOf?_eq_some_iff_append_eq.mpr he] at h
  cases h

theorem readLine_line {t : Token} (ht : IsToken t) : readLine t.line = some t := by
  cases ht with
  | @ident c s lower alpha =>
    rcases identType_cases (c :: s) with hi | hi
    · have hline : Token.line ⟨identType (c :: s), c :: s⟩ =
          TT.id.name ++ chars ": " ++ (c :: s) := by
        simp [Token.line, hi]
      have hprefix := List.isPrefixOf?_eq_some_iff_append_eq.mpr hline.symm
      have hstr : TT.id.name ++ chars ": " ++ (c :: s) ≠ TT.str.name := line_of_prefix rfl _
      have hassign : TT.id.name ++ chars ": " ++ (c :: s) ≠ TT.assign.name :=
        line_of_prefix rfl _
      rw [readLine, hprefix, hline, if_neg hstr, if_neg hassign, hi]
    · have hs := ident_str hi
      rw [hs]
      rfl
  | assign => rfl
  | @strLit s unquoted =>
    have hline : Token.line ⟨.strLit, s⟩ = TT.strLit.name ++ chars ": " ++ s := by
      simp [Token.line]
    have hprefix := List.isPrefixOf?_eq_some_iff_append_eq.mpr hline.symm
    have hstr : TT.strLit.name ++ chars ": " ++ s ≠ TT.str.name := line_of_prefix rfl s
    have hassign : TT.strLit.name ++ chars ": " ++ s ≠ TT.assign.name := line_of_prefix rfl s
    have hid : (TT.id.name ++ chars ": ").isPrefixOf? (TT.strLit.name ++ chars ": " ++ s) =
        none := rfl
    rw [readLine, hprefix, hline, if_neg hstr, if_neg hassign, hid]
    rfl

theorem line_no_newline {t : Token} (hn : 10#8 ∉ t.lexeme) : 10#8 ∉ t.line := by
  have hname : ∀ u : TT, 10#8 ∉ u.name := by
    intro u
    cases u <;> decide
  have hsep : 10#8 ∉ chars ": " := by decide
  unfold Token.line
  split
  · simp [hname, hsep, hn]
  · simp [hname]

/-- The output names its tokens, unless a literal among them has a newline. -/
theorem readReport_report {ts : List Token} (ht : ∀ t ∈ ts, IsToken t)
    (hn : ∀ t ∈ ts, 10#8 ∉ t.lexeme) : readReport (report ts) = some ts := by
  have hlines : (report ts).splitOn 10#8 = ts.map Token.line ++ [[]] := by
    induction ts with
    | nil => rfl
    | cons t ts ih =>
      rw [List.forall_mem_cons] at ht hn
      have hline := line_no_newline hn.1
      have hreport : report (t :: ts) = t.line ++ 10#8 :: report ts := by
        simp [report, chars]
      rw [hreport, List.splitOn_append_cons_self_of_not_mem hline, ih ht.2 hn.2]
      rfl
  have hread : ∀ ts : List Token, (∀ t ∈ ts, IsToken t) →
      (ts.map Token.line).mapM readLine = some ts := by
    intro ts ht
    induction ts with
    | nil => rfl
    | cons t ts ih =>
      rw [List.forall_mem_cons] at ht
      rw [List.map_cons, List.mapM_cons, readLine_line ht.1, ih ht.2]
      rfl
  rw [readReport, hlines, List.dropLast_concat]
  exact hread ts ht

theorem nextToken_written {t : Token} (ht : IsToken t) {gap w : List Byte}
    (hgap : ∀ b ∈ gap, isSpaceByte b = true)
    (hnext : t.type = .id ∨ t.type = .str → ∀ c, w.head? = some c → isSpaceByte c = true) :
    nextToken (gap ++ t.spelling ++ w) = .ok (t, w) := by
  unfold nextToken
  rw [List.append_assoc, List.dropWhile_append_of_pos hgap]
  cases ht with
  | @ident c s lower alpha =>
    have hspace : isSpaceByte c = false := by
      cases hc : isSpaceByte c with
      | false => rfl
      | true => exact absurd (lower_alpha lower) (by simp [space_not_alpha hc])
    have hstop : w.takeWhile isAlphaByte = [] ∧ w.dropWhile isAlphaByte = w := by
      cases w with
      | nil => exact ⟨rfl, rfl⟩
      | cons d w =>
        have hd := space_not_alpha (hnext (identType_cases (c :: s)) d rfl)
        simp [hd]
    rw [spelling_ident, List.cons_append, List.dropWhile_cons_of_neg (by simp [hspace])]
    simp only [lower, ↓reduceIte]
    rw [← List.cons_append, List.takeWhile_append_of_pos alpha, List.dropWhile_append_of_pos alpha,
      hstop.1, hstop.2, List.append_nil]
  | assign => rfl
  | @strLit s unquoted =>
    have hs : ∀ b ∈ s, (b != 34#8) = true := by
      intro b hb
      rw [bne_iff_ne]
      rintro rfl
      exact unquoted hb
    have hspelling : Token.spelling ⟨.strLit, s⟩ ++ w = 34#8 :: (s ++ 34#8 :: w) := by
      simp [Token.spelling]
    rw [hspelling, List.dropWhile_cons_of_neg (by decide)]
    have hlow : isLowerByte 34#8 = false := rfl
    simp only [hlow, Bool.false_eq_true, ↓reduceIte]
    rw [List.dropWhile_append_of_pos hs, List.takeWhile_append_of_pos hs]
    simp

theorem mainTokens_space {c : Byte} (h : isSpaceByte c = true) (w : List Byte) :
    mainTokens (c :: w) = mainTokens w := by
  have hnext := nextToken_space h w
  cases hw : nextToken w with
  | error e => rw [mainTokens_error hw, mainTokens_error (hnext.trans hw)]
  | ok p => rw [mainTokens_ok hw, mainTokens_ok (hnext.trans hw)]

/-- What is written so is found again, whole. -/
theorem Written.tokens {ts : List Token} {w : List Byte} (h : Written ts w) :
    mainTokens w = (ts, .eof) ∧ ∀ t ∈ ts, IsToken t := by
  induction h with
  | @nil gap spaces =>
    have hnone : nextToken gap = .error .eof := by
      rw [nextToken, List.dropWhile_eq_nil_iff.mpr spaces]
    exact ⟨mainTokens_error hnone, by simp⟩
  | @cons t ts gap w token spaces next rest ih =>
    have hafter : mainTokens (t.after w) = mainTokens w := by
      unfold Token.after
      split
      · rename_i ht
        cases w with
        | nil => rfl
        | cons c w => exact (mainTokens_space (next ht c rfl) w).symm
      · rfl
    rw [mainTokens_ok (nextToken_written token spaces next), hafter, ih.1]
    exact ⟨rfl, List.forall_mem_cons.mpr ⟨token, ih.2⟩⟩

/-- Tokens written one by one come back from the output of the program, in
their order, with their type and their text. -/
theorem main_reads_back {ts : List Token} {w : List Byte} (hw : Written ts w) (hz : 0#8 ∉ w)
    (ascii : ∀ b ∈ w, b.toNat < 128) (hn : ∀ t ∈ ts, 10#8 ∉ t.lexeme) {dataSize fuel : Nat}
    (hsize : 2 ≤ dataSize) (hf : w.length + 1 < fuel) :
    readReport (main dataSize fuel w).1 = some ts ∧ ∃ l, (main dataSize fuel w).2 = .ok l := by
  obtain ⟨hout, hend⟩ := main_prints hz ascii hsize hf
  obtain ⟨htokens, ht⟩ := hw.tokens
  rw [htokens] at hout hend
  refine ⟨hout ▸ readReport_report ht hn, ?_⟩
  generalize (main dataSize fuel w).2 = r at hend
  cases hend with
  | eof => exact ⟨_, rfl⟩

theorem written_assign : Written [⟨.id, [97#8]⟩, ⟨.assign, []⟩] [97#8, 32#8, 61#8] :=
  @Written.cons ⟨.id, [97#8]⟩ _ [] [32#8, 61#8] (.ident (c := 97#8) (s := []) rfl (by decide))
    (by simp) (by decide)
    (@Written.cons ⟨.assign, []⟩ _ [32#8] [] .assign (by decide) (by decide) (.nil (by simp)))

theorem main_reads_back_assign :
    readReport (main 2 5 [97#8, 32#8, 61#8]).1 = some [⟨.id, [97#8]⟩, ⟨.assign, []⟩] ∧
      ∃ l, (main 2 5 [97#8, 32#8, 61#8]).2 = .ok l :=
  main_reads_back written_assign (by decide) (by decide) (by decide) (Nat.le_refl 2) (by decide)

end Mepl
