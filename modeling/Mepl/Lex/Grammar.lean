import Mathlib.Data.List.Forall2
import Mepl.Lex.Tokens

namespace Mepl
open Base

@[simp] theorem text_codes (w : List Byte) : text (codes w) = w := by
  simp [text, codes, Function.comp_def]

theorem isspace_byte (b : Byte) : isspace b.toNat = .ok (isSpaceByte b) :=
  ctype_ok _ (in_range_byte b)

theorem isalpha_byte (b : Byte) : isalpha b.toNat = .ok (isAlphaByte b) :=
  ctype_ok _ (in_range_byte b)

theorem skipped_codes (w : List Byte) : skipped (codes w) =
    .ok (match w.dropWhile isSpaceByte with
      | [] => (BUF_EOF, [])
      | c :: cs => ((c.toNat : Int), codes cs)) := by
  induction w with
  | nil => rfl
  | cons b w ih =>
    simp only [codes, List.map_cons, skipped, isspace_byte, ok_bind, List.dropWhile_cons]
    by_cases hb : isSpaceByte b = true
    · simp only [hb, ↓reduceIte]
      exact ih
    · simp [hb]

/-- The byte that ends an identifier is dropped from what follows it. -/
theorem letters_codes (w : List Byte) : letters (codes w) =
    .ok (codes (w.takeWhile isAlphaByte), codes (w.dropWhile isAlphaByte).tail) := by
  induction w with
  | nil => rfl
  | cons b w ih =>
    simp only [codes, List.map_cons, letters, isalpha_byte, ok_bind, List.dropWhile_cons,
      List.takeWhile_cons]
    by_cases hb : isAlphaByte b = true
    · simp only [hb, ↓reduceIte]
      rw [← codes, ih]
      rfl
    · simp [hb]

theorem literal_codes (w : List Byte) : literal (codes w) =
    (codes (w.takeWhile (· != 34#8)), match w.dropWhile (· != 34#8) with
      | [] => none
      | _ :: rest => some (codes rest)) := by
  induction w with
  | nil => rfl
  | cons b w ih =>
    have he := byte_ne_eof b
    by_cases hb : b = 34#8
    · subst hb
      simp [codes, literal, BUF_EOF]
    · have hq : (b.toNat : Int) ≠ 34 := by
        intro h
        exact hb (BitVec.eq_of_toNat_eq (Int.ofNat_inj.mp h))
      simp only [codes] at ih
      simp [codes, literal, he, hq, hb, ih]

theorem index_byte (b : Byte) : index CHAR_FN b.toNat = .ok (charFn b.toNat) := by
  have := b.isLt
  apply index_ok
  simp [CHAR_FN, List.getElem?_range this]

theorem not_closed {w : List Byte} (h : w.dropWhile (· != 34#8) = []) :
    w.takeWhile (· != 34#8) = w := by
  simpa [h] using List.takeWhile_append_dropWhile (p := (· != 34#8)) (l := w)

/-- What lex_next makes of a stream of characters 0..255, by the reference:
the same tokens, but an identifier takes one character more. -/
theorem lexed_next (w : List Byte) : lexed KWORDS (codes w) =
    match nextToken w with
    | .error .eof => .ok ⟨TT.eof.val, [], []⟩
    | .error (.invalid c) => .error (.usage "lexer: character invalid: %c" [c])
    | .error (.malformed s) =>
      .error (.usage "malformed string: \"%s\"" (s.takeWhile (· != 0#8)))
    | .ok (t, rest) => .ok ⟨t.type.val, codes t.lexeme,
        codes (if t.type = .id ∨ t.type = .str then rest.tail else rest)⟩ := by
  unfold lexed nextToken
  rw [skipped_codes]
  cases hd : w.dropWhile isSpaceByte with
  | nil => simp
  | cons c cs =>
    have he := byte_ne_eof c
    have hletters := letters_codes (c :: cs)
    simp only [codes, List.map_cons] at hletters
    simp only [ok_bind, he, ↓reduceIte, index_byte]
    have hlow : isLowerByte c = true ↔ 97 ≤ c.toNat ∧ c.toNat ≤ 122 := by simp [isLowerByte]
    by_cases hc : isLowerByte c = true
    · have hid : charFn c.toNat = .id := (char_fn_id _).mpr (hlow.mp hc)
      have hty := identType_cases ((c :: cs).takeWhile isAlphaByte)
      simp only [hid, hc, ↓reduceIte, codes, hletters, ok_bind, hty, lookup_kwords, pure_ok]
      rw [← codes, text_codes]
    · have hne : charFn c.toNat ≠ .id := fun h => hc (hlow.mpr ((char_fn_id _).mp h))
      simp only [hc, Bool.false_eq_true, ↓reduceIte]
      by_cases ha : c = 61#8
      · subst ha
        rfl
      · by_cases hq : c = 34#8
        · subst hq
          simp only [literal_codes]
          cases hr : cs.dropWhile (· != 34#8) with
          | nil => simp [not_closed hr, charFn]
          | cons q rest => simp [charFn]
        · have hns : charFn c.toNat ≠ .single := fun h =>
            ha (BitVec.eq_of_toNat_eq ((char_fn_single _).mp h))
          have hnq : charFn c.toNat ≠ .str := fun h =>
            hq (BitVec.eq_of_toNat_eq ((char_fn_str _).mp h))
          have herr : charFn c.toNat = .err := by
            cases hf : charFn c.toNat <;> simp_all
          simp [herr, ha, hq]

section
variable {σ : Type} (R : σ → List Int → Prop)

/-- The lexer is at a token of the reference: with its type, its text, and
nothing but white space taken from what follows it. -/
structure AtToken (l : Lex σ) (p : Token × List Byte) : Prop where
  type : l.lType = p.1.type.val
  lexeme : Faithful p.1.lexeme l.lLex
  left : ∃ gap rest, p.2 = gap ++ rest ∧ (∀ b ∈ gap, isSpaceByte b = true) ∧ R l.lBuf (codes rest)

inductive EndsAs : Res (Lex σ) → Ending → Prop
  | eof {l : Lex σ} (type : l.lType = TT.eof.val) (lexeme : Faithful [] l.lLex)
      (left : R l.lBuf []) : EndsAs (.ok l) .eof
  | invalid (c : Byte) :
      EndsAs (.error (.usage "lexer: character invalid: %c" [c])) (.invalid c)
  | malformed (s arg : List Byte) :
      EndsAs (.error (.usage "malformed string: \"%s\"" arg)) (.malformed s)

/-- A run of the lexer is a run of the reference. -/
structure RunIs (run : List (Lex σ) × Res (Lex σ)) (ref : List (Token × List Byte) × Ending) :
    Prop where
  tokens : List.Forall₂ (AtToken R) run.1 ref.1
  ending : EndsAs R run.2 ref.2

end

/-- The next character can be lost, and no NUL stops the copy of the text. -/
def TokenOk (p : Token × List Byte) : Prop :=
  (p.1.type = .id ∨ p.1.type = .str → ∀ c, p.2.head? = some c → isSpaceByte c = true) ∧
    NulSafe p.1.lexeme

theorem eof_not_codes (w : List Byte) : BUF_EOF ∉ codes w := by
  intro h
  obtain ⟨b, _, hb⟩ := List.mem_map.mp h
  exact byte_ne_eof b hb

theorem codes_inj {v w : List Byte} (h : codes v = codes w) : v = w := by
  rw [← text_codes v, h, text_codes]

section
variable {σ : Type} {getc : σ → Res (Int × σ)} {R : σ → List Int → Prop}

theorem Leaves.at_token_iff (hs : Serves getc BUF_EOF R) {l : Lex σ} {t : Token}
    {rest : List Byte} (h : Leaves R l ⟨t.type.val, codes t.lexeme,
      codes (if t.type = .id ∨ t.type = .str then rest.tail else rest)⟩) :
    AtToken R l (t, rest) ↔ TokenOk (t, rest) := by
  have hh := h.holds
  simp only [text_codes] at hh
  have hreads := h.reads
  constructor
  · intro hin
    obtain ⟨_, hlex, gap, left, he, hgap, hr⟩ := hin
    refine ⟨fun ht c hc => ?_, hh.faithful_iff.mp hlex⟩
    simp only [ht, ↓reduceIte] at hreads he hc
    have hleft := codes_inj (hs.unique hreads hr (eof_not_codes _) (eof_not_codes _))
    obtain ⟨r, rfl⟩ := List.head?_eq_some_iff.mp hc
    cases gap with
    | nil =>
      have := congrArg List.length (he.trans hleft.symm)
      simp at this
    | cons g gap =>
      obtain ⟨rfl, _⟩ := List.cons.inj he
      exact hgap c List.mem_cons_self
  · intro hin
    obtain ⟨hnext, hsafe⟩ := hin
    refine ⟨h.type, hh.faithful_iff.mpr hsafe, ?_⟩
    split at hreads
    · rename_i ht
      cases rest with
      | nil => exact ⟨[], [], rfl, by simp, hreads⟩
      | cons c rest => exact ⟨[c], rest, rfl, by simpa using hnext ht c rfl, hreads⟩
    · exact ⟨[], rest, rfl, by simp, hreads⟩

/-- A character that can be lost makes no difference to the next token. -/
theorem TokenOk.next {t : Token} {rest : List Byte} (h : TokenOk (t, rest)) :
    nextToken (if t.type = .id ∨ t.type = .str then rest.tail else rest) = nextToken rest := by
  split
  · rename_i ht
    cases rest with
    | nil => rfl
    | cons c rest => exact (nextToken_space (h.1 ht c rfl) rest).symm
  · rfl

theorem mainLoop_reference_iff (hs : Serves getc BUF_EOF R) {fuel : Nat} (w : List Byte)
    {n : Nat} {x : Res (Lex σ)} (h : Alike (Leaves R) x (lexed KWORDS (codes w)))
    (hf : w.length + 1 < fuel) (hn : w.length < n) :
    RunIs R (mainLoop getc KWORDS fuel n x) (tokenize w) ↔ ∀ p ∈ (tokenize w).1, TokenOk p := by
  induction w using tokenize.induct generalizing n x with
  | case1 w e he =>
    obtain ⟨n, rfl⟩ : ∃ k, n = k + 1 := ⟨n - 1, by omega⟩
    rw [tokenize_error he]
    rw [lexed_next, he] at h
    refine ⟨by simp, fun _ => ?_⟩
    cases e with
    | eof =>
      obtain ⟨l, rfl, hl⟩ := h.ok
      have ht : l.lType = TT.eof.val := hl.type
      simp only [mainLoop, ht, ↓reduceIte]
      have hfaith : Faithful [] l.lLex := hl.holds.faithful_iff.mpr (Or.inl (Nat.zero_le _))
      exact ⟨.nil, .eof ht hfaith hl.reads⟩
    | invalid c =>
      rw [h.error]
      exact ⟨.nil, .invalid c⟩
    | malformed s =>
      rw [h.error]
      exact ⟨.nil, .malformed s _⟩
  | case2 w t rest he hlt ih =>
    obtain ⟨n, rfl⟩ : ∃ k, n = k + 1 := ⟨n - 1, by omega⟩
    rw [tokenize_ok he]
    rw [lexed_next, he] at h
    obtain ⟨l, rfl, hl⟩ := h.ok
    have hne : l.lType ≠ TT.eof.val := hl.type ▸ (nextToken_covers he).1.type
    have htoken := hl.at_token_iff hs
    simp only [mainLoop, hne, ↓reduceIte, List.forall_mem_cons]
    -- once this token is right, the next call sees what the reference sees
    have hrest : TokenOk (t, rest) → (RunIs R
        (mainLoop getc KWORDS fuel n (lexNext getc KWORDS fuel l)) (tokenize rest) ↔
          ∀ p ∈ (tokenize rest).1, TokenOk p) := by
      intro hok
      refine ih ?_ (by omega) (by omega)
      have hfound := lexed_found (by rw [lexed_next, he])
      have hlen := hfound.length.resolve_left (nextToken_covers he).1.type
      have hnext := lexNext_alike hs KWORDS (hl.between hfound) (n := fuel) (by
        simp only [codes, List.length_map] at hlen ⊢
        omega)
      simp only [lexed_next, hok.next] at hnext ⊢
      exact hnext
    constructor
    · intro hin
      obtain ⟨_ | ⟨hat, htail⟩, hend⟩ := hin
      have hok := htoken.mp hat
      exact ⟨hok, (hrest hok).mp ⟨htail, hend⟩⟩
    · intro hin
      obtain ⟨hok, hall⟩ := hin
      have htail := (hrest hok).mpr hall
      exact ⟨.cons (htoken.mpr hok) htail.tokens, htail.ending⟩

/-- The lexer is the reference exactly on the streams where every identifier
has white space or nothing after it, and no long literal an early NUL. -/
theorem lex_run_reference_iff (hs : Serves getc BUF_EOF R) {b : σ} {w : List Byte}
    (hr : R b (codes w)) {fuel : Nat} (hf : w.length + 1 < fuel) :
    RunIs R (lexRun getc KWORDS fuel b) (tokenize w) ↔ ∀ p ∈ (tokenize w).1, TokenOk p := by
  refine mainLoop_reference_iff hs w ?_ hf (by omega)
  exact lexNext_alike hs KWORDS (between_init hr) (by simpa [codes] using hf)

end

theorem lex_run_spaced_assign :
    RunIs (fun s vs => s = vs) (lexRun (fromList BUF_EOF) KWORDS 5 (codes [97#8, 32#8, 61#8]))
        (tokenize [97#8, 32#8, 61#8]) ↔
      ∀ p ∈ (tokenize [97#8, 32#8, 61#8]).1, TokenOk p :=
  lex_run_reference_iff (from_list_serves BUF_EOF) rfl (by decide)

/-- "a=": the lexer loses the '=' that ends the identifier. -/
theorem lex_run_loses_assign :
    ¬ RunIs (fun s vs => s = vs) (lexRun (fromList BUF_EOF) KWORDS 4 (codes [97#8, 61#8]))
      (tokenize [97#8, 61#8]) := by
  intro h
  have hlen := h.tokens.length_eq
  have hrun : (lexRun (fromList BUF_EOF) KWORDS 4 (codes [97#8, 61#8])).1.length = 1 := by decide
  have ha : nextToken [97#8, 61#8] = .ok (⟨.id, [97#8]⟩, [61#8]) := rfl
  have hassign : nextToken [61#8] = .ok (⟨.assign, []⟩, []) := rfl
  rw [hrun, tokenize_ok ha, tokenize_ok hassign] at hlen
  simp at hlen

end Mepl
