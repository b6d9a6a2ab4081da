import Mepl.Base.Alike
import Mepl.Base.Stream
import Mepl.Lex.Model
import Mepl.Lib.DstrRuns

namespace Mepl
open Base

/-- The token a call leaves: its type, what was pushed for it, and the values
that are left. -/
structure Lexed where
  type : Int
  pushes : List Int
  rest : List Int
deriving DecidableEq, Repr

def skipped : List Int → Res (Int × List Int)
  | [] => .ok (BUF_EOF, [])
  | v :: vs => do if ← isspace v then skipped vs else pure (v, vs)

/-- The letters of an identifier; the value that ends it is not in the rest. -/
def letters : List Int → Res (List Int × List Int)
  | [] => .ok ([], [])
  | v :: vs => do
    if ← isalpha v then
      let (ls, rest) ← letters vs
      pure (v :: ls, rest)
    else pure ([], vs)

/-- The values before the closing quote, and those after it if there is one. -/
def literal : List Int → List Int × Option (List Int)
  | [] => ([], none)
  | v :: vs =>
    if v = BUF_EOF then ([], none)
    else if v = 34 then ([], some vs)
    else (v :: (literal vs).1, (literal vs).2)

/-- The lookup of id for the identifier s. -/
def lookup (kwords : List Kword) (s : List Byte) : Res Int := do
  let k ← load kwords ((strhash s).toNat % kwords.length)
  match k.kId with
  | none => throw .fault
  | some name => pure (if s = name then k.kType else TT.id.val)

def text (vs : List Int) : List Byte := vs.map intToChar

def lexed (kwords : List Kword) (vs : List Int) : Res Lexed := do
  let (c, vs) ← skipped vs
  if c = BUF_EOF then pure ⟨TT.eof.val, [], vs⟩
  else
    match ← index CHAR_FN c with
    | .id =>
      let (ls, rest) ← letters (c :: vs)
      let t ← lookup kwords (text ls)
      pure ⟨t, ls, rest⟩
    | .str =>
      match literal vs with
      | (ls, some rest) => pure ⟨TT.strLit.val, ls, rest⟩
      | (ls, none) =>
        throw (.usage "malformed string: \"%s\"" ((text ls).takeWhile (· != 0#8)))
    | .single =>
      let t ← index SINGLE c
      pure ⟨t, [], vs⟩
    | .err => throw (.usage "lexer: character invalid: %c" [intToChar c])

/-- Several characters pushed one after the other. -/
def pushAll (d : Dstr) (vs : List Int) : Res Dstr := vs.foldlM dstrPush d

theorem pushAll_cons (d : Dstr) (v : Int) (vs : List Int) :
    pushAll d (v :: vs) = (do pushAll (← dstrPush d v) vs) := by
  simp only [pushAll, List.foldlM_cons]

theorem Holds.pushAll {bs : List Byte} (h : Holds (stored bs) d) (vs : List Int) :
    ∃ d', pushAll d vs = .ok d' ∧ Holds (stored (bs ++ text vs)) d' := by
  induction vs generalizing bs d with
  | nil => exact ⟨d, rfl, by simpa [text] using h⟩
  | cons v vs ih =>
    obtain ⟨e, he, hh⟩ := h.push v
    rw [stored_push] at hh
    obtain ⟨d', hd, hd'⟩ := ih hh
    refine ⟨d', by simp only [pushAll_cons, he, ok_bind, hd], ?_⟩
    simpa [text] using hd'

theorem holds_nothing : Holds (stored []) dstrInit := holds_init

theorem holds_pushed {vs : List Int} {d : Dstr} (h : pushAll dstrInit vs = .ok d) :
    Holds (stored (text vs)) d := by
  obtain ⟨d', hd, hh⟩ := holds_nothing.pushAll vs
  rw [h] at hd
  cases hd
  exact hh

section
variable {σ : Type} {getc : σ → Res (Int × σ)} {R : Nat → σ → List Int → Prop} {e : Nat}

/-- A lexer that nothing was put back to, with vs to be read. -/
structure Ready (R : σ → List Int → Prop) (l : Lex σ) (vs : List Int) : Prop where
  putback : l.lPutback = 0
  reads : R l.lBuf vs

/-- What a call needs of its source, and leaves when it is not the last: one
read past the values there are, and one more while there are any. -/
structure Fed (R : Nat → σ → List Int → Prop) (e : Nat) (b : σ) (vs : List Int) : Prop where
  once : R (e + 1) b vs
  twice : vs ≠ [] → R (e + 2) b vs

theorem fed_twice (hs : ServesFor getc BUF_EOF R) {b : σ} {vs : List Int} (h : R (e + 2) b vs) :
    Fed R e b vs := ⟨hs.fewer _ _ _ h, fun _ => h⟩

theorem lexGetc_value (hs : ServesFor getc BUF_EOF R) {l : Lex σ} {v : Int} {vs : List Int}
    (h : Ready (R e) l (v :: vs)) :
    ∃ b, lexGetc getc l = .ok (v, { l with lBuf := b }) ∧ R e b vs := by
  obtain ⟨b, hb, hr⟩ := hs.value _ _ _ _ h.reads
  exact ⟨b, by simp [lexGetc, h.putback, hb], hr⟩

theorem lexGetc_past (hs : ServesFor getc BUF_EOF R) {l : Lex σ} (h : Ready (R (e + 1)) l []) :
    ∃ b, lexGetc getc l = .ok (BUF_EOF, { l with lBuf := b }) ∧ R e b [] := by
  obtain ⟨b, hb, hr⟩ := hs.past _ _ h.reads
  exact ⟨b, by simp [lexGetc, h.putback, hb], hr⟩

theorem isspace_eof : isspace BUF_EOF = .ok false := rfl

theorem isalpha_eof : isalpha BUF_EOF = .ok false := rfl

/-- The loop over white space finds the first other value. -/
theorem skipSpace_alike (hs : ServesFor getc BUF_EOF R) {n : Nat} {l : Lex σ} {c : Int}
    {vs : List Int} (h : Ready (R (e + 1)) l vs) (hn : vs.length + 1 < n) :
    Alike (fun (r : Int × Lex σ) (q : Int × List Int) =>
        r.1 = q.1 ∧ ∃ b, r.2 = { l with lBuf := b } ∧ R e b q.2 ∧ (q.1 ≠ BUF_EOF → R (e + 1) b q.2))
      (skipSpace getc n l c) (skipped (c :: vs)) := by
  induction vs generalizing n l c with
  | nil =>
    obtain ⟨n, rfl⟩ : ∃ k, n = k + 2 := ⟨n - 2, by simp at hn; omega⟩
    obtain ⟨b, hg, hr⟩ := lexGetc_past hs h
    simp only [skipSpace, skipped]
    cases isspace c with
    | error e => exact .stop e
    | ok sp =>
      cases sp with
      | false => exact .ret ⟨rfl, _, rfl, hs.fewer _ _ _ h.reads, fun _ => h.reads⟩
      | true =>
        simp only [ok_bind, ↓reduceIte, hg, isspace_eof, Bool.false_eq_true]
        exact .ret ⟨rfl, _, rfl, hr, fun hne => absurd rfl hne⟩
  | cons v vs ih =>
    obtain ⟨n, rfl⟩ : ∃ k, n = k + 1 := ⟨n - 1, by omega⟩
    obtain ⟨b, hg, hr⟩ := lexGetc_value hs h
    rw [skipSpace, skipped]
    cases isspace c with
    | error e => exact .stop e
    | ok sp =>
      cases sp with
      | false => exact .ret ⟨rfl, _, rfl, hs.fewer _ _ _ h.reads, fun _ => h.reads⟩
      | true =>
        simp only [ok_bind, ↓reduceIte, hg]
        exact ih (l := { l with lBuf := b }) ⟨h.putback, hr⟩ (by simp at hn; omega)

/-- The loop of id pushes the letters, and loses the value after them. -/
theorem idLoop_alike (hs : ServesFor getc BUF_EOF R) {n : Nat} {l : Lex σ} {c : Int}
    {vs : List Int} {bs : List Byte} (h : Ready (R (e + 2)) l vs) (hd : Holds (stored bs) l.lLex)
    (hn : vs.length + 1 < n) :
    Alike (fun (r : Lex σ) (q : List Int × List Int) =>
        ∃ d b, r = { l with lLex := d, lBuf := b } ∧ pushAll l.lLex q.1 = .ok d ∧ Fed R e b q.2)
      (idLoop getc n l c) (letters (c :: vs)) := by
  induction vs generalizing n l c bs with
  | nil =>
    obtain ⟨n, rfl⟩ : ∃ k, n = k + 2 := ⟨n - 2, by simp at hn; omega⟩
    simp only [idLoop, letters]
    cases isalpha c with
    | error e => exact .stop e
    | ok al =>
      cases al with
      | false => exact .ret ⟨_, _, rfl, rfl, fed_twice hs h.reads⟩
      | true =>
        obtain ⟨d, hp, _⟩ := hd.push c
        obtain ⟨b, hg, hr⟩ := lexGetc_past hs (l := { l with lLex := d }) ⟨h.putback, h.reads⟩
        simp only [ok_bind, ↓reduceIte, hp, hg, isalpha_eof, Bool.false_eq_true]
        exact .ret ⟨_, _, rfl, by simp [pushAll, hp], hr, fun hne => absurd rfl hne⟩
  | cons v vs ih =>
    obtain ⟨n, rfl⟩ : ∃ k, n = k + 1 := ⟨n - 1, by omega⟩
    rw [idLoop, letters]
    cases isalpha c with
    | error e => exact .stop e
    | ok al =>
      cases al with
      | false => exact .ret ⟨_, _, rfl, rfl, fed_twice hs h.reads⟩
      | true =>
        obtain ⟨d, hp, hh⟩ := hd.push c
        obtain ⟨b, hg, hr⟩ := lexGetc_value hs (l := { l with lLex := d }) ⟨h.putback, h.reads⟩
        rw [stored_push] at hh
        simp only [ok_bind, ↓reduceIte, hp, hg]
        have hrest := ih (n := n) (l := { l with lLex := d, lBuf := b }) (c := v)
          ⟨h.putback, hr⟩ hh (by simp at hn; omega)
        refine hrest.bind_right ?_
        rintro r ⟨ls, rest⟩ - ⟨d', b', rfl, hp', hr'⟩
        exact .ret ⟨_, _, rfl, by simp only [pushAll_cons, hp, ok_bind]; exact hp', hr'⟩

/-- The loop of str always ends, at the closing quote or at end of file. -/
theorem strLoop_literal (hs : ServesFor getc BUF_EOF R) {n : Nat} {l : Lex σ} {vs : List Int}
    {bs : List Byte} (h : Ready (R (e + 1)) l vs) (hd : Holds (stored bs) l.lLex)
    (hn : vs.length < n) :
    ∃ d b, strLoop getc n l = .ok (if (literal vs).2.isSome then 34 else BUF_EOF,
        { l with lLex := d, lBuf := b }) ∧
      pushAll l.lLex (literal vs).1 = .ok d ∧
      ∀ rest, (literal vs).2 = some rest → R (e + 1) b rest := by
  induction vs generalizing n l bs with
  | nil =>
    obtain ⟨n, rfl⟩ : ∃ k, n = k + 1 := ⟨n - 1, by omega⟩
    obtain ⟨b, hg, hr⟩ := lexGetc_past hs h
    exact ⟨l.lLex, b, by simp [strLoop, hg, literal], rfl, by simp [literal]⟩
  | cons v vs ih =>
    obtain ⟨n, rfl⟩ : ∃ k, n = k + 1 := ⟨n - 1, by omega⟩
    obtain ⟨b, hg, hr⟩ := lexGetc_value hs h
    by_cases he : v = BUF_EOF
    · exact ⟨l.lLex, b, by simp [strLoop, hg, literal, he], by simp [literal, he, pushAll],
        by simp [literal, he]⟩
    · by_cases hq : v = 34
      · subst hq
        refine ⟨l.lLex, b, by simp [strLoop, hg, literal, he], by simp [literal, he, pushAll], ?_⟩
        intro rest hrest
        have hv : vs = rest := by simpa [literal, he] using hrest
        exact hv ▸ hr
      · obtain ⟨d, hp, hh⟩ := hd.push v
        rw [stored_push] at hh
        obtain ⟨d', b', hl, hp', hr'⟩ := ih (n := n) (l := { l with lBuf := b, lLex := d })
          ⟨h.putback, hr⟩ hh (by simpa using hn)
        refine ⟨d', b', ?_, ?_, ?_⟩
        · simp only [strLoop, hg, ok_bind, ne_eq, he, hq, not_false_eq_true, and_self,
            ↓reduceIte, hp, hl, literal]
        · simp only [literal, he, hq, ↓reduceIte, pushAll_cons, hp, ok_bind]
          exact hp'
        · simpa only [literal, he, hq, ↓reduceIte] using hr'

/-- What holds of a lexer between two calls. -/
structure Between (R : σ → List Int → Prop) (l : Lex σ) (vs : List Int) : Prop
    extends Ready R l vs where
  type : TT.eof.val ≤ l.lType ∧ l.lType < TT.count.val
  text : ∃ bs, Holds (stored bs) l.lLex

/-- A state of the lexer and the token that a call leaves in it. -/
structure Leaves (R : σ → List Int → Prop) (l : Lex σ) (t : Lexed) : Prop
    extends Ready R l t.rest where
  type : l.lType = t.type
  pushed : pushAll dstrInit t.pushes = .ok l.lLex

/-- Another relation for the source of the lexer. -/
theorem Leaves.imp {P Q : σ → List Int → Prop} {l : Lex σ} {t : Lexed} (h : Leaves P l t)
    (hpq : P l.lBuf t.rest → Q l.lBuf t.rest) : Leaves Q l t where
  putback := h.putback
  reads := hpq h.reads
  type := h.type
  pushed := h.pushed

theorem Between.ok {P : σ → List Int → Prop} {l : Lex σ} {vs : List Int}
    (h : Between P l vs) : lexOk l = .ok () := by
  have h1 := Int.not_lt.mpr h.type.1
  have h2 := Int.not_le.mpr h.type.2
  simp [lexOk, h.putback, h1, h2, UCHAR_MAX]

theorem Leaves.holds {P : σ → List Int → Prop} {l : Lex σ} {t : Lexed} (h : Leaves P l t) :
    Holds (stored (text t.pushes)) l.lLex := holds_pushed h.pushed

theorem dstrClear_holds {cells : List Cell} {d : Dstr} (h : Holds cells d) :
    dstrClear d = .ok dstrInit := by
  simp [dstrClear, h.ok]

theorem skipped_length {vs rest : List Int} {c : Int} (h : skipped vs = .ok (c, rest)) :
    rest.length ≤ vs.length := by
  induction vs with
  | nil =>
    cases h
    exact Nat.le_refl _
  | cons v vs ih =>
    rw [skipped, bind_ok] at h
    obtain ⟨sp, _, h⟩ := h
    cases sp with
    | true => exact Nat.le_succ_of_le (ih h)
    | false =>
      cases h
      exact Nat.le_succ _

theorem ctype_true {p : Int → Bool} {c : Int} (h : ctype p c = .ok true) :
    InRange c ∧ p c = true := by
  unfold ctype at h
  split at h
  · exact ⟨‹_›, Except.ok.inj h⟩
  · cases h

theorem letters_alpha {vs ls rest : List Int} (h : letters vs = .ok (ls, rest)) :
    ∀ v ∈ ls, alphaChar v = true := by
  induction vs generalizing ls with
  | nil =>
    cases h
    simp
  | cons v vs ih =>
    rw [letters, bind_ok] at h
    obtain ⟨al, hal, h⟩ := h
    cases al with
    | false =>
      cases h
      simp
    | true =>
      simp only [↓reduceIte, bind_ok] at h
      obtain ⟨⟨ls', rest'⟩, hl, h⟩ := h
      cases h
      intro u hu
      rcases List.mem_cons.mp hu with rfl | hu
      · exact (ctype_true hal).2
      · exact ih hl u hu

theorem alpha_not_nul {v : Int} (h : alphaChar v = true) : intToChar v ≠ 0#8 := by
  intro hz
  have hv : (BitVec.ofInt 8 v).toNat = 0 := congrArg BitVec.toNat hz
  simp [alphaChar] at h
  simp at hv
  omega

/-- Identifiers are read back from the lexeme as they are. -/
theorem letters_text {vs ls rest : List Int} (h : letters vs = .ok (ls, rest)) :
    (text ls).takeWhile (· != 0#8) = text ls := by
  rw [List.takeWhile_eq_self_iff]
  intro b hb
  obtain ⟨v, hv, rfl⟩ := List.mem_map.mp hb
  simpa using alpha_not_nul (letters_alpha h v hv)

theorem idType_lookup (kwords : List Kword) {cur : List Cell} {s : List Byte}
    (h : cstr cur = .ok s) : idType kwords cur = lookup kwords s := by
  simp only [idType, lookup, h, ok_bind]
  cases load kwords ((strhash s).toNat % kwords.length) with
  | error e => rfl
  | ok k =>
    cases hk : k.kId with
    | none => simp [streq, hk]
    | some name => simp [streq, h, hk]

/-- id leaves the letters it read and the type the lookup gives them. -/
theorem lexId_fed (hs : ServesFor getc BUF_EOF R) (kwords : List Kword) {n : Nat} {l : Lex σ}
    {c : Int} {vs : List Int} (h : Ready (R (e + 2)) l vs) (hd : l.lLex = dstrInit)
    (hn : vs.length + 1 < n) :
    Alike (Leaves (Fed R e)) (lexId getc kwords n l c) (do
      let (ls, rest) ← letters (c :: vs)
      let t ← lookup kwords (text ls)
      pure ⟨t, ls, rest⟩) := by
  have hid := idLoop_alike hs (c := c) h (hd ▸ holds_nothing) hn
  refine hid.bind ?_
  rintro r ⟨ls, left⟩ hls ⟨d, b, rfl, hp, hr⟩
  rw [hd] at hp
  obtain ⟨tail, hc⟩ := (holds_pushed hp).cur
  have ht : cstr (stored (text ls) ++ some 0#8 :: tail) = .ok (text ls) := by
    rw [cstr_stored, letters_text hls]
  simp only [hc, ok_bind, idType_lookup kwords ht]
  cases lookup kwords (text ls) with
  | error e => exact .stop e
  | ok t => exact .ret { putback := h.putback, reads := hr, type := rfl, pushed := hp }

theorem Fed.leaves (hs : ServesFor getc BUF_EOF R) {l : Lex σ} {t : Lexed}
    (h : Leaves (Fed R e) l t) :
    Leaves (R e) l t ∧ (t.type ≠ TT.eof.val → Fed R e l.lBuf t.rest) :=
  ⟨h.imp (fun hf => hs.fewer _ _ _ hf.once), fun _ => h.reads⟩

/-- lex_next leaves the token found in the values still to be read, or stops as
the search for it does, and reads past the end of the values once, or twice
when it takes the last of them. -/
theorem lexNext_fed (hs : ServesFor getc BUF_EOF R) (kwords : List Kword) {n : Nat}
    {l : Lex σ} {vs : List Int} (h : Between (Fed R e) l vs) (hn : vs.length + 1 < n) :
    Alike (fun l t => Leaves (R e) l t ∧ (t.type ≠ TT.eof.val → Fed R e l.lBuf t.rest))
      (lexNext getc kwords n l) (lexed kwords vs) := by
  obtain ⟨bs, hh⟩ := h.text
  cases vs with
  | nil =>
    obtain ⟨n, rfl⟩ : ∃ k, n = k + 1 := ⟨n - 1, by omega⟩
    obtain ⟨b, hg, hr⟩ := lexGetc_past hs ⟨h.putback, h.reads.once⟩
    have hnext : lexNext getc kwords (n + 1) l =
        .ok { l with lBuf := b, lLex := dstrInit, lType := TT.eof.val } := by
      simp only [lexNext, h.ok, hg, ok_bind, skipSpace, isspace_eof, Bool.false_eq_true, ↓reduceIte,
        pure_ok, dstrClear_holds hh]
    rw [hnext]
    exact .ret ⟨{ putback := h.putback, reads := hr, type := rfl, pushed := rfl },
      fun hne => absurd rfl hne⟩
  | cons v vs =>
    obtain ⟨b, hg, hr⟩ := lexGetc_value hs
      (l := l) ⟨h.putback, h.reads.twice (List.cons_ne_nil v vs)⟩
    have hspace := skipSpace_alike hs (n := n) (l := { l with lBuf := b }) (c := v)
      ⟨h.putback, hr⟩ (by simp at hn; omega)
    simp only [lexNext, h.ok, hg, ok_bind]
    refine hspace.bind ?_
    rintro ⟨c, l'⟩ ⟨c', rest⟩ hsk ⟨rfl, b', rfl, hr', hmore⟩
    have hlen : rest.length + 1 < n := by
      have := skipped_length hsk
      omega
    simp only [dstrClear_holds hh, ok_bind]
    split
    · exact .ret ⟨{ putback := h.putback, reads := hs.fewer _ _ _ hr', type := rfl, pushed := rfl },
        fun hne => absurd rfl hne⟩
    · rename_i hne
      have htwice := hmore hne
      cases hf : index CHAR_FN c with
      | error e => exact .stop e
      | ok f =>
        simp only [ok_bind]
        cases f with
        | id =>
          exact (lexId_fed hs kwords (l := { l with lBuf := b', lLex := dstrInit })
            ⟨h.putback, htwice⟩ rfl hlen).imp (fun _ _ hl => Fed.leaves hs hl)
        | str =>
          obtain ⟨d, b'', hl, hp, hlit⟩ := strLoop_literal hs (n := n)
            (l := { l with lBuf := b', lLex := dstrInit }) ⟨h.putback, htwice⟩ holds_nothing
            (Nat.lt_of_succ_lt hlen)
          simp only [lexStr, hl, ok_bind]
          cases hq : literal rest with
          | mk ls left =>
            cases left with
            | some left =>
              simp only [hq] at hp hlit
              have hfed := fed_twice hs (hlit left rfl)
              exact .ret (Fed.leaves hs
                { putback := h.putback, reads := hfed, type := rfl, pushed := hp })
            | none =>
              simp only [hq] at hp
              obtain ⟨tail, hc⟩ := (holds_pushed hp).cur
              simp only [hc, ok_bind, cstr_stored]
              exact .stop _
        | single =>
          simp only [lexSingle]
          cases index SINGLE c with
          | error e => exact .stop e
          | ok t =>
            exact .ret (Fed.leaves hs
              { putback := h.putback, reads := fed_twice hs htwice, type := rfl, pushed := rfl })
        | err => exact .stop _

end

section
variable {σ : Type} {getc : σ → Res (Int × σ)} {R : σ → List Int → Prop}

/-- A source that can always be read on. -/
theorem fed_serves {b : σ} {vs : List Int} (h : R b vs) : Fed (fun _ => R) 0 b vs :=
  ⟨h, fun _ => h⟩

theorem lexId_alike (hs : Serves getc BUF_EOF R) (kwords : List Kword) {n : Nat} {l : Lex σ}
    {c : Int} {vs : List Int} (h : Ready R l vs) (hd : l.lLex = dstrInit)
    (hn : vs.length + 1 < n) :
    Alike (Leaves R) (lexId getc kwords n l c) (do
      let (ls, rest) ← letters (c :: vs)
      let t ← lookup kwords (text ls)
      pure ⟨t, ls, rest⟩) :=
  (lexId_fed hs.servesFor kwords (e := 0) h hd hn).imp (fun _ _ hl => hl.imp (fun hf => hf.once))

theorem lexNext_alike (hs : Serves getc BUF_EOF R) (kwords : List Kword) {n : Nat}
    {l : Lex σ} {vs : List Int} (h : Between R l vs) (hn : vs.length + 1 < n) :
    Alike (Leaves R) (lexNext getc kwords n l) (lexed kwords vs) := by
  have hfed : Between (Fed (fun _ => R) 0) l vs :=
    { putback := h.putback, reads := fed_serves h.reads, type := h.type, text := h.text }
  exact (lexNext_fed hs.servesFor kwords hfed hn).imp (fun _ _ hl => hl.1)

/-- lex_init is a call of lex_next on an empty lexer. -/
theorem between_init {b : σ} {vs : List Int} (hr : R b vs) :
    Between R { lLex := dstrInit, lBuf := b, lType := TT.eof.val, lPutback := 0 } vs where
  putback := rfl
  reads := hr
  type := ⟨Int.le_refl _, (by decide : TT.eof.val < TT.count.val)⟩
  text := ⟨[], holds_init⟩

end

end Mepl
