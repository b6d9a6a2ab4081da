import Mepl.C.Chars
import Mepl.Lib.Dstr

namespace Mepl

/-- Token types, in the order of the enum. -/
inductive TT where
  | eof
  | str
  | id
  | assign
  | strLit
  | count
deriving DecidableEq, Repr

def TT.val (t : TT) : Int := t.ctorIdx

structure Kword where
  /-- NULL, or the identifier -/
  kId : Option (List Byte)
  kType : Int
deriving DecidableEq, Repr

/-- The functions CHAR_FN points to. -/
inductive CharFn where
  | id
  | str
  | single
  | err
deriving DecidableEq, Repr

/-- What lexgen prints at place c of CHAR_FN. -/
def charFn (c : Nat) : CharFn :=
  if 97 ≤ c ∧ c ≤ 122 then .id
  else if c = 34 then .str
  else if c = 61 then .single
  else .err

def CHAR_FN : List CharFn := (List.range 256).map charFn

def SINGLE : List Int := (List.replicate 256 TT.eof.val).set 61 TT.assign.val

/-- { "str", TT_STR } -/
def KWORDS : List Kword := [⟨some [115#8, 116#8, 114#8], TT.str.val⟩]

/-- A lexer over a buf whose state is σ. -/
structure Lex (σ : Type) where
  lLex : Dstr
  lBuf : σ
  lType : Int
  lPutback : Int
deriving DecidableEq, Repr

section
variable {σ : Type}

def lexOk (l : Lex σ) : Res Unit := do
  dbug (l.lType < TT.eof.val || l.lType ≥ TT.count.val) "%s(): l_type invalid: %d"
  dbug (l.lPutback < 0 || l.lPutback > UCHAR_MAX) "%s(): l_putback not a char"

/-- The handler of the single characters. -/
def lexSingle (l : Lex σ) (c : Int) : Res (Lex σ) := do
  let t ← index SINGLE c
  pure { l with lType := t }

def lexErr (_l : Lex σ) (c : Int) : Res (Lex σ) :=
  throw (.usage "lexer: character invalid: %c" [intToChar c])

variable (getc : σ → Res (Int × σ))

def lexGetc (l : Lex σ) : Res (Int × Lex σ) :=
  if l.lPutback ≠ 0 then pure (l.lPutback, { l with lPutback := 0 })
  else do
    let (c, b) ← getc l.lBuf
    pure (c, { l with lBuf := b })

/-- The loop of lex_next over white space, entered with its first c. -/
def skipSpace : Nat → Lex σ → Int → Res (Int × Lex σ)
  | 0, _, _ => .error .fuel
  | n + 1, l, c => do
    if ← isspace c then
      let (c, l) ← lexGetc getc l
      skipSpace n l c
    else pure (c, l)

/-- The loop of id: the c that ends it is not kept. -/
def idLoop : Nat → Lex σ → Int → Res (Lex σ)
  | 0, _, _ => .error .fuel
  | n + 1, l, c => do
    if ← isalpha c then
      let d ← dstrPush l.lLex c
      let (c, l) ← lexGetc getc { l with lLex := d }
      idLoop n l c
    else pure l

/-- The loop of str, and the c that ends it. -/
def strLoop : Nat → Lex σ → Res (Int × Lex σ)
  | 0, _ => .error .fuel
  | n + 1, l => do
    let (c, l) ← lexGetc getc l
    if c ≠ BUF_EOF ∧ c ≠ 34 then
      let d ← dstrPush l.lLex c
      strLoop n { l with lLex := d }
    else pure (c, l)

def lexStr (fuel : Nat) (l : Lex σ) : Res (Lex σ) := do
  let (c, l) ← strLoop getc fuel l
  let l := { l with lType := TT.strLit.val }
  if c ≠ 34 then
    let s ← cstr (← l.lLex.cur)
    throw (.usage "malformed string: \"%s\"" s)
  pure l

variable (kwords : List Kword)

/-- The lookup at the end of id. -/
def idType (cur : List Cell) : Res Int := do
  let s ← cstr cur
  let k ← load kwords ((strhash s).toNat % kwords.length)
  let same ← streq cur k.kId
  pure (if same then k.kType else TT.id.val)

def lexId (fuel : Nat) (l : Lex σ) (c : Int) : Res (Lex σ) := do
  let l ← idLoop getc fuel l c
  let t ← idType kwords (← l.lLex.cur)
  pure { l with lType := t }

def lexNext (fuel : Nat) (l : Lex σ) : Res (Lex σ) := do
  lexOk l
  let (c, l) ← lexGetc getc l
  let (c, l) ← skipSpace getc fuel l c
  let d ← dstrClear l.lLex
  let l := { l with lLex := d }
  if c = BUF_EOF then pure { l with lType := TT.eof.val }
  else
    match ← index CHAR_FN c with
    | .id => lexId getc kwords fuel l c
    | .str => lexStr getc fuel l
    | .single => lexSingle l c
    | .err => lexErr l c

def lexInit (fuel : Nat) (b : σ) : Res (Lex σ) :=
  lexNext getc kwords fuel { lLex := dstrInit, lBuf := b, lType := TT.eof.val, lPutback := 0 }

/-- The loop of main: the states it prints, and how it ends. -/
def mainLoop (fuel : Nat) : Nat → Res (Lex σ) → List (Lex σ) × Res (Lex σ)
  | 0, _ => ([], .error .fuel)
  | _ + 1, .error e => ([], .error e)
  | n + 1, .ok l =>
    if l.lType = TT.eof.val then ([], .ok l)
    else
      let (ls, r) := mainLoop fuel n (lexNext getc kwords fuel l)
      (l :: ls, r)

/-- lex_init(), then lex_next() until l_type is TT_EOF or the program exits. -/
def lexRun (fuel : Nat) (b : σ) : List (Lex σ) × Res (Lex σ) :=
  mainLoop getc kwords fuel fuel (lexInit getc kwords fuel b)

end

end Mepl
