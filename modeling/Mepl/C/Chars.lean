import Mathlib.Data.List.TakeWhile
import Mepl.C.Machine

namespace Mepl

/-- The chars of a string literal. -/
def chars (s : String) : List Byte := s.toList.map (fun c => BitVec.ofNat 8 c.toNat)

/-- A function of ctype.h: defined on EOF and the values of unsigned char. -/
def ctype (p : Int → Bool) (c : Int) : Res Bool :=
  if BUF_EOF ≤ c ∧ c ≤ UCHAR_MAX then .ok (p c) else .error (.ctype c)

/-- '\t', '\n', '\v', '\f', '\r' and ' '. -/
def spaceChar (c : Int) : Bool := (9 ≤ c && c ≤ 13) || c == 32

def alphaChar (c : Int) : Bool := (65 ≤ c && c ≤ 90) || (97 ≤ c && c ≤ 122)

def isspace (c : Int) : Res Bool := ctype spaceChar c

def isalpha (c : Int) : Res Bool := ctype alphaChar c

/-- What the ctype functions and a table of UCHAR_MAX + 1 entries take between
them. -/
def InRange (c : Int) : Prop := BUF_EOF ≤ c ∧ c ≤ UCHAR_MAX

instance (c : Int) : Decidable (InRange c) := by
  unfold InRange
  infer_instance

theorem ctype_ok (p : Int → Bool) {c : Int} (h : InRange c) : ctype p c = .ok (p c) := if_pos h

theorem ctype_range (p : Int → Bool) {c : Int} (h : ¬ InRange c) :
    ctype p c = .error (.ctype c) := if_neg h

theorem in_range_eof : InRange BUF_EOF := ⟨Int.le_refl _, by decide⟩

theorem in_range_byte (b : Byte) : InRange (b.toNat : Int) := by
  have := b.isLt
  simp only [InRange, BUF_EOF, UCHAR_MAX]
  omega

theorem byte_ne_eof (b : Byte) : (b.toNat : Int) ≠ BUF_EOF := by
  simp only [BUF_EOF]
  omega

/-- `t[c]` for an int c: outside the table it is no table entry. -/
def index (t : List α) : Int → Res α
  | .ofNat n => match t[n]? with
    | some x => .ok x
    | none => .error (.index n)
  | .negSucc n => .error (.index (.negSucc n))

theorem index_ok {t : List α} {n : Nat} {x : α} (h : t[n]? = some x) :
    index t (n : Int) = .ok x := by
  change index t (.ofNat n) = _
  simp only [index, h]

/-- strcmp(s, k) == 0, for k NULL or the string of the characters given. -/
def streq (s : List Cell) (k : Option (List Byte)) : Res Bool :=
  match k with
  | none => .error .fault
  | some k => do
    let s ← cstr s
    pure (s = k)

def HASH_MULT : BitVec 64 := 31#64

/-- The hash of a nil-terminated string: size_t arithmetic, plain char added. -/
def strhash (s : List Byte) : BitVec 64 :=
  s.foldl (fun hash c => hash * HASH_MULT + BitVec.ofInt 64 (charToInt c)) 0#64

end Mepl
