import Mathlib.Data.List.Basic

namespace Mepl

/-- One char of memory or of a file: eight bits, read as signed by the code. -/
abbrev Byte := BitVec 8

/-- Every way a call can end other than by returning to its caller. -/
inductive Stop where
  /-- NULL dereference, access outside an object, use of an unset byte -/
  | fault
  /-- isspace or isalpha applied outside EOF and 0..UCHAR_MAX -/
  | ctype (c : Int)
  /-- a 256-entry table indexed outside 0..UCHAR_MAX -/
  | index (c : Int)
  | usage (fmt : String) (arg : List Byte)
  | die (fmt : String)
  | dbug (fmt : String)
  /-- not the code's: the model's loop bound was too small -/
  | fuel
deriving DecidableEq, Repr

abbrev Res := Except Stop

@[simp] theorem pure_ok (a : α) : (pure a : Res α) = .ok a := rfl

@[simp] theorem throw_error (e : Stop) : (throw e : Res α) = .error e := rfl

@[simp] theorem ok_bind (a : α) (f : α → Res β) : ((.ok a : Res α) >>= f) = f a := rfl

@[simp] theorem error_bind (e : Stop) (f : α → Res β) :
    ((.error e : Res α) >>= f) = .error e := rfl

theorem bind_ok {x : Res α} {f : α → Res β} :
    (x >>= f) = .ok b ↔ ∃ a, x = .ok a ∧ f a = .ok b := by
  cases x with
  | error e => simp
  | ok a => simp

/-- What holds of what a call returns, of a call that is known to return. -/
theorem exists_ok_iff {x : Res α} {P : α → Prop} (h : x = .ok a) :
    (∃ b, x = .ok b ∧ P b) ↔ P a := by
  simp [h]

/-- Calls one after the other keep what each of them keeps. -/
theorem fold_keeps {f : β → α → Res β} {P : β → List α → Prop}
    (hcall : ∀ {s done} a, P s done → ∃ s', f s a = .ok s' ∧ P s' (done ++ [a]))
    {s : β} {done : List α} (xs : List α) (h : P s done) :
    ∃ s', xs.foldlM f s = .ok s' ∧ P s' (done ++ xs) := by
  induction xs generalizing s done with
  | nil => exact ⟨s, rfl, by rwa [List.append_nil]⟩
  | cons x xs ih =>
    obtain ⟨s₁, hcall₁, h₁⟩ := hcall x h
    obtain ⟨s₂, hrun₂, h₂⟩ := ih h₁
    rw [List.append_assoc] at h₂
    refine ⟨s₂, ?_, h₂⟩
    rw [List.foldlM_cons, hcall₁]
    exact hrun₂

def BUF_EOF : Int := -1

def UCHAR_MAX : Int := 255

/-- What `int c = *p` reads: plain char is signed. -/
def charToInt (b : Byte) : Int := b.toInt

/-- What storing an int in a char leaves there. -/
def intToChar (c : Int) : Byte := BitVec.ofInt 8 c

@[simp] theorem int_to_char_to_nat (b : Byte) : intToChar (b.toNat : Int) = b := by
  simp [intToChar]

@[simp] theorem int_to_char_char_to_int (b : Byte) : intToChar (charToInt b) = b := by
  simp [intToChar, charToInt]

/-- The end-of-file marker is in band: exactly one byte is read as it. -/
theorem char_to_int_eof (b : Byte) : charToInt b = BUF_EOF ↔ b = 0xff#8 := by
  revert b
  decide

/-- The decrement of a size_t, which wraps. -/
def sizeDec (n : Nat) : Nat :=
  if n = 0 then 0xffffffffffffffff else n - 1

theorem size_dec_ne_zero {n : Nat} (h : n ≠ 0) : sizeDec n = n - 1 := if_neg h

@[simp] theorem size_dec_succ (n : Nat) : sizeDec (n + 1) = n :=
  size_dec_ne_zero n.succ_ne_zero

/-- dbug() with its condition: the checks of a DBUG build. -/
def dbug (cond : Bool) (fmt : String) : Res Unit :=
  if cond then .error (.dbug fmt) else .ok ()

@[simp] theorem dbug_false (fmt : String) : dbug false fmt = .ok () := rfl

section
variable {α : Type}

/-- `a[i]` read. -/
def load (a : List α) (i : Nat) : Res α :=
  match a[i]? with
  | some x => .ok x
  | none => .error .fault

/-- `a[i] = x`. -/
def store (a : List α) (i : Nat) (x : α) : Res (List α) :=
  if i < a.length then .ok (a.set i x) else .error .fault

/-- A library call storing xs at the start of a. -/
def fill (a xs : List α) : Res (List α) :=
  if xs.length ≤ a.length then .ok (xs ++ a.drop xs.length) else .error .fault

theorem load_ok {a : List α} {i : Nat} {x : α} (h : load a i = .ok x) : a[i]? = some x := by
  unfold load at h
  split at h
  · cases h
    assumption
  · cases h

theorem load_some {a : List α} {i : Nat} {x : α} (h : a[i]? = some x) : load a i = .ok x := by
  simp [load, h]

theorem load_lt {a : List α} {i : Nat} (h : i < a.length) : load a i = .ok a[i] :=
  load_some (List.getElem?_eq_getElem h)

theorem store_ok {a b : List α} {i : Nat} {x : α} (h : store a i x = .ok b) :
    i < a.length ∧ b = a.set i x := by
  unfold store at h
  split at h
  · cases h
    exact ⟨by assumption, rfl⟩
  · cases h

theorem store_lt {a : List α} {i : Nat} (h : i < a.length) (x : α) :
    store a i x = .ok (a.set i x) :=
  if_pos h

theorem store_length {a b : List α} {i : Nat} {x : α} (h : store a i x = .ok b) :
    b.length = a.length := by
  obtain ⟨-, rfl⟩ := store_ok h
  exact List.length_set

@[simp] theorem load_append (xs ys : List α) (y : α) :
    load (xs ++ y :: ys) xs.length = .ok y := by
  simp [load]

theorem store_append (xs ys : List α) (y z : α) :
    store (xs ++ y :: ys) xs.length z = .ok (xs ++ z :: ys) := by
  simp [store]

theorem load_at {a : List α} {i : Nat} (xs ys : List α) (y : α)
    (ha : a = xs ++ y :: ys) (hi : i = xs.length) : load a i = .ok y := by
  subst ha hi
  exact load_append xs ys y

theorem store_at {a : List α} {i : Nat} (xs ys : List α) (y z : α)
    (ha : a = xs ++ y :: ys) (hi : i = xs.length) : store a i z = .ok (xs ++ z :: ys) := by
  subst ha hi
  exact store_append xs ys y z

end

/-- A byte of storage that may not have been written since it was obtained. -/
abbrev Cell := Option Byte

/-- The nil-terminated string at the start of a. -/
def cstr : List Cell → Res (List Byte)
  | [] => .error .fault
  | none :: _ => .error .fault
  | some b :: cs => if b = 0#8 then .ok [] else do
      let bs ← cstr cs
      pure (b :: bs)

/-- A string function reads up to the first NUL and nothing after it. -/
theorem cstr_take (bs : List Byte) (rest : List Cell) :
    cstr (bs.map some ++ some 0#8 :: rest) = .ok (bs.takeWhile (· != 0#8)) := by
  induction bs with
  | nil => simp [cstr]
  | cons b bs ih => by_cases hb : b = 0#8 <;> simp [cstr, hb, ih]

end Mepl
