import Mepl.Buf.Cursor

namespace Mepl
open Base

structure BufNstr where
  nLen : Nat
  nStr : List Byte
  /-- n_p - n_str -/
  nP : Nat
deriving DecidableEq, Repr

def bufNstrOk (b : BufNstr) : Res Unit :=
  dbug (b.nP > b.nLen) "%s(): n_p is not pointing into n_data: %p"

def bufNstrInit (str : List Byte) (len : Nat) : BufNstr where
  nLen := len
  nStr := str
  nP := 0

def bufNstrEmpty (b : BufNstr) : Bool := b.nP == b.nLen

def bufNstrGetc (b : BufNstr) : Res (Int × BufNstr) := do
  bufNstrOk b
  if !bufNstrEmpty b then
    let (c, p) ← nextChar b.nStr b.nP
    pure (c, { b with nP := p })
  else
    pure (BUF_EOF, b)

/-- What a buf_nstr still has to give. -/
def NstrServes (b : BufNstr) (vs : List Int) : Prop :=
  b.nP ≤ b.nLen ∧ b.nLen ≤ b.nStr.length ∧ vs = ((b.nStr.take b.nLen).drop b.nP).map charToInt

theorem nstr_serves : Serves bufNstrGetc BUF_EOF NstrServes := by
  rintro ⟨len, str, p⟩ vs ⟨hp, hl, rfl⟩
  dsimp only at hp hl ⊢
  have hok : bufNstrOk ⟨len, str, p⟩ = .ok () := by simp [bufNstrOk, Nat.not_lt.mpr hp]
  rcases Nat.eq_or_lt_of_le hp with rfl | hlt
  · refine ⟨⟨p, str, p⟩, ?_, hp, hl, ?_⟩
    · simp [bufNstrGetc, bufNstrEmpty, hok]
    · simp
  · have hne : (p == len) = false := beq_false_of_ne (Nat.ne_of_lt hlt)
    have hsplit : (str.take len).drop p = str[p] :: (str.take len).drop (p + 1) := by
      rw [List.drop_eq_getElem_cons (by simp; omega)]
      simp
    refine ⟨⟨len, str, p + 1⟩, ?_, hlt, hl, ?_⟩
    · have hload : load str p = .ok str[p] := by simp [load, Nat.lt_of_lt_of_le hlt hl]
      simp only [bufNstrGetc, bufNstrEmpty, hok, hne, nextChar, hload, hsplit, ok_bind, pure_ok,
        Bool.not_false, ↓reduceIte, List.map_cons, List.headD_cons]
    · rw [hsplit]
      rfl

theorem nstr_init_serves (w : List Byte) :
    NstrServes (bufNstrInit w w.length) (w.map charToInt) :=
  ⟨Nat.zero_le _, Nat.le_refl _, by simp [bufNstrInit]⟩

structure BufCstr where
  /-- c_p - c_str -/
  cP : Nat
  cStr : List Byte
deriving DecidableEq, Repr

/-- strlen() of an array with a NUL in it. -/
def strlen (a : List Byte) : Nat := (a.takeWhile (· != 0#8)).length

def bufCstrOk (b : BufCstr) : Res Unit :=
  dbug (b.cP > strlen b.cStr) "%s(): c_p is not pointing into c_data: %p"

def bufCstrInit (str : List Byte) : BufCstr where
  cP := 0
  cStr := str

def bufCstrEmpty (b : BufCstr) : Res Bool := atNul b.cStr b.cP

def bufCstrGetc (b : BufCstr) : Res (Int × BufCstr) := do
  bufCstrOk b
  if !(← bufCstrEmpty b) then
    let (c, p) ← nextChar b.cStr b.cP
    pure (c, { b with cP := p })
  else
    pure (BUF_EOF, b)

/-- The string is nil-terminated and the cursor is not past its terminator. -/
def CstrServes (b : BufCstr) (vs : List Int) : Prop :=
  Ended b.cStr b.cP ∧ b.cP ≤ strlen b.cStr ∧ vs = (pending b.cStr b.cP).map charToInt

/-- Passing a character before the terminator stays within the string. -/
theorem pending_strlen {a : List Byte} {p : Nat} (hs : p ≤ strlen a)
    (hp : pending a p = x :: xs) : p < strlen a := by
  rcases Nat.eq_or_lt_of_le hs with rfl | h
  · have hd : a.drop (strlen a) = a.dropWhile (· != 0#8) := by
      have := @List.drop_left _ (a.takeWhile (· != 0#8)) (a.dropWhile (· != 0#8))
      rwa [List.takeWhile_append_dropWhile] at this
    rw [pending, hd] at hp
    have hh := List.head?_dropWhile_not (· != 0#8) a
    cases hdw : a.dropWhile (· != 0#8) with
    | nil => simp [hdw] at hp
    | cons y ys =>
      simp only [hdw, List.head?_cons] at hh
      simp only [hdw] at hp
      simp [hh] at hp
  · exact h

theorem cstr_serves : Serves bufCstrGetc BUF_EOF CstrServes := by
  rintro ⟨p, str⟩ vs ⟨he, hs, rfl⟩
  dsimp only at he hs ⊢
  have hok : bufCstrOk ⟨p, str⟩ = .ok () := by simp [bufCstrOk, Nat.not_lt.mpr hs]
  have hat := he.at
  cases hp : pending str p with
  | nil =>
    refine ⟨⟨p, str⟩, ?_, he, hs, by simp [hp]⟩
    simp [bufCstrGetc, bufCstrEmpty, hok, hat, hp]
  | cons x xs =>
    obtain ⟨hn, he', hp'⟩ := he.next hp
    refine ⟨⟨p + 1, str⟩, ?_, he', pending_strlen hs hp, by simp [hp']⟩
    simp [bufCstrGetc, bufCstrEmpty, hok, hat, hp, hn]

/-- Over a nil-terminated array, buf_cstr gives the characters before the NUL. -/
theorem cstr_init_serves (w rest : List Byte) :
    CstrServes (bufCstrInit (w ++ 0#8 :: rest))
      ((w.takeWhile (· != 0#8)).map charToInt) :=
  ⟨ended_stored w rest, Nat.zero_le _, by simp [bufCstrInit, pending_stored]⟩

end Mepl
