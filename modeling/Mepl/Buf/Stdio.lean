import Mepl.Buf.Cursor

namespace Mepl
open Base

/-- A stdio stream: what is still to be read, and its error indicator. -/
structure File where
  content : List Byte
  err : Bool
deriving DecidableEq, Repr

/-- At most n characters, through the first newline if there is one. -/
def lineOf : Nat → List Byte → List Byte
  | 0, _ => []
  | _ + 1, [] => []
  | n + 1, b :: bs => if b = 10#8 then [b] else b :: lineOf n bs

/-- fgets(s, n, fp): the characters stored at s before the NUL, none for NULL. -/
def fgets (n : Nat) (f : File) : Option (List Byte) × File :=
  if f.content = [] then (none, f)
  else
    let line := lineOf (n - 1) f.content
    (some line, { f with content := f.content.drop line.length })

structure BufStdio where
  /-- s_p - s_data -/
  sP : Nat
  sFp : File
  sData : List Byte
deriving DecidableEq, Repr

section
variable (dataSize : Nat)

def bufStdioOk (b : BufStdio) : Res Unit :=
  dbug (b.sP > dataSize) "%s(): s_p is not pointing into s_data: %p"

def bufStdioInit (fp : File) : BufStdio where
  sP := 0
  sFp := fp
  sData := List.replicate (dataSize + 1) 0#8

def bufStdioEmpty (b : BufStdio) : Res Bool := atNul b.sData b.sP

def bufStdioNext (b : BufStdio) : Res (Int × BufStdio) := do
  let (c, p) ← nextChar b.sData b.sP
  pure (c, { b with sP := p })

def bufStdioRead (b : BufStdio) : Res (Bool × BufStdio) := do
  let (p, fp) := fgets dataSize b.sFp
  let data ← match p with
    | none => pure b.sData
    | some line => fill b.sData (line ++ [0#8])
  if fp.err then throw (.die "buf_stdio_read(): fgets()")
  pure (p.isSome, { b with sFp := fp, sData := data })

def bufStdioFill (b : BufStdio) : Res (Bool × BufStdio) := do
  let (more, b) ← bufStdioRead dataSize b
  if !more then pure (false, b)
  else
    let data ← store b.sData dataSize 0#8
    pure (true, { b with sP := 0, sData := data })

/-- After a refill the cursor is advanced without a second look for the NUL. -/
def bufStdioGetc (b : BufStdio) : Res (Int × BufStdio) := do
  bufStdioOk dataSize b
  if !(← bufStdioEmpty b) then
    bufStdioNext b
  else
    let (filled, b) ← bufStdioFill dataSize b
    if filled then bufStdioNext b else pure (BUF_EOF, b)

end

theorem lineOf_length (n : Nat) (bs : List Byte) : (lineOf n bs).length ≤ n := by
  induction n generalizing bs with
  | zero => simp [lineOf]
  | succ n ih =>
    cases bs with
    | nil => simp [lineOf]
    | cons b bs =>
      have := ih bs
      by_cases hb : b = 10#8 <;> simp [lineOf, hb]
      omega

theorem lineOf_append (n : Nat) (bs : List Byte) :
    lineOf n bs ++ bs.drop (lineOf n bs).length = bs := by
  induction n generalizing bs with
  | zero => simp [lineOf]
  | succ n ih =>
    cases bs with
    | nil => simp [lineOf]
    | cons b bs => by_cases hb : b = 10#8 <;> simp [lineOf, hb, ih]

theorem lineOf_ne_nil (hn : 0 < n) (hb : bs ≠ []) : lineOf n bs ≠ [] := by
  obtain ⟨k, rfl⟩ : ∃ k, n = k + 1 := ⟨n - 1, by omega⟩
  cases bs with
  | nil => exact absurd rfl hb
  | cons b bs => by_cases hb : b = 10#8 <;> simp [lineOf, hb]

/-- The pieces in which fgets with room for n characters delivers a content. -/
def linesOf (n : Nat) (content : List Byte) : List (List Byte) :=
  match _h : lineOf n content with
  | [] => []
  | b :: bs => (b :: bs) :: linesOf n (content.drop (b :: bs).length)
termination_by content.length
decreasing_by
  have := congrArg List.length (lineOf_append n content)
  rw [_h] at this
  simp at this ⊢
  omega

theorem linesOf_flatten (hn : 0 < n) (content : List Byte) :
    (linesOf n content).flatten = content := by
  induction content using linesOf.induct n with
  | case1 content h =>
    rw [linesOf, h]
    by_contra hc
    exact lineOf_ne_nil hn (Ne.symm hc) h
  | case2 content b bs h ih =>
    rw [linesOf, h]
    simp only [List.flatten_cons, ih]
    rw [← h, lineOf_append]

/-- What one fgets makes buf_stdio give: its first character whatever it is,
then the others up to the first NUL. -/
def stdioLine : List Byte → List Int
  | [] => []
  | b :: bs => charToInt b :: (bs.takeWhile (· != 0#8)).map charToInt

/-- What a buf_stdio still has to give: the data it holds, then what each
fgets to come makes of its characters. -/
def StdioServes (dataSize : Nat) (b : BufStdio) (vs : List Int) : Prop :=
  b.sFp.err = false ∧ b.sData.length = dataSize + 1 ∧ Ended b.sData b.sP ∧
    vs = (pending b.sData b.sP).map charToInt ++
      (linesOf (dataSize - 1) b.sFp.content).flatMap stdioLine

/-- One refill of at least one character: the line stored and terminated, the
cursor at its start. -/
theorem stdio_fill_line {dataSize : Nat} {b : BufStdio} {x : Byte} {xs : List Byte}
    (hc : b.sFp.content ≠ []) (hline : lineOf (dataSize - 1) b.sFp.content = x :: xs)
    (herr : b.sFp.err = false) (hd : b.sData.length = dataSize + 1) :
    ∃ rest, (x :: xs).length + rest.length = dataSize ∧ bufStdioFill dataSize b =
      .ok (true, ⟨0, ⟨b.sFp.content.drop (x :: xs).length, false⟩,
        (x :: xs) ++ 0#8 :: rest⟩) := by
  have hlen : (x :: xs).length < dataSize := by
    have := lineOf_length (dataSize - 1) b.sFp.content
    rw [hline] at this
    have : 0 < (x :: xs).length := Nat.succ_pos _
    omega
  have hg : fgets dataSize b.sFp =
      (some (x :: xs), ⟨b.sFp.content.drop (x :: xs).length, false⟩) := by
    simp [fgets, hc, hline, herr]
  have hf : fill b.sData (x :: xs ++ [0#8]) =
      .ok (x :: xs ++ 0#8 :: b.sData.drop ((x :: xs).length + 1)) := by
    rw [fill, if_pos (by rw [List.length_append, hd, List.length_singleton]; omega)]
    simp
  let rest := (b.sData.drop ((x :: xs).length + 1)).set (dataSize - (x :: xs).length - 1) 0#8
  have hs : store (x :: xs ++ 0#8 :: b.sData.drop ((x :: xs).length + 1)) dataSize 0#8 =
      .ok (x :: xs ++ 0#8 :: rest) := by
    have hne : dataSize - (x :: xs).length = (dataSize - (x :: xs).length - 1) + 1 := by omega
    rw [store, if_pos (by simp [hd] at hlen ⊢; omega), List.set_append_right _ _ (by omega), hne,
      List.set_cons_succ]
  refine ⟨rest, ?_, ?_⟩
  · simp only [rest, List.length_set, List.length_drop, hd]
    omega
  · simp only [bufStdioFill, bufStdioRead, hg, hf, hs, ok_bind, pure_ok, Option.isSome_some,
      Bool.not_true, Bool.false_eq_true, ↓reduceIte]

theorem linesOf_cons (hl : lineOf n content = x :: xs) :
    linesOf n content = (x :: xs) :: linesOf n (content.drop (x :: xs).length) := by
  rw [linesOf, hl]

theorem stdio_serves {dataSize : Nat} (hsize : 2 ≤ dataSize) :
    Serves (bufStdioGetc dataSize) BUF_EOF (StdioServes dataSize) := by
  rintro b vs ⟨herr, hdata, he, rfl⟩
  have hlt := he.lt
  have hok : bufStdioOk dataSize b = .ok () := by
    have h : ¬ dataSize < b.sP := by omega
    simp [bufStdioOk, h]
  have hat := he.at
  cases hp : pending b.sData b.sP with
  | cons x xs =>
    obtain ⟨hn, he', hp'⟩ := he.next hp
    refine ⟨{ b with sP := b.sP + 1 }, ?_, herr, hdata, he', ?_⟩
    · simp [bufStdioGetc, bufStdioEmpty, bufStdioNext, hok, hat, hp, hn]
    · simp [hp']
  | nil =>
    have hempty : bufStdioEmpty b = .ok true := by simp [bufStdioEmpty, hat, hp]
    by_cases hc : b.sFp.content = []
    · -- end of file: fgets leaves the array alone and the cursor stays on its NUL
      have hno : linesOf (dataSize - 1) [] = [] := by
        rw [linesOf]
        cases hz : dataSize - 1 <;> simp [lineOf]
      refine ⟨b, ?_, herr, hdata, he, ?_⟩
      · simp [bufStdioGetc, hok, hempty, bufStdioFill, bufStdioRead, fgets, hc, herr, hno]
      · simp [hp, hc, hno]
    · obtain ⟨x, xs, hline⟩ := List.exists_cons_of_ne_nil
        (lineOf_ne_nil (n := dataSize - 1) (by omega) hc)
      obtain ⟨rest, hr, hfill⟩ := stdio_fill_line hc hline herr hdata
      refine ⟨⟨1, ⟨b.sFp.content.drop (x :: xs).length, false⟩, x :: xs ++ 0#8 :: rest⟩,
        ?_, rfl, ?_, ?_, ?_⟩
      · simp [bufStdioGetc, hok, hempty, hfill, bufStdioNext, nextChar, load, linesOf_cons hline,
          stdioLine]
      · simp at hr ⊢
        omega
      · exact ended_stored xs rest
      · have hp' : pending (x :: (xs ++ 0#8 :: rest)) 1 = xs.takeWhile (· != 0#8) :=
          pending_stored xs rest
        simp [hp', linesOf_cons hline, stdioLine]

/-- A fresh buf_stdio gives what the fgets calls make of the stream. -/
theorem stdio_init_serves (dataSize : Nat) (content : List Byte) :
    StdioServes dataSize (bufStdioInit dataSize ⟨content, false⟩)
      ((linesOf (dataSize - 1) content).flatMap stdioLine) := by
  refine ⟨rfl, by simp [bufStdioInit], by simp [Ended, bufStdioInit], ?_⟩
  simp [bufStdioInit, pending, List.replicate_succ]

end Mepl
