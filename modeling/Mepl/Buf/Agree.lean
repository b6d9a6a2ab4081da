import Mathlib.Data.List.TakeWhile
import Mepl.Buf.Stdio
import Mepl.Buf.Strings
import Mepl.Buf.Unix

namespace Mepl
open Base

/-- One way of cutting w into the results of read() calls: none is empty, and
none is more than the calls ask for. -/
structure Cuts (dataSize : Nat) (w : List Byte) (chunks : List (List Byte)) : Prop where
  whole : chunks.flatten = w
  nonempty : ∀ bs ∈ chunks, bs ≠ []
  fits : ∀ bs ∈ chunks, bs.length ≤ dataSize

/-- The values of the first n calls of b_getc. -/
def values (getc : σ → Res (Int × σ)) (n : Nat) (b : Res σ) : Res (List Int) := do
  let (cs, _) ← reads getc n (← b)
  pure cs

theorem values_serves {getc : σ → Res (Int × σ)} {R : σ → List Int → Prop}
    (h : Serves getc BUF_EOF R) {b : σ} {vs : List Int} (hr : R b vs) (n : Nat) :
    values getc n (.ok b) = .ok (upTo BUF_EOF vs n) := by
  obtain ⟨b', hb, _⟩ := h.reads hr n
  simp [values, hb]

def unixValues (dataSize : Nat) (chunks : List (List Byte)) (n : Nat) : Res (List Int) :=
  values (bufUnixGetc dataSize) n (bufUnixInit dataSize ⟨0, chunksOf chunks⟩)

def stdioValues (dataSize : Nat) (content : List Byte) (n : Nat) : Res (List Int) :=
  values (bufStdioGetc dataSize) n (.ok (bufStdioInit dataSize ⟨content, false⟩))

def nstrValues (w : List Byte) (n : Nat) : Res (List Int) :=
  values bufNstrGetc n (.ok (bufNstrInit w w.length))

/-- w in memory, terminated by a NUL. -/
def cstrValues (w : List Byte) (n : Nat) : Res (List Int) :=
  values bufCstrGetc n (.ok (bufCstrInit (w ++ [0#8])))

theorem unixValues_eq {dataSize : Nat} {chunks : List (List Byte)}
    (hc : ∀ bs ∈ chunks, bs.length ≤ dataSize) (n : Nat) :
    unixValues dataSize chunks n = .ok (upTo BUF_EOF (chunks.flatMap unixChunk) n) := by
  obtain ⟨b, hb, hs⟩ := unix_init_serves (Int.le_refl 0) hc
  rw [unixValues, hb, values_serves (unix_serves dataSize) hs]

theorem stdioValues_eq {dataSize : Nat} (hd : 2 ≤ dataSize) (content : List Byte) (n : Nat) :
    stdioValues dataSize content n =
      .ok (upTo BUF_EOF ((linesOf (dataSize - 1) content).flatMap stdioLine) n) :=
  values_serves (stdio_serves hd) (stdio_init_serves dataSize content) n

theorem nstrValues_eq (w : List Byte) (n : Nat) :
    nstrValues w n = .ok (upTo BUF_EOF (w.map charToInt) n) :=
  values_serves nstr_serves (nstr_init_serves w) n

theorem cstrValues_eq (w : List Byte) (n : Nat) :
    cstrValues w n = .ok (upTo BUF_EOF ((w.takeWhile (· != 0#8)).map charToInt) n) :=
  values_serves cstr_serves (cstr_init_serves w []) n

theorem nul_free_pos {bs : List Byte} (h : 0#8 ∉ bs) : ∀ b ∈ bs, (b != 0#8) = true := by
  intro b hb
  rw [bne_iff_ne]
  intro hin
  subst hin
  exact h hb

theorem takeWhile_nul_free {bs : List Byte} (h : 0#8 ∉ bs) : bs.takeWhile (· != 0#8) = bs := by
  rw [List.takeWhile_eq_self_iff]
  exact nul_free_pos h

/-- A non-empty read() result without a NUL is given whole. -/
theorem unixChunk_nul_free {bs : List Byte} (hn : bs ≠ []) (h : 0#8 ∉ bs) :
    unixChunk bs = bs.map charToInt := by
  rw [unixChunk, takeWhile_nul_free h]
  cases bs with
  | nil => exact absurd rfl hn
  | cons b bs => rfl

/-- A line whose NULs, if any, come first is given whole. -/
theorem stdioLine_whole {bs : List Byte} (h : 0#8 ∉ bs.tail) : stdioLine bs = bs.map charToInt := by
  cases bs with
  | nil => rfl
  | cons b bs =>
    rw [List.tail_cons] at h
    simp only [stdioLine, takeWhile_nul_free h, List.map_cons]

theorem flatMap_whole {pieces : List (List Byte)} {f : List Byte → List Int}
    (h : ∀ bs ∈ pieces, f bs = bs.map charToInt) :
    pieces.flatMap f = pieces.flatten.map charToInt := by
  induction pieces with
  | nil => rfl
  | cons bs pieces ih =>
    simp only [List.flatMap_cons, List.flatten_cons, List.map_append,
      h bs List.mem_cons_self, ih (fun b hb => h b (List.mem_cons_of_mem _ hb))]

/-- Over a content without NUL the four bufs give the same values: each
character once, in order, and then BUF_EOF for ever. -/
theorem bufs_agree {w : List Byte} {unixSize stdioSize : Nat} {chunks : List (List Byte)}
    (hw : 0#8 ∉ w) (hc : Cuts unixSize w chunks) (hs : 2 ≤ stdioSize) (n : Nat) :
    unixValues unixSize chunks n = .ok (upTo BUF_EOF (w.map charToInt) n) ∧
    stdioValues stdioSize w n = .ok (upTo BUF_EOF (w.map charToInt) n) ∧
    cstrValues w n = .ok (upTo BUF_EOF (w.map charToInt) n) ∧
    nstrValues w n = .ok (upTo BUF_EOF (w.map charToInt) n) := by
  refine ⟨?_, ?_, ?_, nstrValues_eq w n⟩
  · have hchunk : ∀ bs ∈ chunks, unixChunk bs = bs.map charToInt := by
      intro bs hb
      apply unixChunk_nul_free (hc.nonempty bs hb)
      intro hz
      apply hw
      rw [← hc.whole]
      exact List.mem_flatten.mpr ⟨bs, hb, hz⟩
    rw [unixValues_eq hc.fits, flatMap_whole hchunk, hc.whole]
  · have hflat := linesOf_flatten (n := stdioSize - 1) (by omega) w
    have hline : ∀ bs ∈ linesOf (stdioSize - 1) w, stdioLine bs = bs.map charToInt := by
      intro bs hb
      apply stdioLine_whole
      intro hz
      apply hw
      rw [← hflat]
      exact List.mem_flatten.mpr ⟨bs, hb, List.mem_of_mem_tail hz⟩
    rw [stdioValues_eq hs, flatMap_whole hline, hflat]
  · rw [cstrValues_eq, takeWhile_nul_free hw]

theorem bufs_agree_two_reads :
    unixValues 2 [[97#8, 98#8], [0xff#8]] 4 =
      .ok (upTo BUF_EOF ([97#8, 98#8, 0xff#8].map charToInt) 4) ∧
    stdioValues 2 [97#8, 98#8, 0xff#8] 4 =
      .ok (upTo BUF_EOF ([97#8, 98#8, 0xff#8].map charToInt) 4) ∧
    cstrValues [97#8, 98#8, 0xff#8] 4 = .ok (upTo BUF_EOF ([97#8, 98#8, 0xff#8].map charToInt) 4) ∧
    nstrValues [97#8, 98#8, 0xff#8] 4 = .ok (upTo BUF_EOF ([97#8, 98#8, 0xff#8].map charToInt) 4) :=
  bufs_agree (by decide) ⟨rfl, by decide, by decide⟩ (Nat.le_refl 2) 4

end Mepl
