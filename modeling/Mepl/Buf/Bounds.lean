import Mepl.Buf.Stdio
import Mepl.Buf.Unix

namespace Mepl

/-- The cursor is at an offset p of the data_size + 1 bytes, at a NUL or before one. -/
structure CursorIn (dataSize : Nat) (a : List Byte) (p : Nat) : Prop where
  size : a.length = dataSize + 1
  nul : ∃ t, p ≤ t ∧ t ≤ dataSize ∧ a[t]? = some 0#8

/-- The states of a buf_unix on fd, with any results of read(). -/
inductive UnixRuns (dataSize : Nat) (fd : Fd) : BufUnix → Prop
  | init {b : BufUnix} (call : bufUnixInit dataSize fd = .ok b) : UnixRuns dataSize fd b
  | getc {b b' : BufUnix} {c : Int} (before : UnixRuns dataSize fd b)
      (call : bufUnixGetc dataSize b = .ok (c, b')) : UnixRuns dataSize fd b'

/-- The states of a buf_stdio. What is left of the stream is anything at each
call, so that its fgets() gives any piece, or NULL, or an error. -/
inductive StdioRuns (dataSize : Nat) : BufStdio → Prop
  | init (fp : File) : StdioRuns dataSize (bufStdioInit dataSize fp)
  | getc {b b' : BufStdio} {c : Int} (fp : File) (before : StdioRuns dataSize b)
      (call : bufStdioGetc dataSize { b with sFp := fp } = .ok (c, b')) : StdioRuns dataSize b'

/-- A call returns and leaves a state with P, or dies of a failed read. -/
def GetcIn (x : Res (Int × β)) (fmt : String) (P : β → Prop) : Prop :=
  (∃ c b, x = .ok (c, b) ∧ P b) ∨ x = .error (.die fmt)

section
variable {dataSize p : Nat} {a : List Byte}

theorem Ended.cursor_in (h : Ended a p) (hlen : a.length = dataSize + 1) :
    CursorIn dataSize a p := by
  obtain ⟨i, hi⟩ := List.mem_iff_getElem?.mp h
  rw [List.getElem?_drop] at hi
  have hlt := (List.getElem?_eq_some_iff.mp hi).1
  exact ⟨hlen, p + i, Nat.le_add_right p i, by omega, hi⟩

theorem CursorIn.ended (h : CursorIn dataSize a p) : Ended a p := by
  obtain ⟨t, hp, -, ht⟩ := h.nul
  apply List.mem_iff_getElem?.mpr
  refine ⟨t - p, ?_⟩
  rw [List.getElem?_drop, Nat.add_sub_cancel' hp]
  exact ht

theorem cursor_in_start : CursorIn dataSize (List.replicate (dataSize + 1) 0#8) 0 :=
  ⟨List.length_replicate, 0, Nat.le_refl 0, Nat.zero_le _, rfl⟩

theorem read_length {fd fd' : Fd} {count : Nat} {bs : List Byte}
    (h : read fd count = (some bs, fd')) : bs.length ≤ count ∧ fd'.num = fd.num := by
  unfold read at h
  split at h
  · cases h
    exact ⟨Nat.zero_le _, rfl⟩
  · cases h
  · split at h
    · cases h
      exact ⟨by assumption, rfl⟩
    · cases h
      exact ⟨List.length_take_le _ _, rfl⟩

end

/-- What every call of b_getc keeps for a buf_unix. -/
structure UnixIn (dataSize : Nat) (b : BufUnix) : Prop where
  fd : 0 ≤ b.uFd.num
  cursor : CursorIn dataSize b.uData b.uP

section
variable {dataSize : Nat} {b : BufUnix}

theorem UnixIn.ok (h : UnixIn dataSize b) : bufUnixOk dataSize b = .ok () := by
  obtain ⟨t, hp, ht, -⟩ := h.cursor.nul
  have hfd := h.fd
  have h1 : ¬ b.uFd.num < 0 := by omega
  have h2 : ¬ dataSize < b.uP := by omega
  simp [bufUnixOk, h1, h2]

theorem UnixIn.getc (h : UnixIn dataSize b) :
    GetcIn (bufUnixGetc dataSize b) "buf_unix_read(): read()" (UnixIn dataSize) := by
  have he := h.cursor.ended
  have hat := he.at
  have hok := h.ok
  cases hp : pending b.uData b.uP with
  | cons x xs =>
    obtain ⟨hn, he', -⟩ := he.next hp
    refine Or.inl ⟨charToInt x, { b with uP := b.uP + 1 }, ?_, h.fd, he'.cursor_in h.cursor.size⟩
    simp [bufUnixGetc, bufUnixEmpty, bufUnixNext, hok, hat, hp, hn]
  | nil =>
    have hempty : bufUnixEmpty b = .ok true := by simp [bufUnixEmpty, hat, hp]
    cases hr : read b.uFd dataSize with
    | mk result fd =>
      cases result with
      | none =>
        right
        simp [bufUnixGetc, hok, hempty, bufUnixFill, bufUnixRead, hr]
      | some bs =>
        left
        obtain ⟨hl, hnum⟩ := read_length hr
        obtain ⟨rest, hsize, hfill⟩ := unix_read_stored hr h.cursor.size hl
        have hlen : (bs ++ 0#8 :: rest).length = dataSize + 1 := by simp; omega
        have hfd : 0 ≤ fd.num := hnum ▸ h.fd
        have hstart := ended_stored bs rest
        cases hw : bs.takeWhile (· != 0#8) with
        | nil =>
          rw [hw] at hfill
          refine ⟨BUF_EOF, ⟨0, bs ++ 0#8 :: rest, fd⟩, ?_, hfd, hstart.cursor_in hlen⟩
          simp [bufUnixGetc, hok, hempty, hfill]
        | cons x xs =>
          rw [hw] at hfill
          obtain ⟨hn, he', -⟩ := hstart.next ((pending_stored bs rest).trans hw)
          refine ⟨charToInt x, ⟨1, bs ++ 0#8 :: rest, fd⟩, ?_, hfd, he'.cursor_in hlen⟩
          simp [bufUnixGetc, hok, hempty, hfill, bufUnixNext, hn]

theorem unix_runs_in {fd : Fd} (h : UnixRuns dataSize fd b) : UnixIn dataSize b := by
  induction h with
  | init call =>
    unfold bufUnixInit dbug at call
    split at call
    · cases call
    · rename_i hnum
      cases call
      exact ⟨by simpa using hnum, cursor_in_start⟩
  | getc before call ih =>
    rcases ih.getc with ⟨c, b, hrun, hin⟩ | hdie
    · rw [call] at hrun
      cases hrun
      exact hin
    · rw [call] at hdie
      cases hdie

end

section
variable {dataSize : Nat} {b : BufStdio}

theorem CursorIn.stdio_ok (h : CursorIn dataSize b.sData b.sP) :
    bufStdioOk dataSize b = .ok () := by
  obtain ⟨t, hp, ht, -⟩ := h.nul
  have hle : ¬ dataSize < b.sP := by omega
  simp [bufStdioOk, hle]

/-- fgets() stores its piece and a NUL, whether or not it failed. -/
theorem stdio_read_fits (hsize : 2 ≤ dataSize) (hlen : b.sData.length = dataSize + 1) :
    ∃ data, fill b.sData (lineOf (dataSize - 1) b.sFp.content ++ [0#8]) = .ok data := by
  have hline := lineOf_length (dataSize - 1) b.sFp.content
  rw [fill, if_pos]
  · exact ⟨_, rfl⟩
  · rw [List.length_append, List.length_singleton]
    omega

/-- After a refill of at least one character the NUL behind it is still ahead of
the cursor that has passed the first. -/
theorem CursorIn.stdio_getc (hsize : 2 ≤ dataSize) (h : CursorIn dataSize b.sData b.sP) :
    GetcIn (bufStdioGetc dataSize b) "buf_stdio_read(): fgets()"
      (fun b => CursorIn dataSize b.sData b.sP) := by
  have he := h.ended
  have hat := he.at
  have hok := h.stdio_ok
  cases hp : pending b.sData b.sP with
  | cons x xs =>
    obtain ⟨hn, he', -⟩ := he.next hp
    refine Or.inl ⟨charToInt x, { b with sP := b.sP + 1 }, ?_, he'.cursor_in h.size⟩
    simp [bufStdioGetc, bufStdioEmpty, bufStdioNext, hok, hat, hp, hn]
  | nil =>
    have hempty : bufStdioEmpty b = .ok true := by simp [bufStdioEmpty, hat, hp]
    cases herr : b.sFp.err with
    | true =>
      right
      by_cases hc : b.sFp.content = []
      · simp [bufStdioGetc, hok, hempty, bufStdioFill, bufStdioRead, fgets, hc, herr]
      · obtain ⟨data, hfill⟩ := stdio_read_fits hsize h.size
        simp [bufStdioGetc, hok, hempty, bufStdioFill, bufStdioRead, fgets, hc, herr, hfill]
    | false =>
      left
      by_cases hc : b.sFp.content = []
      · refine ⟨BUF_EOF, b, ?_, h⟩
        simp [bufStdioGetc, hok, hempty, bufStdioFill, bufStdioRead, fgets, hc, herr]
      · obtain ⟨x, xs, hline⟩ := List.exists_cons_of_ne_nil
          (lineOf_ne_nil (n := dataSize - 1) (by omega) hc)
        obtain ⟨rest, hlen, hfill⟩ := stdio_fill_line hc hline herr h.size
        have hdata : (x :: xs ++ 0#8 :: rest).length = dataSize + 1 := by
          simp at hlen ⊢
          omega
        have hpast : Ended (x :: xs ++ 0#8 :: rest) 1 := ended_stored xs rest
        refine ⟨charToInt x, ⟨1, ⟨b.sFp.content.drop (x :: xs).length, false⟩,
          x :: xs ++ 0#8 :: rest⟩, ?_, hpast.cursor_in hdata⟩
        simp [bufStdioGetc, hok, hempty, hfill, bufStdioNext, nextChar, load]

theorem stdio_runs_in (hsize : 2 ≤ dataSize) (h : StdioRuns dataSize b) :
    CursorIn dataSize b.sData b.sP := by
  induction h with
  | init fp => exact cursor_in_start
  | @getc b b' c fp before call ih =>
    have hin : CursorIn dataSize ({ b with sFp := fp } : BufStdio).sData b.sP := ih
    rcases hin.stdio_getc hsize with ⟨c, b', hrun, hin⟩ | hdie
    · rw [call] at hrun
      cases hrun
      exact hin
    · rw [call] at hdie
      cases hdie

end

/-- In every state of a run the cursor is in the array with a NUL at it or after
it, the range check holds, and the next call touches nothing but the array: it
returns, or dies of a failed read. -/
theorem cursors_in_bounds (dataSize : Nat) :
    (∀ fd b, UnixRuns dataSize fd b → CursorIn dataSize b.uData b.uP ∧
      bufUnixOk dataSize b = .ok () ∧
      GetcIn (bufUnixGetc dataSize b) "buf_unix_read(): read()" (UnixRuns dataSize fd)) ∧
    (2 ≤ dataSize → ∀ b, StdioRuns dataSize b → CursorIn dataSize b.sData b.sP ∧
      bufStdioOk dataSize b = .ok () ∧
      ∀ fp, GetcIn (bufStdioGetc dataSize { b with sFp := fp }) "buf_stdio_read(): fgets()"
        (StdioRuns dataSize)) := by
  constructor
  · intro fd b h
    have hin := unix_runs_in h
    refine ⟨hin.cursor, hin.ok, ?_⟩
    rcases hin.getc with ⟨c, b', hrun, -⟩ | hdie
    · exact Or.inl ⟨c, b', hrun, .getc h hrun⟩
    · exact Or.inr hdie
  · intro hsize b h
    have hin := stdio_runs_in hsize h
    refine ⟨hin, hin.stdio_ok, ?_⟩
    intro fp
    have hin' : CursorIn dataSize ({ b with sFp := fp } : BufStdio).sData b.sP := hin
    rcases hin'.stdio_getc hsize with ⟨c, b', hrun, -⟩ | hdie
    · exact Or.inl ⟨c, b', hrun, .getc fp h hrun⟩
    · exact Or.inr hdie

/-- 'a' and a NUL in an array of size 2: the cursor is at the content's NUL. -/
theorem cursors_in_bounds_two : CursorIn 2 [97#8, 0#8, 0#8] 1 ∧ CursorIn 2 [97#8, 0#8, 0#8] 1 := by
  have hunix : UnixRuns 2 ⟨0, [.data [97#8, 0#8]]⟩ ⟨1, [97#8, 0#8, 0#8], ⟨0, []⟩⟩ :=
    @UnixRuns.getc 2 _ _ _ 97 (.init rfl) rfl
  have hstdio : StdioRuns 2 ⟨1, ⟨[0#8], false⟩, [97#8, 0#8, 0#8]⟩ :=
    @StdioRuns.getc 2 _ _ 97 ⟨[97#8, 0#8], false⟩ (.init ⟨[], false⟩) rfl
  exact ⟨((cursors_in_bounds 2).1 _ _ hunix).1,
    ((cursors_in_bounds 2).2 (Nat.le_refl 2) _ hstdio).1⟩

end Mepl
