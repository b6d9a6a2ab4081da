import Mepl.Buf.Cursor

namespace Mepl
open Base

/-- What one read() gives when it is allowed enough bytes. -/
inductive ReadResult where
  | data (bs : List Byte)
  | err
deriving DecidableEq, Repr

/-- A descriptor and what read() on it will give; after that it is at end of
file, where read() returns 0 for ever. -/
structure Fd where
  num : Int
  results : List ReadResult
deriving DecidableEq, Repr

/-- read(fd, buf, count): the bytes stored at buf, none for a negative result. -/
def read (fd : Fd) (count : Nat) : Option (List Byte) × Fd :=
  match fd.results with
  | [] => (some [], fd)
  | .err :: rs => (none, { fd with results := rs })
  | .data bs :: rs =>
    if bs.length ≤ count then (some bs, { fd with results := rs })
    else (some (bs.take count), { fd with results := .data (bs.drop count) :: rs })

structure BufUnix where
  /-- u_p - u_data -/
  uP : Nat
  uData : List Byte
  uFd : Fd
deriving DecidableEq, Repr

section
variable (dataSize : Nat)

def bufUnixOk (b : BufUnix) : Res Unit := do
  dbug (b.uFd.num < 0) "%s(): u_fd < 0"
  dbug (b.uP > dataSize) "%s(): u_p is not pointing into u_data: %p"

def bufUnixInit (fd : Fd) : Res BufUnix := do
  dbug (fd.num < 0) "buf_unix_init(): fd < 0"
  pure { uP := 0, uData := List.replicate (dataSize + 1) 0#8, uFd := fd }

def bufUnixEmpty (b : BufUnix) : Res Bool := atNul b.uData b.uP

def bufUnixNext (b : BufUnix) : Res (Int × BufUnix) := do
  let (c, p) ← nextChar b.uData b.uP
  pure (c, { b with uP := p })

def bufUnixRead (b : BufUnix) : Res (Bool × BufUnix) := do
  match read b.uFd dataSize with
  | (none, _) => throw (.die "buf_unix_read(): read()")
  | (some bs, fd) =>
    let data ← store (← fill b.uData bs) bs.length 0#8
    let b := { b with uP := 0, uData := data, uFd := fd }
    pure (!(← bufUnixEmpty b), b)

def bufUnixFill (b : BufUnix) : Res (Bool × BufUnix) := bufUnixRead dataSize b

def bufUnixGetc (b : BufUnix) : Res (Int × BufUnix) := do
  bufUnixOk dataSize b
  if !(← bufUnixEmpty b) then
    bufUnixNext b
  else
    let (filled, b) ← bufUnixFill dataSize b
    if filled then bufUnixNext b else pure (BUF_EOF, b)

end

/-- What one read() makes buf_unix give: its bytes up to the first NUL, and an
end-of-file marker when that leaves none. -/
def unixChunk (bs : List Byte) : List Int :=
  match bs.takeWhile (· != 0#8) with
  | [] => [BUF_EOF]
  | xs => xs.map charToInt

/-- The results of read() as a file without errors gives them. -/
def chunksOf (rs : List (List Byte)) : List ReadResult := rs.map .data

/-- What a buf_unix still has to give: the data it holds, then what each read()
to come makes of its bytes. -/
def UnixServes (dataSize : Nat) (b : BufUnix) (vs : List Int) : Prop :=
  0 ≤ b.uFd.num ∧ b.uData.length = dataSize + 1 ∧ Ended b.uData b.uP ∧
    ∃ chunks : List (List Byte), b.uFd.results = chunksOf chunks ∧
      (∀ bs ∈ chunks, bs.length ≤ dataSize) ∧
      vs = (pending b.uData b.uP).map charToInt ++ chunks.flatMap unixChunk

/-- One refill stores the bytes read, terminates them and starts over. -/
theorem unix_read_stored {dataSize : Nat} {b : BufUnix} {bs : List Byte} {fd : Fd}
    (hr : read b.uFd dataSize = (some bs, fd)) (hd : b.uData.length = dataSize + 1)
    (hl : bs.length ≤ dataSize) :
    ∃ rest, bs.length + rest.length = dataSize ∧
      bufUnixFill dataSize b =
        .ok (!(bs.takeWhile (· != 0#8)).isEmpty, ⟨0, bs ++ 0#8 :: rest, fd⟩) := by
  have hf : fill b.uData bs = .ok (bs ++ b.uData.drop bs.length) := by
    rw [fill, if_pos (by omega)]
  obtain ⟨x, rest, hrest⟩ : ∃ x rest, b.uData.drop bs.length = x :: rest := by
    match hx : b.uData.drop bs.length with
    | x :: rest => exact ⟨x, rest, rfl⟩
    | [] =>
      have := congrArg List.length hx
      simp at this
      omega
  have hs : store (bs ++ x :: rest) bs.length 0#8 = .ok (bs ++ 0#8 :: rest) :=
    store_append bs rest x 0#8
  have hat := (ended_stored bs rest).at
  rw [pending_stored] at hat
  refine ⟨rest, ?_, ?_⟩
  · have := congrArg List.length hrest
    simp at this
    omega
  · simp [bufUnixFill, bufUnixRead, hr, hf, hrest, hs, bufUnixEmpty, hat]

/-- A refill from bs makes the next value the first of unixChunk bs. -/
theorem unix_refill {dataSize : Nat} {b : BufUnix} {bs rest : List Byte} {fd : Fd}
    {cs : List (List Byte)} (hok : bufUnixOk dataSize b = .ok ())
    (hempty : bufUnixEmpty b = .ok true) (hsize : bs.length + rest.length = dataSize)
    (hnum : 0 ≤ fd.num)
    (hfill : bufUnixFill dataSize b =
      .ok (!(bs.takeWhile (· != 0#8)).isEmpty, ⟨0, bs ++ 0#8 :: rest, fd⟩))
    (hcs : fd.results = chunksOf cs) (hfit : ∀ bs ∈ cs, bs.length ≤ dataSize) :
    ∃ b', bufUnixGetc dataSize b = .ok ((unixChunk bs).headD BUF_EOF, b') ∧
      UnixServes dataSize b' ((unixChunk bs).tail ++ cs.flatMap unixChunk) := by
  have he := ended_stored bs rest
  have hlen : (bs ++ 0#8 :: rest).length = dataSize + 1 := by simp; omega
  cases hw : bs.takeWhile (· != 0#8) with
  | nil =>
    rw [hw] at hfill
    refine ⟨⟨0, bs ++ 0#8 :: rest, fd⟩, ?_, hnum, hlen, he, cs, hcs, hfit, ?_⟩
    · simp [bufUnixGetc, hok, hempty, hfill, unixChunk, hw]
    · simp [unixChunk, hw, pending_stored]
  | cons x xs =>
    rw [hw] at hfill
    obtain ⟨hn, he', hp⟩ := he.next ((pending_stored bs rest).trans hw)
    refine ⟨⟨1, bs ++ 0#8 :: rest, fd⟩, ?_, hnum, hlen, he', cs, hcs, hfit, ?_⟩
    · simp [bufUnixGetc, hok, hempty, hfill, unixChunk, hw, bufUnixNext, hn]
    · simp [unixChunk, hw, hp]

theorem unix_serves (dataSize : Nat) :
    Serves (bufUnixGetc dataSize) BUF_EOF (UnixServes dataSize) := by
  rintro b vs ⟨hfd, hdata, he, chunks, hres, hfit, rfl⟩
  have hlt := he.lt
  have hok : bufUnixOk dataSize b = .ok () := by
    have h1 : ¬ b.uFd.num < 0 := by omega
    have h2 : ¬ dataSize < b.uP := by omega
    simp [bufUnixOk, h1, h2]
  have hat := he.at
  cases hp : pending b.uData b.uP with
  | cons x xs =>
    obtain ⟨hn, he', hp'⟩ := he.next hp
    refine ⟨{ b with uP := b.uP + 1 }, ?_, hfd, hdata, he', chunks, hres, hfit, ?_⟩
    · simp [bufUnixGetc, bufUnixEmpty, bufUnixNext, hok, hat, hp, hn]
    · simp [hp']
  | nil =>
    -- the data is used up: the next value comes out of a refill
    have hempty : bufUnixEmpty b = .ok true := by simp [bufUnixEmpty, hat, hp]
    cases chunks with
    | nil =>
      have hr : read b.uFd dataSize = (some [], b.uFd) := by simp [read, hres, chunksOf]
      obtain ⟨rest, hsize, hfill⟩ := unix_read_stored hr hdata (Nat.zero_le _)
      obtain ⟨b', hg, hs⟩ := unix_refill hok hempty hsize hfd hfill hres hfit
      exact ⟨b', by simpa [unixChunk] using hg, by simpa [unixChunk] using hs⟩
    | cons bs cs =>
      have hl := hfit bs List.mem_cons_self
      have hr : read b.uFd dataSize = (some bs, ⟨b.uFd.num, chunksOf cs⟩) := by
        simp [read, hres, chunksOf, hl]
      obtain ⟨rest, hsize, hfill⟩ := unix_read_stored hr hdata hl
      obtain ⟨b', hg, hs⟩ := unix_refill hok hempty hsize (by exact hfd) hfill rfl
        (fun bs hm => hfit bs (List.mem_cons_of_mem _ hm))
      have hne : unixChunk bs ≠ [] := by unfold unixChunk; split <;> simp_all
      obtain ⟨v, us, hv⟩ := List.exists_cons_of_ne_nil hne
      exact ⟨b', by simpa [hv] using hg, by simpa [hv] using hs⟩

/-- A fresh buf_unix gives what the read() results make of the file. -/
theorem unix_init_serves {dataSize : Nat} {num : Int} {chunks : List (List Byte)} (hn : 0 ≤ num)
    (hc : ∀ bs ∈ chunks, bs.length ≤ dataSize) :
    ∃ b, bufUnixInit dataSize ⟨num, chunksOf chunks⟩ = .ok b ∧
      UnixServes dataSize b (chunks.flatMap unixChunk) := by
  have h1 : ¬ num < 0 := by omega
  let b : BufUnix := ⟨0, List.replicate (dataSize + 1) 0#8, ⟨num, chunksOf chunks⟩⟩
  refine ⟨b, by simp [bufUnixInit, h1, b], hn, by simp [b], by simp [Ended, b], chunks, rfl,
    hc, ?_⟩
  simp [b, pending, List.replicate_succ]

end Mepl
