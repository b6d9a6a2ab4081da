import Mathlib.Algebra.Order.Ring.Nat
import Mepl.C.Machine

namespace Mepl

def DSTR_SHORT_SIZE : Nat := 2 ^ 5 - 1

/-- What d_cur points to: the inline array or the heap allocation. -/
inductive Place where
  | short
  | heap
deriving DecidableEq, Repr

structure Dstr where
  dCap : Nat
  dLen : Nat
  dCur : Place
  /-- NULL, or the bytes of the allocation it points to -/
  dHeap : Option (List Cell)
  dShort : List Cell
deriving DecidableEq, Repr

/-- The array d_cur points into. -/
def Dstr.cur (d : Dstr) : Res (List Cell) :=
  match d.dCur with
  | .short => .ok d.dShort
  | .heap => match d.dHeap with
    | some a => .ok a
    | none => .error .fault

/-- `dsp->d_cur[i] = c`. -/
def Dstr.setCur (d : Dstr) (i : Nat) (c : Byte) : Res Dstr := do
  let a ← store (← d.cur) i (some c)
  match d.dCur with
  | .short => pure { d with dShort := a }
  | .heap => pure { d with dHeap := some a }

/-- The checks of dstr_ok that the types above do not make by themselves. -/
def dstrOk (d : Dstr) : Res Unit := do
  dbug (d.dCap == 0) "%s(): d_cap == 0"
  dbug (d.dLen > d.dCap) "%s(): d_len > d_cap"
  dbug ((← load (← d.cur) d.dLen) != some 0#8) "%s(): d_cur is not nil-terminated"
  if d.dLen ≤ DSTR_SHORT_SIZE then
    dbug (d.dCur != .short) "%s(): d_len <= DSTR_SHORT_SIZE and d_cur != d_short"
    dbug d.dHeap.isSome "%s(): d_len <= DSTR_SHORT_SIZE and d_heap != NULL"
  else
    dbug d.dHeap.isNone "%s(): d_len > DSTR_SHORT_SIZE && d_heap == NULL"
    dbug (d.dCur != .heap) "%s(): d_len > DSTR_SHORT_SIZE and d_cur != d_heap"

def dstrInit : Dstr where
  dCap := DSTR_SHORT_SIZE
  dLen := 0
  dCur := .short
  dHeap := none
  dShort := List.replicate (DSTR_SHORT_SIZE + 1) (some 0#8)

/-- realloc() that succeeds: old bytes kept, new bytes not set to anything. -/
def realloc (p : Option (List Cell)) (size : Nat) : List Cell :=
  let old := (p.getD []).take size
  old ++ List.replicate (size - old.length) none

def strcpy (dst src : List Cell) : Res (List Cell) := do
  let bs ← cstr src
  fill dst (bs.map some ++ [some 0#8])

def dstrGrow (d : Dstr) : Res Dstr := do
  let cap := d.dCap * 2
  let heap := realloc d.dHeap (cap + 1)
  let heap ← if d.dCur = .short then strcpy heap d.dShort else pure heap
  pure { d with dHeap := some heap, dCur := .heap, dCap := cap }

/-- The last three statements of dstr_push. -/
def Dstr.append (d : Dstr) (c : Byte) : Res Dstr := do
  let d ← d.setCur d.dLen c
  let d := { d with dLen := d.dLen + 1 }
  d.setCur d.dLen 0#8

def dstrPush (d : Dstr) (c : Int) : Res Dstr := do
  dstrOk d
  let d ← if d.dLen = d.dCap then dstrGrow d else pure d
  d.append (intToChar c)

/-- PP_FREE leaves d_heap NULL, and dstr_init sets every field again. -/
def dstrClear (d : Dstr) : Res Dstr := do
  dstrOk d
  pure dstrInit

/-- The moved pointer, as the bytes it points to, and the dstr left behind. -/
def dstrMove (d : Dstr) : Res (Option (List Cell) × Dstr) := do
  dstrOk d
  dbug (d.dCur == .short) "dstr_move(): cannot move when d_cur points to d_short"
  pure (d.dHeap, dstrInit)

/-- What the switch to the heap leaves of a full inline array: strcpy stops at
the first NUL, and the bytes after it stay as malloc returned them. -/
def carried (cells : List Cell) : List Cell :=
  (cells.takeWhile (· != some 0#8) ++ some 0#8 :: List.replicate DSTR_SHORT_SIZE none).take
    DSTR_SHORT_SIZE

/-- The content after a push, in terms of the content before it. -/
def pushCell (cells : List Cell) (c : Byte) : List Cell :=
  (if cells.length = DSTR_SHORT_SIZE then carried cells else cells) ++ [some c]

/-- d holds cells, then a terminator: inline while they fit, on the heap
afterwards. The capacity doubles from the size of the inline array. -/
inductive Holds : List Cell → Dstr → Prop
  | short {bs : List Byte} {rest : List Cell}
      (size : bs.length + rest.length = DSTR_SHORT_SIZE) :
      Holds (bs.map some) ⟨DSTR_SHORT_SIZE, bs.length, .short, none,
        bs.map some ++ some 0#8 :: rest⟩
  | heap {cells rest inline : List Cell} {k : Nat}
      (long : DSTR_SHORT_SIZE < cells.length)
      (size : cells.length + rest.length = DSTR_SHORT_SIZE * 2 ^ (k + 1)) :
      Holds cells ⟨DSTR_SHORT_SIZE * 2 ^ (k + 1), cells.length, .heap,
        some (cells ++ some 0#8 :: rest), inline⟩

theorem holds_init : Holds [] dstrInit :=
  @Holds.short [] (List.replicate DSTR_SHORT_SIZE (some 0#8)) (by simp)

theorem Holds.dLen (h : Holds cells d) : d.dLen = cells.length := by
  cases h with
  | short => simp
  | heap => rfl

/-- The array d_cur points into starts with the content and its terminator. -/
theorem Holds.cur (h : Holds cells d) : ∃ rest, d.cur = .ok (cells ++ some 0#8 :: rest) := by
  cases h with
  | short => exact ⟨_, rfl⟩
  | heap => exact ⟨_, rfl⟩

/-- The inline array is in use exactly while the content fits it. -/
theorem Holds.short_iff (h : Holds cells d) :
    d.dCur = .short ↔ cells.length ≤ DSTR_SHORT_SIZE := by
  cases h with
  | short size => simp; omega
  | heap long => simp; omega

theorem Holds.ok (h : Holds cells d) : dstrOk d = .ok () := by
  cases h with
  | @short bs rest size =>
    have hl : bs.length ≤ DSTR_SHORT_SIZE := by omega
    have hc : ¬ DSTR_SHORT_SIZE < bs.length := by omega
    have ht : load (bs.map some ++ some 0#8 :: rest) bs.length = .ok (some 0#8) :=
      load_at _ _ _ rfl (by simp)
    have hz : (DSTR_SHORT_SIZE == 0) = false := rfl
    simp [dstrOk, Dstr.cur, ht, hl, hc, hz]
  | @heap cells rest inline k long size =>
    have hl : ¬ cells.length ≤ DSTR_SHORT_SIZE := by omega
    have hc : ¬ DSTR_SHORT_SIZE * 2 ^ (k + 1) < cells.length := by omega
    have hz : (DSTR_SHORT_SIZE * 2 ^ (k + 1) == 0) = false := by
      apply beq_false_of_ne
      omega
    simp [dstrOk, Dstr.cur, hl, hc, hz]

theorem append_short {cells rest : List Cell} {x y : Cell} (cap : Nat) (c : Byte) :
    Dstr.append ⟨cap, cells.length, .short, none, cells ++ x :: y :: rest⟩ c =
      .ok ⟨cap, cells.length + 1, .short, none, (cells ++ [some c]) ++ some 0#8 :: rest⟩ := by
  have h1 : store (cells ++ x :: y :: rest) cells.length (some c) =
      .ok (cells ++ some c :: y :: rest) := store_append cells _ x (some c)
  have h2 : store (cells ++ some c :: y :: rest) (cells.length + 1) (some 0#8) =
      .ok ((cells ++ [some c]) ++ some 0#8 :: rest) :=
    store_at (cells ++ [some c]) rest y (some 0#8) (by simp) (by simp)
  simp only [Dstr.append, Dstr.setCur, Dstr.cur, ok_bind, pure_ok, h1, h2]

theorem append_heap {cells rest inline : List Cell} {x y : Cell} (cap : Nat) (c : Byte) :
    Dstr.append ⟨cap, cells.length, .heap, some (cells ++ x :: y :: rest), inline⟩ c =
      .ok ⟨cap, cells.length + 1, .heap,
        some ((cells ++ [some c]) ++ some 0#8 :: rest), inline⟩ := by
  have h1 : store (cells ++ x :: y :: rest) cells.length (some c) =
      .ok (cells ++ some c :: y :: rest) := store_append cells _ x (some c)
  have h2 : store (cells ++ some c :: y :: rest) (cells.length + 1) (some 0#8) =
      .ok ((cells ++ [some c]) ++ some 0#8 :: rest) :=
    store_at (cells ++ [some c]) rest y (some 0#8) (by simp) (by simp)
  simp only [Dstr.append, Dstr.setCur, Dstr.cur, ok_bind, pure_ok, h1, h2]

theorem carried_length (cells : List Cell) : (carried cells).length = DSTR_SHORT_SIZE := by
  simp [carried]
  omega

/-- The switch from a full inline array to the heap. -/
theorem grow_short {bs : List Byte} (hb : bs.length = DSTR_SHORT_SIZE) :
    ∃ rest x y, dstrGrow ⟨DSTR_SHORT_SIZE, bs.length, .short, none,
        bs.map some ++ [some 0#8]⟩ =
      .ok ⟨DSTR_SHORT_SIZE * 2 ^ 1, bs.length, .heap,
        some (carried (bs.map some) ++ x :: y :: rest), bs.map some ++ [some 0#8]⟩ ∧
      DSTR_SHORT_SIZE + 1 + rest.length = DSTR_SHORT_SIZE * 2 ^ 1 := by
  have hs : DSTR_SHORT_SIZE = 31 := rfl
  let p := bs.takeWhile (· != 0#8)
  have hp : p.length ≤ DSTR_SHORT_SIZE := hb ▸ (List.takeWhile_sublist _).length_le
  -- the bytes strcpy writes, and the rest of the fresh allocation after them
  let whole := p.map some ++ some 0#8 :: List.replicate DSTR_SHORT_SIZE none
  let tail : List Cell := List.replicate (DSTR_SHORT_SIZE - p.length) none
  have hwhole : carried (bs.map some) = whole.take DSTR_SHORT_SIZE := by
    simp [carried, whole, p, List.takeWhile_map, Function.comp_def, bne]
  have hheap : fill (List.replicate (DSTR_SHORT_SIZE * 2 + 1) none) (p.map some ++ [some 0#8]) =
      .ok (whole ++ tail) := by
    have he : DSTR_SHORT_SIZE * 2 + 1 - (p.length + 1) =
        DSTR_SHORT_SIZE + (DSTR_SHORT_SIZE - p.length) := by omega
    have hf : p.length ≤ DSTR_SHORT_SIZE * 2 := by omega
    simp [fill, hf, he, whole, tail]
  have hlen : (whole ++ tail).length = 63 := by
    simp [whole, tail, hs] at hp ⊢
    omega
  have hsplit : whole ++ tail = carried (bs.map some) ++ (whole ++ tail).drop DSTR_SHORT_SIZE := by
    have hw : DSTR_SHORT_SIZE ≤ whole.length := by simp [whole]; omega
    have htake : (whole ++ tail).take DSTR_SHORT_SIZE = whole.take DSTR_SHORT_SIZE :=
      List.take_append_of_le_length hw
    rw [hwhole, ← htake, List.take_append_drop]
  match hd : (whole ++ tail).drop DSTR_SHORT_SIZE with
  | x :: y :: rest =>
    refine ⟨rest, x, y, ?_, ?_⟩
    · rw [← hd, ← hsplit]
      have hr : realloc none (DSTR_SHORT_SIZE * 2 + 1) =
          List.replicate (DSTR_SHORT_SIZE * 2 + 1) none := by simp [realloc]
      simp only [dstrGrow, hr, strcpy, cstr_take, hheap, ok_bind, ↓reduceIte, pure_ok, p,
        Nat.pow_one]
    · have := congrArg List.length hd
      simp [hlen, hs] at this ⊢
      omega
  | [_] | [] =>
    have := congrArg List.length hd
    simp [hlen, hs] at this

/-- A doubling on the heap keeps every byte. -/
theorem grow_heap {cells inline : List Cell} {cap : Nat} (hc : cells.length = cap)
    (hp : 0 < cap) :
    dstrGrow ⟨cap, cells.length, .heap, some (cells ++ [some 0#8]), inline⟩ =
      .ok ⟨cap * 2, cells.length, .heap,
        some (cells ++ some 0#8 :: none :: List.replicate (cap - 1) none), inline⟩ := by
  subst hc
  have hr : realloc (some (cells ++ [some 0#8])) (cells.length * 2 + 1) =
      cells ++ some 0#8 :: none :: List.replicate (cells.length - 1) none := by
    have ht : (cells ++ [some 0#8]).take (cells.length * 2 + 1) = cells ++ [some 0#8] :=
      List.take_of_length_le (by simp; omega)
    have hn : cells.length * 2 + 1 - (cells.length + 1) = cells.length - 1 + 1 := by omega
    simp [realloc, ht, hn, List.replicate_succ]
  simp [dstrGrow, hr]

theorem push_full {d d' d'' : Dstr} (ho : dstrOk d = .ok ()) (hf : d.dLen = d.dCap)
    (hg : dstrGrow d = .ok d') (ha : d'.append (intToChar c) = .ok d'') :
    dstrPush d c = .ok d'' := by
  simp only [dstrPush, ho, hf, hg, ha, ↓reduceIte, ok_bind]

theorem push_room {d d' : Dstr} (ho : dstrOk d = .ok ()) (hf : d.dLen ≠ d.dCap)
    (ha : d.append (intToChar c) = .ok d') : dstrPush d c = .ok d' := by
  simp only [dstrPush, ho, hf, ha, ↓reduceIte, ok_bind, pure_ok]

/-- dstr_push appends one character: in place while there is room, after a
doubling otherwise. Only the switch out of the inline array can lose bytes. -/
theorem Holds.push (h : Holds cells d) (c : Int) :
    ∃ d', dstrPush d c = .ok d' ∧ Holds (pushCell cells (intToChar c)) d' := by
  have hok := h.ok
  cases h with
  | @short bs rest size =>
    cases rest with
    | cons r rest =>
      have hne : bs.length ≠ DSTR_SHORT_SIZE := by simp at size; omega
      have happ := @append_short (bs.map some) rest (some 0#8) r
        DSTR_SHORT_SIZE (intToChar c)
      simp only [List.length_map] at happ
      refine ⟨_, push_room hok hne happ, ?_⟩
      have hs : (bs ++ [intToChar c]).length + rest.length = DSTR_SHORT_SIZE := by
        simp at size ⊢
        omega
      simpa [pushCell, hne] using Holds.short hs
    | nil =>
      have hb : bs.length = DSTR_SHORT_SIZE := by simpa using size
      obtain ⟨rest, x, y, hg, hsize⟩ := grow_short hb
      have hcl := carried_length (bs.map some)
      have happ := @append_heap (carried (bs.map some)) rest (bs.map some ++ [some 0#8]) x y
        (DSTR_SHORT_SIZE * 2 ^ 1) (intToChar c)
      simp only [hcl.trans hb.symm] at happ
      refine ⟨_, push_full hok hb hg happ, ?_⟩
      have hlong : DSTR_SHORT_SIZE <
          (carried (bs.map some) ++ [some (intToChar c)]).length := by simp [hcl]
      have hs : (carried (bs.map some) ++ [some (intToChar c)]).length + rest.length =
          DSTR_SHORT_SIZE * 2 ^ (0 + 1) := by simp [hcl] at hsize ⊢; omega
      simpa [pushCell, hb, hcl] using @Holds.heap _ _ (bs.map some ++ [some 0#8]) _ hlong hs
  | @heap cells rest inline k long size =>
    have hne : cells.length ≠ DSTR_SHORT_SIZE := by omega
    have hlong : DSTR_SHORT_SIZE < (cells ++ [some (intToChar c)]).length := by simp; omega
    cases rest with
    | cons r rest =>
      have hcap : cells.length ≠ DSTR_SHORT_SIZE * 2 ^ (k + 1) := by simp at size; omega
      have happ := @append_heap cells rest inline (some 0#8) r
        (DSTR_SHORT_SIZE * 2 ^ (k + 1)) (intToChar c)
      refine ⟨_, push_room hok hcap happ, ?_⟩
      have hs : (cells ++ [some (intToChar c)]).length + rest.length =
          DSTR_SHORT_SIZE * 2 ^ (k + 1) := by simp at size ⊢; omega
      simpa [pushCell, hne] using @Holds.heap _ _ inline _ hlong hs
    | nil =>
      have hcap : cells.length = DSTR_SHORT_SIZE * 2 ^ (k + 1) := by simpa using size
      have hg := @grow_heap cells inline _ hcap (by omega)
      have happ := @append_heap cells
        (List.replicate (DSTR_SHORT_SIZE * 2 ^ (k + 1) - 1) none) inline (some 0#8) none
        (DSTR_SHORT_SIZE * 2 ^ (k + 1) * 2) (intToChar c)
      refine ⟨_, push_full hok hcap hg happ, ?_⟩
      have hpow : DSTR_SHORT_SIZE * 2 ^ (k + 1) * 2 = DSTR_SHORT_SIZE * 2 ^ (k + 1 + 1) := by
        rw [Nat.pow_succ 2 (k + 1), Nat.mul_assoc]
      have hs : (cells ++ [some (intToChar c)]).length +
          (List.replicate (DSTR_SHORT_SIZE * 2 ^ (k + 1) - 1) (none : Cell)).length =
          DSTR_SHORT_SIZE * 2 ^ (k + 1 + 1) := by
        rw [← hpow]
        simp
        omega
      have hh := @Holds.heap _ _ inline _ hlong hs
      rw [← hpow] at hh
      rw [pushCell, if_neg hne]
      simpa using hh

end Mepl
