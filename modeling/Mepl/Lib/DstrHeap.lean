import Mepl.C.Free
import Mepl.Lib.DstrRuns

namespace Mepl

structure DstrMem where
  d : Dstr
  /-- the block that d_heap points to -/
  block : Option Nat
  /-- how many blocks realloc() has made -/
  blocks : Nat
  /-- the blocks that dstr_move gave away -/
  moved : List Nat
  /-- how many characters dstr_grow has copied -/
  copied : Nat

abbrev DstrHeap := Freeing DstrMem Nat

namespace DstrHeap

def init : DstrHeap where
  mem := ⟨dstrInit, none, 0, [], 0⟩
  freed := []

/-- `free(p)`, where p may be NULL. -/
def freePtr (h : DstrHeap) : Option Nat → Res DstrHeap
  | none => pure h
  | some b => h.free b

/-- An access to the array d_cur points into. -/
def useCur (h : DstrHeap) : Res Unit :=
  match h.mem.block with
  | none => pure ()
  | some b => h.use b

/-- realloc() moves what there is to a new block and frees the old one. -/
def dstrGrow (h : DstrHeap) : Res DstrHeap := do
  let h ← freePtr h h.mem.block
  pure { h with mem := { h.mem with
    block := some h.mem.blocks
    blocks := h.mem.blocks + 1
    copied := h.mem.copied + h.mem.d.dLen } }

def dstrPush (h : DstrHeap) (c : Int) : Res DstrHeap := do
  useCur h
  let d ← Mepl.dstrPush h.mem.d c
  let h ← (if h.mem.d.dLen = h.mem.d.dCap then dstrGrow h else pure h)
  pure { h with mem := { h.mem with d := d } }

def dstrClear (h : DstrHeap) : Res DstrHeap := do
  useCur h
  let d ← Mepl.dstrClear h.mem.d
  let h ← freePtr h h.mem.block
  pure { h with mem := { h.mem with d := d, block := none } }

def dstrMove (h : DstrHeap) : Res DstrHeap := do
  useCur h
  let (_, d) ← Mepl.dstrMove h.mem.d
  pure { h with mem := { h.mem with
    d := d, block := none, moved := h.mem.moved ++ h.mem.block.toList } }

/-- dstr_free: all blocks that have been given back then. -/
def dstrFree (h : DstrHeap) : Res (List Nat) := do
  useCur h
  dstrOk h.mem.d
  let h ← freePtr h h.mem.block
  pure h.freed

def step (h : DstrHeap) : DstrOp → Res DstrHeap
  | .push c => dstrPush h c
  | .clear => dstrClear h
  | .move => dstrMove h

end DstrHeap

/-- dstr_init, then the operations. -/
def dstrHeapRun (ops : List DstrOp) : Res DstrHeap := ops.foldlM DstrHeap.step DstrHeap.init

def DstrOp.isPush : DstrOp → Bool
  | .push _ => true
  | _ => false

/-- What the sizes of a dstr become when a character is pushed. -/
structure PushSizes (d d' : Dstr) : Prop where
  len : d'.dLen = d.dLen + 1
  cap : d'.dCap = if d.dLen = d.dCap then d.dCap * 2 else d.dCap
  cur : d'.dCur = if d.dLen = d.dCap then .heap else d.dCur

theorem set_cur_sizes {d d' : Dstr} {i : Nat} {c : Byte} (h : d.setCur i c = .ok d') :
    d'.dLen = d.dLen ∧ d'.dCap = d.dCap ∧ d'.dCur = d.dCur := by
  simp only [Dstr.setCur, bind_ok] at h
  obtain ⟨a, -, b, -, h⟩ := h
  split at h <;> cases h <;> exact ⟨rfl, rfl, rfl⟩

theorem append_sizes {d d' : Dstr} {c : Byte} (h : d.append c = .ok d') :
    d'.dLen = d.dLen + 1 ∧ d'.dCap = d.dCap ∧ d'.dCur = d.dCur := by
  simp only [Dstr.append, bind_ok] at h
  obtain ⟨d1, hset, hend⟩ := h
  obtain ⟨hlen1, hcap1, hcur1⟩ := set_cur_sizes hset
  obtain ⟨hlen, hcap, hcur⟩ := set_cur_sizes hend
  exact ⟨by rw [hlen, hlen1], hcap.trans hcap1, hcur.trans hcur1⟩

theorem grow_sizes {d d' : Dstr} (h : dstrGrow d = .ok d') :
    d'.dLen = d.dLen ∧ d'.dCap = d.dCap * 2 ∧ d'.dCur = .heap := by
  unfold dstrGrow at h
  split at h
  · simp only [bind_ok] at h
    obtain ⟨heap, -, h⟩ := h
    cases h
    exact ⟨rfl, rfl, rfl⟩
  · cases h
    exact ⟨rfl, rfl, rfl⟩

theorem push_sizes {d d' : Dstr} {c : Int} (h : dstrPush d c = .ok d') : PushSizes d d' := by
  rw [dstrPush, bind_ok] at h
  obtain ⟨_, -, h⟩ := h
  split at h
  · rename_i hfull
    obtain ⟨d1, hgrow, h⟩ := bind_ok.mp h
    obtain ⟨hlen1, hcap1, hcur1⟩ := grow_sizes hgrow
    obtain ⟨hlen, hcap, hcur⟩ := append_sizes h
    exact ⟨by rw [hlen, hlen1], by rw [if_pos hfull, hcap, hcap1],
      by rw [if_pos hfull, hcur, hcur1]⟩
  · rename_i hfull
    obtain ⟨hlen, hcap, hcur⟩ := append_sizes h
    exact ⟨hlen, by rw [if_neg hfull, hcap], by rw [if_neg hfull, hcur]⟩

namespace DstrHeap
variable {h h' : DstrHeap} {pushes : Nat} {cells : List Cell}

/-- Every block there was is given back, given away or the one of d_heap; the
characters copied so far are paid for by those pushed, each at most twice. -/
structure Ledger (h : DstrHeap) (pushes : Nat) : Prop where
  holds : ∃ cells, Holds cells h.mem.d
  block : h.mem.block.isSome ↔ h.mem.d.dCur = .heap
  blocks : (h.freed ++ (h.mem.moved ++ h.mem.block.toList)).Perm (List.range h.mem.blocks)
  /-- the array is at least half full, or still d_short -/
  half : h.mem.d.dCap = DSTR_SHORT_SIZE ∨ h.mem.d.dCap < 2 * h.mem.d.dLen
  paid : h.mem.copied + 2 * h.mem.d.dLen + DSTR_SHORT_SIZE ≤ 2 * pushes + h.mem.d.dCap

theorem ledger_init : init.Ledger 0 where
  holds := ⟨[], holds_init⟩
  block := by simp [init, dstrInit]
  blocks := List.Perm.refl _
  half := Or.inl rfl
  paid := Nat.le_refl _

theorem Ledger.nodup (l : h.Ledger pushes) :
    (h.freed ++ (h.mem.moved ++ h.mem.block.toList)).Nodup :=
  l.blocks.nodup_iff.mpr List.nodup_range

theorem Ledger.held (l : h.Ledger pushes) {b : Nat} (hb : h.mem.block = some b) :
    b ∉ h.freed := by
  have hnodup := l.nodup
  rw [hb, List.nodup_append'] at hnodup
  intro hin
  exact hnodup.2.2 hin (List.mem_append_right _ (List.mem_singleton_self b))

theorem Ledger.use (l : h.Ledger pushes) : useCur h = .ok () := by
  unfold useCur
  cases hb : h.mem.block with
  | none => rfl
  | some b => exact Freeing.use_held (l.held hb)

/-- Giving back the block of d_heap. -/
theorem Ledger.free (l : h.Ledger pushes) :
    freePtr h h.mem.block = .ok { h with freed := h.freed ++ h.mem.block.toList } := by
  unfold freePtr
  cases hb : h.mem.block with
  | none => simp
  | some b => exact Freeing.free_held (l.held hb)

theorem Ledger.free_blocks (l : h.Ledger pushes) :
    (h.freed ++ h.mem.block.toList ++ h.mem.moved).Perm (List.range h.mem.blocks) := by
  refine List.Perm.trans ?_ l.blocks
  rw [List.append_assoc]
  exact List.perm_append_comm.append_left _

theorem Ledger.push (l : h.Ledger pushes) (c : Int) :
    ∃ h', dstrPush h c = .ok h' ∧ h'.Ledger (pushes + 1) ∧
      Mepl.dstrPush h.mem.d c = .ok h'.mem.d := by
  obtain ⟨cells, hholds⟩ := l.holds
  obtain ⟨d, hpush, hholds'⟩ := hholds.push c
  have hsizes := push_sizes hpush
  have hlen := hsizes.len
  have hcap := hsizes.cap
  have hcur := hsizes.cur
  have hhalf := l.half
  have hpaid := l.paid
  by_cases hfull : h.mem.d.dLen = h.mem.d.dCap
  · rw [if_pos hfull] at hcap hcur
    refine ⟨⟨⟨d, some h.mem.blocks, h.mem.blocks + 1, h.mem.moved,
      h.mem.copied + h.mem.d.dLen⟩, h.freed ++ h.mem.block.toList⟩, ?_, ?_, hpush⟩
    · rw [dstrPush, l.use, ok_bind, hpush, ok_bind, if_pos hfull, dstrGrow, l.free]
      rfl
    · refine ⟨⟨_, hholds'⟩, by simp [hcur], ?_, Or.inr (by simp only; omega), by simp only; omega⟩
      have hold := l.free_blocks
      simp only [Option.toList_some, ← List.append_assoc]
      rw [List.range_succ]
      exact hold.append_right _
  · rw [if_neg hfull] at hcap hcur
    refine ⟨{ h with mem := { h.mem with d := d } }, ?_, ?_, hpush⟩
    · rw [dstrPush, l.use, ok_bind, hpush, ok_bind, if_neg hfull]
      rfl
    · exact ⟨⟨_, hholds'⟩, by simp only [hcur]; exact l.block, l.blocks,
        by simp only; omega, by simp only; omega⟩

/-- A dstr set to its start again, whoever has its block now. -/
theorem Ledger.reset (l : h.Ledger pushes) (hd : h'.mem.d = dstrInit) (hb : h'.mem.block = none)
    (hblocks : (h'.freed ++ h'.mem.moved).Perm (List.range h'.mem.blocks))
    (hcopied : h'.mem.copied = h.mem.copied) : h'.Ledger pushes where
  holds := ⟨[], hd ▸ holds_init⟩
  block := by simp [hd, hb, dstrInit]
  blocks := by simpa [hb] using hblocks
  half := by
    rw [hd]
    exact Or.inl rfl
  paid := by
    have hhalf := l.half
    have hpaid := l.paid
    rw [hd, hcopied]
    simp only [dstrInit]
    omega

theorem Ledger.clear (l : h.Ledger pushes) : ∃ h', dstrClear h = .ok h' ∧ h'.Ledger pushes ∧
    Mepl.dstrClear h.mem.d = .ok h'.mem.d := by
  obtain ⟨cells, hholds⟩ := l.holds
  have hclear : Mepl.dstrClear h.mem.d = .ok dstrInit := by
    rw [Mepl.dstrClear, hholds.ok]
    rfl
  refine ⟨⟨{ h.mem with d := dstrInit, block := none }, h.freed ++ h.mem.block.toList⟩, ?_,
    l.reset rfl rfl l.free_blocks rfl, hclear⟩
  rw [dstrClear, l.use, ok_bind, hclear, ok_bind, l.free]
  rfl

theorem Ledger.move (l : h.Ledger pushes) (hcur : h.mem.d.dCur ≠ .short) :
    ∃ h' p, dstrMove h = .ok h' ∧ h'.Ledger pushes ∧
      Mepl.dstrMove h.mem.d = .ok (p, h'.mem.d) := by
  obtain ⟨cells, hholds⟩ := l.holds
  have hmove : Mepl.dstrMove h.mem.d = .ok (h.mem.d.dHeap, dstrInit) := by
    have hb : (h.mem.d.dCur == .short) = false := beq_false_of_ne hcur
    simp [Mepl.dstrMove, hholds.ok, hb]
  refine ⟨{ h with mem := { h.mem with
    d := dstrInit, block := none, moved := h.mem.moved ++ h.mem.block.toList } }, _, ?_,
    l.reset rfl rfl l.blocks rfl, hmove⟩
  rw [dstrMove, l.use, ok_bind, hmove]
  rfl

/-- dstr_free gives back all that was not moved out. -/
theorem Ledger.all_free (l : h.Ledger pushes) :
    ∃ freed, dstrFree h = .ok freed ∧ (freed ++ h.mem.moved).Perm (List.range h.mem.blocks) := by
  obtain ⟨cells, hholds⟩ := l.holds
  refine ⟨h.freed ++ h.mem.block.toList, ?_, l.free_blocks⟩
  rw [dstrFree, l.use, ok_bind, hholds.ok, ok_bind, l.free]
  rfl

end DstrHeap

/-- A run keeps the ledger, next to the run without it. -/
theorem dstr_heap_ledger (ops : List DstrOp) (hm : MovesChecked ops) :
    ∃ h p, dstrHeapRun ops = .ok h ∧ h.Ledger (ops.countP DstrOp.isPush) ∧
      dstrRun ops = .ok (p, h.mem.d) := by
  induction ops using List.reverseRecOn with
  | nil => exact ⟨_, none, rfl, DstrHeap.ledger_init, rfl⟩
  | append_singleton ops op ih =>
    obtain ⟨h, p, hheap, l, hrun⟩ := ih hm.prefix
    have hstep : dstrHeapRun (ops ++ [op]) = DstrHeap.step h op := by
      unfold dstrHeapRun at hheap ⊢
      rw [List.foldlM_append, hheap, ok_bind, List.foldlM_cons]
      cases DstrHeap.step h op <;> rfl
    have hplain : dstrRun (ops ++ [op]) = op.run h.mem.d := by
      unfold dstrRun at hrun ⊢
      rw [runOps_append, hrun, ok_bind, runOps]
      cases op.run h.mem.d <;> rfl
    rw [hstep, hplain, List.countP_append]
    cases op with
    | push c =>
      obtain ⟨h', hpush, l', hd⟩ := l.push c
      exact ⟨h', none, hpush, l', by rw [DstrOp.run, hd]; rfl⟩
    | clear =>
      obtain ⟨h', hclear, l', hd⟩ := l.clear
      exact ⟨h', none, hclear, l', by rw [DstrOp.run, hd]; rfl⟩
    | move =>
      obtain ⟨h', p', hmove, l', hd⟩ := l.move (hm ops [] rfl p h.mem.d hrun)
      exact ⟨h', p', hmove, l', hd⟩

/-- A dstr loses no block and gives none back twice: after any run dstr_free
leaves exactly the blocks that were moved out, and at any time at most one
more is there. Growing has copied at most two characters for every one that
was pushed. -/
theorem dstr_heap_released (ops : List DstrOp) (hm : MovesChecked ops) :
    ∃ h freed, dstrHeapRun ops = .ok h ∧ DstrHeap.dstrFree h = .ok freed ∧
      (h.freed ++ (h.mem.moved ++ h.mem.block.toList)).Perm (List.range h.mem.blocks) ∧
      (freed ++ h.mem.moved).Perm (List.range h.mem.blocks) ∧
      h.mem.copied ≤ 2 * ops.countP DstrOp.isPush := by
  obtain ⟨h, p, hrun, l, -⟩ := dstr_heap_ledger ops hm
  obtain ⟨freed, hfree, hblocks⟩ := l.all_free
  have hhalf := l.half
  have hpaid := l.paid
  exact ⟨h, freed, hrun, hfree, l.blocks, hblocks, by omega⟩

theorem dstr_heap_released_moved :
    ∃ h freed, dstrHeapRun (List.replicate 32 (.push 97) ++ [.move]) = .ok h ∧
      DstrHeap.dstrFree h = .ok freed ∧
      (h.freed ++ (h.mem.moved ++ h.mem.block.toList)).Perm (List.range h.mem.blocks) ∧
      (freed ++ h.mem.moved).Perm (List.range h.mem.blocks) ∧
      h.mem.copied ≤ 2 * (List.replicate 32 (DstrOp.push 97) ++ [DstrOp.move]).countP
        DstrOp.isPush :=
  dstr_heap_released _ ((MovesChecked.of_not_mem (by simp)).move (by decide))

end Mepl
