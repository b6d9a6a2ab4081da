import Mathlib.Data.List.Nodup
import Mathlib.Data.List.Perm.Basic
import Mepl.C.Machine

namespace Mepl

/-- What SLAB_TYPE_DEF is given, and where the pool is. SIZE is an int. -/
structure SlabType where
  SIZE : Nat
  sizeofT : Nat
  pool : Nat
  sized : 0 < sizeofT
deriving DecidableEq, Repr

/-- free[], and the place of fp in it. -/
structure SlabStack where
  free : List Nat
  fp : Nat
deriving DecidableEq, Repr

/-- &pool[i] -/
def SlabType.elem (t : SlabType) (i : Nat) : Nat := t.pool + i * t.sizeofT

def SlabType.elems (t : SlabType) : List Nat := (List.range t.SIZE).map t.elem

/-- The rounds of do_init from i on. -/
def doSlabInitFrom (t : SlabType) (sp : SlabStack) : Nat → Nat → Res SlabStack
  | 0, _ => pure sp
  | n + 1, i => do
    let free ← store sp.free i (t.elem i)
    doSlabInitFrom t { sp with free } n (i + 1)

def doSlabInit (t : SlabType) (sp : SlabStack) : Res SlabStack := do
  let sp ← doSlabInitFrom t sp t.SIZE 0
  pure { sp with fp := t.SIZE }

def doSlabGet (sp : SlabStack) : Res (SlabStack × Nat) :=
  if sp.fp = 0 then .error .fault
  else do
    let fp := sp.fp - 1
    let p ← load sp.free fp
    pure ({ sp with fp }, p)

def doSlabMine (t : SlabType) (p : Nat) : Bool :=
  t.pool ≤ p && p < t.pool + t.SIZE * t.sizeofT

/-- The caller's pointer is NULL afterwards. -/
def doSlabPut (sp : SlabStack) (p : Nat) : Res SlabStack := do
  let free ← store sp.free sp.fp p
  pure { free, fp := sp.fp + 1 }

def doSlabFull (t : SlabType) (sp : SlabStack) : Bool := sp.fp == t.SIZE

def doSlabEmpty (sp : SlabStack) : Bool := sp.fp == 0

/-- The states of all runs after do_init, whatever the stack held before, with
the live pointers. -/
inductive SlabRuns (t : SlabType) : SlabStack → List Nat → Prop
  | init {sp sp' : SlabStack} (array : sp.free.length = t.SIZE)
      (call : doSlabInit t sp = .ok sp') : SlabRuns t sp' []
  | get {sp sp' : SlabStack} {live : List Nat} {p : Nat} (run : SlabRuns t sp live)
      (avail : doSlabEmpty sp = false) (call : doSlabGet sp = .ok (sp', p)) :
      SlabRuns t sp' (p :: live)
  | put {sp sp' : SlabStack} {live : List Nat} {p : Nat} (run : SlabRuns t sp live)
      (owned : p ∈ live) (call : doSlabPut sp p = .ok sp') : SlabRuns t sp' (live.erase p)

/-- The free pointers and the live ones are the pool, each element once. -/
structure SlabConserved (t : SlabType) (sp : SlabStack) (live : List Nat) : Prop where
  array : sp.free.length = t.SIZE
  pool : (sp.free.take sp.fp ++ live).Perm t.elems
  fp : sp.fp ≤ t.SIZE

section
variable {t : SlabType} {sp sp' : SlabStack} {live : List Nat} {p : Nat}

theorem slab_elems_nodup (t : SlabType) : t.elems.Nodup := by
  refine List.nodup_range.map (fun i j hij => ?_)
  simp only [SlabType.elem, Nat.add_left_cancel_iff] at hij
  exact Nat.eq_of_mul_eq_mul_right t.sized hij

theorem slab_elems_mine (hp : p ∈ t.elems) : doSlabMine t p = true := by
  obtain ⟨i, hi, rfl⟩ := List.mem_map.mp hp
  have hlt := Nat.mul_lt_mul_of_pos_right (List.mem_range.mp hi) t.sized
  rw [doSlabMine, SlabType.elem, Bool.and_eq_true, decide_eq_true_eq, decide_eq_true_eq]
  omega

/-- Each round adds one element to those at the start of free[]. -/
theorem slab_init_from {n i : Nat} (harray : sp.free.length = t.SIZE) (hn : i + n = t.SIZE)
    (hdone : sp.free.take i = (List.range i).map t.elem) :
    ∃ sp', doSlabInitFrom t sp n i = .ok sp' ∧ sp'.free = t.elems := by
  induction n generalizing sp i with
  | zero =>
    refine ⟨sp, rfl, ?_⟩
    rw [Nat.add_zero] at hn
    rw [hn, ← harray, List.take_length, harray] at hdone
    exact hdone
  | succ n ih =>
    have hlt : i < sp.free.length := by omega
    rw [doSlabInitFrom, store_lt hlt, ok_bind]
    apply ih
    · rw [List.length_set]
      exact harray
    · omega
    · rw [List.range_succ, List.map_append, List.map_singleton, ← hdone,
        List.take_succ_eq_append_getElem (by rw [List.length_set]; exact hlt),
        List.take_set_of_le (Nat.le_refl i), List.getElem_set_self]

theorem slab_init_conserved (harray : sp.free.length = t.SIZE) :
    ∃ sp', doSlabInit t sp = .ok sp' ∧ SlabConserved t sp' [] := by
  obtain ⟨sp', hrun, hfree⟩ := slab_init_from harray (Nat.zero_add _) rfl
  have hlen : sp'.free.length = t.SIZE := by
    rw [hfree]
    simp [SlabType.elems]
  refine ⟨{ sp' with fp := t.SIZE }, ?_, hlen, ?_, Nat.le_refl _⟩
  · simp [doSlabInit, hrun]
  · rw [List.append_nil, ← hlen, List.take_length, hfree]

theorem SlabConserved.get (h : SlabConserved t sp live) (havail : doSlabEmpty sp = false) :
    ∃ sp' p, doSlabGet sp = .ok (sp', p) ∧ SlabConserved t sp' (p :: live) := by
  have hne : sp.fp ≠ 0 := by
    intro hz
    simp [doSlabEmpty, hz] at havail
  have hlt : sp.fp - 1 < sp.free.length := by
    rw [h.array]
    have := h.fp
    omega
  refine ⟨{ sp with fp := sp.fp - 1 }, sp.free[sp.fp - 1], ?_, h.array, ?_, ?_⟩
  · simp [doSlabGet, hne, load_lt hlt]
  · have htake := List.take_succ_eq_append_getElem hlt
    rw [Nat.sub_add_cancel (Nat.one_le_iff_ne_zero.mpr hne)] at htake
    have hpool := h.pool
    rw [htake, List.append_assoc] at hpool
    exact hpool
  · have := h.fp
    simp only
    omega

theorem SlabConserved.put (h : SlabConserved t sp live) (hp : p ∈ live) :
    ∃ sp', doSlabPut sp p = .ok sp' ∧ SlabConserved t sp' (live.erase p) := by
  have hcount := h.pool.length_eq
  have hpos := List.length_pos_of_mem hp
  have hfp := h.fp
  simp only [List.length_append, List.length_take, SlabType.elems, List.length_map,
    List.length_range, h.array] at hcount
  have hlt : sp.fp < sp.free.length := by
    rw [h.array]
    omega
  refine ⟨⟨sp.free.set sp.fp p, sp.fp + 1⟩, ?_, ?_, ?_, ?_⟩
  · simp [doSlabPut, store_lt hlt]
  · rw [List.length_set]
    exact h.array
  · simp only
    rw [List.take_succ_eq_append_getElem (by rw [List.length_set]; exact hlt),
      List.take_set_of_le (Nat.le_refl _), List.getElem_set_self, List.append_assoc]
    exact ((List.perm_cons_erase hp).symm.append_left _).trans h.pool
  · simp only
    omega

theorem slab_runs_conserved (h : SlabRuns t sp live) : SlabConserved t sp live := by
  induction h with
  | init array call =>
    obtain ⟨sp₁, hrun, hinv⟩ := slab_init_conserved array
    rw [hrun] at call
    cases call
    exact hinv
  | get run avail call ih =>
    obtain ⟨sp₁, p₁, hrun, hinv⟩ := ih.get avail
    rw [hrun] at call
    cases call
    exact hinv
  | put run owned call ih =>
    obtain ⟨sp₁, hrun, hinv⟩ := ih.put owned
    rw [hrun] at call
    cases call
    exact hinv

theorem SlabConserved.nodup (h : SlabConserved t sp live) :
    (sp.free.take sp.fp ++ live).Nodup :=
  h.pool.nodup_iff.mpr (slab_elems_nodup t)

theorem SlabConserved.perm {live' : List Nat} (h : SlabConserved t sp live)
    (hp : live.Perm live') : SlabConserved t sp live' :=
  ⟨h.array, (hp.symm.append_left _).trans h.pool, h.fp⟩

/-- The free pointers and the live ones make up SIZE. -/
theorem SlabConserved.count (h : SlabConserved t sp live) : sp.fp + live.length = t.SIZE := by
  have hcount := h.pool.length_eq
  have hfp := h.fp
  simp only [List.length_append, List.length_take, SlabType.elems, List.length_map,
    List.length_range, h.array] at hcount
  omega

theorem SlabConserved.full_iff (h : SlabConserved t sp live) :
    doSlabFull t sp = true ↔ live = [] := by
  have hcount := h.count
  rw [doSlabFull, beq_iff_eq, ← List.length_eq_zero_iff]
  omega

theorem SlabConserved.empty_iff (h : SlabConserved t sp live) :
    doSlabEmpty sp = true ↔ live.Perm t.elems := by
  rw [doSlabEmpty, beq_iff_eq]
  constructor
  · intro hz
    have hpool := h.pool
    rw [hz, List.take_zero, List.nil_append] at hpool
    exact hpool
  · intro hall
    have hcount := h.count
    have hlen := hall.length_eq
    simp only [SlabType.elems, List.length_map, List.length_range] at hlen
    omega

/-- In every state of every run: the pool is conserved, get hands out a pointer
of its own that is not live, put takes a live one back, and full and empty say
whether none or all are live. -/
theorem slab_stack_conserved (h : SlabRuns t sp live) :
    SlabConserved t sp live ∧
    (doSlabEmpty sp = false → ∃ sp' p, doSlabGet sp = .ok (sp', p) ∧ p ∉ live ∧
      doSlabMine t p = true) ∧
    (∀ p ∈ live, ∃ sp', doSlabPut sp p = .ok sp') ∧
    (doSlabFull t sp = true ↔ live = []) ∧ (doSlabEmpty sp = true ↔ live.Perm t.elems) := by
  have hinv := slab_runs_conserved h
  refine ⟨hinv, ?_, ?_, hinv.full_iff, hinv.empty_iff⟩
  · intro havail
    obtain ⟨sp', p, hrun, hinv'⟩ := hinv.get havail
    have hlive := (List.nodup_append.mp hinv'.nodup).2.1
    refine ⟨sp', p, hrun, (List.nodup_cons.mp hlive).1, slab_elems_mine ?_⟩
    apply hinv'.pool.subset
    exact List.mem_append_right _ List.mem_cons_self
  · intro p hp
    obtain ⟨sp', hrun, -⟩ := hinv.put hp
    exact ⟨sp', hrun⟩

end

/-- Both of two elements of 16 bytes handed out, and the first of them put back. -/
theorem slab_stack_two : ∃ sp, SlabRuns ⟨2, 16, 0x1000, Nat.succ_pos 15⟩ sp [0x1000] ∧
    SlabConserved ⟨2, 16, 0x1000, Nat.succ_pos 15⟩ sp [0x1000] ∧
    doSlabEmpty sp = false ∧ (∃ sp' p, doSlabGet sp = .ok (sp', p) ∧ p ∉ [0x1000] ∧
      doSlabMine ⟨2, 16, 0x1000, Nat.succ_pos 15⟩ p = true) := by
  have hinit := @SlabRuns.init ⟨2, 16, 0x1000, Nat.succ_pos 15⟩ ⟨[0, 0], 0⟩ _ rfl rfl
  have hboth : SlabRuns _ _ [0x1000, 0x1010] := (hinit.get rfl rfl).get rfl rfl
  have hback := hboth.put (p := 0x1010) (by decide) rfl
  obtain ⟨hconserved, hget, -⟩ := slab_stack_conserved hback
  exact ⟨_, hback, hconserved, rfl, hget rfl⟩

end Mepl
