import Mepl.Ast.Tree

namespace Mepl

abbrev RegName := List Byte

def REG_COUNT : Nat := 3

/-- "r0", "r1", "r2" -/
def REGS : List RegName := [[114#8, 48#8], [114#8, 49#8], [114#8, 50#8]]

structure Reglist where
  /-- r_p - r_regs -/
  rP : Nat
  rRegs : List RegName
deriving DecidableEq, Repr

def reglistInit : Reglist where
  rP := REG_COUNT
  rRegs := REGS

/-- The place in r_regs that the returned pointer points to. -/
def reglistGet (r : Reglist) : Res (Nat × Reglist) :=
  if r.rP = 0 then throw (.die "reglist_get: stack underflow")
  else pure (r.rP - 1, { r with rP := r.rP - 1 })

/-- A place too; the name there is not read yet, and may be past the end. -/
def reglistLast (r : Reglist) : Res Nat :=
  if r.rP = REG_COUNT then throw (.die "reglist_last: no allocated registers")
  else pure (r.rP + 1)

/-- The name is copied from the place reg points to. -/
def reglistPut (r : Reglist) (reg : Nat) : Res Reglist :=
  if r.rP = REG_COUNT then throw (.die "reglist_put: stack overflow")
  else do
    let name ← load r.rRegs reg
    let regs ← store r.rRegs r.rP name
    pure { rP := r.rP + 1, rRegs := regs }

inductive Instr (V : Type) where
  | mov (r : RegName) (p : Prim V)
  | op (t : BinOpType) (d s : RegName)
deriving DecidableEq, Repr

/-- The visitor, with the instructions printed to agv_fp. -/
structure GenVisitor (V : Type) where
  agvReg : Reglist
  agvFp : List (Instr V)
deriving DecidableEq, Repr

def genVisitorInit (V : Type) : GenVisitor V where
  agvReg := reglistInit
  agvFp := []

section
variable {V : Type}

def GenVisitor.emit (gv : GenVisitor V) (i : Instr V) : GenVisitor V :=
  { gv with agvFp := gv.agvFp ++ [i] }

def primGen (p : Prim V) (gv : GenVisitor V) : Res (GenVisitor V) := do
  let (dst, rp) ← reglistGet gv.agvReg
  let name ← load rp.rRegs dst
  pure (GenVisitor.emit { gv with agvReg := rp } (.mov name p))

/-- bin_op_gen after its two visits. -/
def binOpEmit (t : BinOpType) (gv : GenVisitor V) : Res (GenVisitor V) := do
  let src ← reglistLast gv.agvReg
  let (dst, rp) ← reglistGet gv.agvReg
  let d ← load rp.rRegs dst
  let s ← load rp.rRegs src
  let gv := GenVisitor.emit { gv with agvReg := rp } (.op t d s)
  let rp ← reglistPut gv.agvReg src
  pure { gv with agvReg := rp }

/-- a_visit: av_var_def is never set in a gen visitor. -/
def genVisit : Ast V → GenVisitor V → Res (GenVisitor V)
  | .binOp t l r, gv => do
    let gv ← genVisit l gv
    let gv ← genVisit r gv
    binOpEmit t gv
  | .prim p, gv => primGen p gv
  | .varDef _ _, _ => .error .fault
  | .varDefInit _ _ _, _ => .error .fault

end

/-- What primitives and operators mean to a machine whose registers hold X. -/
structure Interp (V X : Type) where
  lit : Prim V → X
  op : BinOpType → X → X → X

section
variable {V X : Type}

/-- The value of an expression; var_def nodes have none. -/
def Interp.value (I : Interp V X) : Ast V → Option X
  | .binOp t l r => do
    let x ← I.value l
    let y ← I.value r
    pure (I.op t x y)
  | .prim p => some (I.lit p)
  | .varDef _ _ => none
  | .varDefInit _ _ _ => none

def Interp.exec (I : Interp V X) (m : RegName → X) : Instr V → RegName → X
  | .mov r p => fun q => if q = r then I.lit p else m q
  | .op t d s => fun q => if q = d then I.op t (m d) (m s) else m q

def Interp.run (I : Interp V X) (m : RegName → X) (code : List (Instr V)) : RegName → X :=
  code.foldl I.exec m

end

/-- The names that reglist_get can still give. -/
def Reglist.free (r : Reglist) : List RegName := r.rRegs.take r.rP

/-- The reglist is in bounds; its free names are distinct and none is taken. -/
structure Reglist.Ok (taken : List RegName) (r : Reglist) : Prop where
  size : r.rRegs.length = REG_COUNT
  top : r.rP ≤ REG_COUNT
  nodup : r.free.Nodup
  disjoint : ∀ q ∈ r.free, q ∉ taken

theorem reglist_init_ok : reglistInit.Ok [] where
  size := rfl
  top := Nat.le_refl _
  nodup := by decide
  disjoint := by simp

/-- The code of t leaves its value in the one register newly taken, keeps the
registers taken before, and leaves the reglist in order. -/
structure GenPreserves {V : Type} (taken : List RegName) (t : Ast V) (gv gv' : GenVisitor V) :
    Prop where
  result : ∃ dst code, gv'.agvFp = gv.agvFp ++ code ∧
    gv.agvReg.free.Perm (dst :: gv'.agvReg.free) ∧ gv'.agvReg.Ok (dst :: taken) ∧
    ∀ (X : Type) (I : Interp V X) (m : RegName → X),
      I.value t = some (I.run m code dst) ∧ ∀ q ∈ taken, I.run m code q = m q

section
variable {V : Type}

theorem reglistGet_ok {r r' : Reglist} {i : Nat} (h : reglistGet r = .ok (i, r')) :
    r.rP = i + 1 ∧ r' = { r with rP := i } := by
  unfold reglistGet at h
  split at h
  · cases h
  · cases h
    exact ⟨by omega, rfl⟩

theorem reglistPut_ok {r r' : Reglist} {reg : Nat} (h : reglistPut r reg = .ok r') :
    r'.rP = r.rP + 1 ∧ r'.rRegs.length = r.rRegs.length := by
  unfold reglistPut at h
  split at h
  · cases h
  · simp only [bind_ok] at h
    obtain ⟨name, _, regs, hstore, h⟩ := h
    cases h
    exact ⟨rfl, store_length hstore⟩

theorem primGen_ok {p : Prim V} {gv gv' : GenVisitor V} (h : primGen p gv = .ok gv') :
    ∃ i name, gv.agvReg.rP = i + 1 ∧ gv.agvReg.rRegs[i]? = some name ∧
      gv' = ⟨{ gv.agvReg with rP := i }, gv.agvFp ++ [.mov name p]⟩ := by
  rw [primGen, bind_ok] at h
  obtain ⟨⟨i, rp⟩, hget, h⟩ := h
  obtain ⟨hp, rfl⟩ := reglistGet_ok hget
  rw [bind_ok] at h
  obtain ⟨name, hload, h⟩ := h
  cases h
  exact ⟨i, name, hp, load_ok hload, rfl⟩

/-- bin_op_gen gives back one register for the one it takes. -/
theorem binOpEmit_ok {t : BinOpType} {gv gv' : GenVisitor V} (h : binOpEmit t gv = .ok gv') :
    gv'.agvReg.rP = gv.agvReg.rP ∧ gv'.agvReg.rRegs.length = gv.agvReg.rRegs.length := by
  rw [binOpEmit, bind_ok] at h
  obtain ⟨src, _, h⟩ := h
  rw [bind_ok] at h
  obtain ⟨⟨i, rp⟩, hget, h⟩ := h
  obtain ⟨hp, rfl⟩ := reglistGet_ok hget
  simp only [bind_ok] at h
  obtain ⟨d, _, s, _, rp', hput, h⟩ := h
  obtain ⟨hrp, hrs⟩ := reglistPut_ok hput
  cases h
  exact ⟨hrp.trans hp.symm, hrs⟩

/-- How many registers a visit takes at least. -/
def Ast.takes : Ast V → Nat
  | .binOp _ _ _ => 2
  | _ => 1

theorem Ast.takes_pos (t : Ast V) : 1 ≤ t.takes := by
  cases t <;> simp [Ast.takes]

/-- A visit that returns has moved r_p down, past two registers or more for a
bin_op. -/
theorem genVisit_ok {t : Ast V} {gv gv' : GenVisitor V} (h : genVisit t gv = .ok gv') :
    gv'.agvReg.rP + t.takes ≤ gv.agvReg.rP ∧
      gv'.agvReg.rRegs.length = gv.agvReg.rRegs.length := by
  induction t generalizing gv gv' with
  | binOp t l r ihl ihr =>
    rw [genVisit, bind_ok] at h
    obtain ⟨gl, hl, h⟩ := h
    rw [bind_ok] at h
    obtain ⟨gr, hr, h⟩ := h
    obtain ⟨hlp, hls⟩ := ihl hl
    obtain ⟨hrp, hrs⟩ := ihr hr
    obtain ⟨hep, hes⟩ := binOpEmit_ok h
    have hl1 := l.takes_pos
    have hr1 := r.takes_pos
    exact ⟨by simp only [Ast.takes]; omega, by omega⟩
  | prim p =>
    obtain ⟨i, name, hp, _, rfl⟩ := primGen_ok h
    exact ⟨by simp [Ast.takes, hp], rfl⟩
  | varDef => cases h
  | varDefInit => cases h

/-- With two registers taken, bin_op_gen stays inside r_regs. -/
theorem binOpEmit_no_fault {t : BinOpType} {gv : GenVisitor V}
    (hsize : gv.agvReg.rRegs.length = REG_COUNT) (htop : gv.agvReg.rP + 2 ≤ REG_COUNT) :
    binOpEmit t gv ≠ .error .fault := by
  have hne : gv.agvReg.rP ≠ REG_COUNT := by omega
  have hlast : reglistLast gv.agvReg = .ok (gv.agvReg.rP + 1) := if_neg hne
  simp only [binOpEmit, hlast, ok_bind]
  intro h
  unfold reglistGet at h
  split at h
  · cases h
  · have hput : gv.agvReg.rP - 1 ≠ REG_COUNT := by omega
    have hi : gv.agvReg.rP - 1 < gv.agvReg.rRegs.length := by omega
    have hs : gv.agvReg.rP + 1 < gv.agvReg.rRegs.length := by omega
    simp [load_lt hi, load_lt hs, GenVisitor.emit, reglistPut, hput, store, hi] at h

theorem genVisit_no_fault {t : Ast V} (ht : t.IsExpr) {gv : GenVisitor V}
    (hsize : gv.agvReg.rRegs.length = REG_COUNT) (htop : gv.agvReg.rP ≤ REG_COUNT) :
    genVisit t gv ≠ .error .fault := by
  induction t generalizing gv with
  | binOp t l r ihl ihr =>
    intro h
    rw [genVisit] at h
    cases hl : genVisit l gv with
    | error e =>
      rw [hl, error_bind] at h
      exact ihl ht.1 hsize htop (hl.trans h)
    | ok gl =>
      obtain ⟨hlp, hls⟩ := genVisit_ok hl
      have hl1 := l.takes_pos
      rw [hl, ok_bind] at h
      cases hr : genVisit r gl with
      | error e =>
        rw [hr, error_bind] at h
        exact ihr ht.2 (hls.trans hsize) (by omega) (hr.trans h)
      | ok gr =>
        obtain ⟨hrp, hrs⟩ := genVisit_ok hr
        have hr1 := r.takes_pos
        rw [hr, ok_bind] at h
        exact binOpEmit_no_fault (by omega) (by omega) h
  | prim p =>
    intro h
    simp only [genVisit, primGen, reglistGet] at h
    split at h
    · cases h
    · rename_i hne
      have hi : gv.agvReg.rP - 1 < gv.agvReg.rRegs.length := by omega
      simp [load_lt hi] at h
  | varDef => exact ht.elim
  | varDefInit => exact ht.elim

def Ast.IsPrim : Ast V → Prop
  | .prim _ => True
  | _ => False

theorem free_succ {r : Reglist} {i : Nat} {name : RegName} (hp : r.rP = i + 1)
    (hname : r.rRegs[i]? = some name) : r.free = Reglist.free { r with rP := i } ++ [name] := by
  rw [Reglist.free, hp, List.take_add_one, hname]
  rfl

/-- The code of a single prim is right. -/
theorem prim_preserves {taken : List RegName} {p : Prim V} {gv gv' : GenVisitor V}
    (hok : gv.agvReg.Ok taken) (h : genVisit (.prim p) gv = .ok gv') :
    GenPreserves taken (.prim p) gv gv' := by
  obtain ⟨i, name, hp, hname, rfl⟩ := primGen_ok h
  have hfree := free_succ hp hname
  have hperm : gv.agvReg.free.Perm (name :: Reglist.free { gv.agvReg with rP := i }) := by
    rw [hfree]
    exact List.perm_append_singleton _ _
  have hnodup := hperm.nodup_iff.mp hok.nodup
  have hname : name ∉ taken := hok.disjoint name (hperm.symm.subset List.mem_cons_self)
  refine ⟨name, [.mov name p], rfl, hperm, ?_, ?_⟩
  · constructor
    case size => exact hok.size
    case top =>
      have htop := hok.top
      rw [hp] at htop
      exact Nat.le_of_succ_le htop
    case nodup => exact (List.nodup_cons.mp hnodup).2
    case disjoint =>
      intro q hq hm
      rcases List.mem_cons.mp hm with rfl | hm
      · exact (List.nodup_cons.mp hnodup).1 hq
      · exact hok.disjoint q (hperm.symm.subset (List.mem_cons_of_mem _ hq)) hm
  · intro X I m
    refine ⟨by simp [Interp.value, Interp.run, Interp.exec], fun q hq => ?_⟩
    have hne : q ≠ name := fun he => hname (he ▸ hq)
    simp [Interp.run, Interp.exec, hne]

/-- For every expression and every reglist in order: the visit never leaves
r_regs, and if it returns its code is right exactly for a single prim. -/
theorem gen_preserves_iff {taken : List RegName} {t : Ast V} (ht : t.IsExpr)
    {gv : GenVisitor V} (hok : gv.agvReg.Ok taken) :
    genVisit t gv ≠ .error .fault ∧
      ∀ gv', genVisit t gv = .ok gv' → (GenPreserves taken t gv gv' ↔ t.IsPrim) := by
  refine ⟨genVisit_no_fault ht hok.size hok.top, fun gv' h => ?_⟩
  cases t with
  | binOp t l r =>
    refine iff_of_false ?_ id
    intro hin
    obtain ⟨dst, code, _, hperm, hok', _⟩ := hin
    -- two registers are gone where one should be
    obtain ⟨hp, _⟩ := genVisit_ok h
    have hlen := hperm.length_eq
    have hsize := hok.size
    have hsize' := hok'.size
    have htop := hok.top
    simp only [Reglist.free, List.length_cons, List.length_take, Ast.takes] at hlen hp
    omega
  | prim p => exact iff_of_true (prim_preserves hok h) trivial
  | varDef => exact ht.elim
  | varDefInit => exact ht.elim

theorem gen_preserves_one :
    genVisit (.prim ⟨.int, 1⟩) (genVisitorInit Int) ≠ .error .fault ∧
      ∀ gv', genVisit (.prim ⟨.int, 1⟩) (genVisitorInit Int) = .ok gv' →
        (GenPreserves [] (.prim ⟨.int, 1⟩) (genVisitorInit Int) gv' ↔
          (Ast.prim (⟨.int, 1⟩ : Prim Int)).IsPrim) :=
  gen_preserves_iff (t := .prim ⟨.int, 1⟩) trivial reglist_init_ok

/-- add(1, 2) leaves its value in no register: its code ends in add r0, r2. -/
theorem gen_add_wrong : ∃ gv', genVisit (.binOp .add (.prim ⟨.int, 1⟩) (.prim ⟨.int, 2⟩))
      (genVisitorInit Int) = .ok gv' ∧
    ¬ GenPreserves [] (.binOp .add (.prim ⟨.int, 1⟩) (.prim ⟨.int, 2⟩))
      (genVisitorInit Int) gv' := by
  refine ⟨⟨⟨1, [[114#8, 50#8], [114#8, 49#8], [114#8, 50#8]]⟩, [.mov [114#8, 50#8] ⟨.int, 1⟩,
    .mov [114#8, 49#8] ⟨.int, 2⟩, .op .add [114#8, 48#8] [114#8, 50#8]]⟩, by decide, ?_⟩
  intro hin
  obtain ⟨dst, code, rfl, _, _, hrun⟩ := hin
  -- with integers for values the tree is 3, and the registers hold 1, 2, 1 and 0
  have hvalue := (hrun Int ⟨Prim.val, fun _ x y => x + y⟩ (fun _ => 0)).1
  simp only [Interp.value, Interp.run, Interp.exec, List.foldl_cons, List.foldl_nil] at hvalue
  grind

end

end Mepl
