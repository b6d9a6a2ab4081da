import Mathlib.Algebra.Order.Ring.Nat
import Mepl.Ast.Gen

namespace Mepl

section
variable {V : Type}

/-- The a_visit calls of a caller, one tree after the other. -/
def genAll : List (Ast V) → GenVisitor V → Res (GenVisitor V)
  | [], gv => pure gv
  | t :: ts, gv => do
    let gv ← genVisit t gv
    genAll ts gv

/-- How many registers stay taken: one for every prim node. -/
def Ast.prims : Ast V → Nat
  | .binOp _ l r => l.prims + r.prims
  | .prim _ => 1
  | .varDef _ _ => 0
  | .varDefInit _ _ _ => 0

/-- How many registers a visit takes at most at a time. -/
def Ast.registers : Ast V → Nat
  | .binOp _ l r => l.prims + r.prims + 1
  | t => t.prims

def primsAll (ts : List (Ast V)) : Nat := (ts.map Ast.prims).sum

def registersAll : List (Ast V) → Nat
  | [] => 0
  | t :: ts => max t.registers (t.prims + registersAll ts)

/-- A node without the nodes below it. -/
abbrev ExprNode (V : Type) := Prim V ⊕ BinOpType

/-- The nodes of an expression, operands before their operator. -/
def Ast.postorder : Ast V → List (ExprNode V)
  | .binOp t l r => l.postorder ++ r.postorder ++ [.inr t]
  | .prim p => [.inl p]
  | .varDef _ _ => []
  | .varDefInit _ _ _ => []

def Instr.node : Instr V → ExprNode V
  | .mov _ p => .inl p
  | .op t _ _ => .inr t

/-- From gv to gv' n registers were taken for good, and code was printed for
these nodes. -/
structure GenDone (n : Nat) (nodes : List (ExprNode V)) (gv gv' : GenVisitor V) : Prop where
  taken : gv'.agvReg.rP + n = gv.agvReg.rP
  size : gv'.agvReg.rRegs.length = gv.agvReg.rRegs.length
  code : gv'.agvFp.map Instr.node = gv.agvFp.map Instr.node ++ nodes

/-- The run r from gv is done where need registers are free, and dies elsewhere. -/
structure GenEnds (need n : Nat) (nodes : List (ExprNode V)) (gv : GenVisitor V)
    (r : Res (GenVisitor V)) : Prop where
  done : need ≤ gv.agvReg.rP → ∃ gv', r = .ok gv' ∧ GenDone n nodes gv gv'
  dies : gv.agvReg.rP < need → r = .error (.die "reglist_get: stack underflow")

theorem GenDone.refl (gv : GenVisitor V) : GenDone 0 [] gv gv := ⟨rfl, rfl, by simp⟩

theorem GenDone.trans {n m : Nat} {ns ms : List (ExprNode V)} {gv gv₁ gv₂ : GenVisitor V}
    (h₁ : GenDone n ns gv gv₁) (h₂ : GenDone m ms gv₁ gv₂) :
    GenDone (n + m) (ns ++ ms) gv gv₂ where
  taken := by
    have hn := h₁.taken
    have hm := h₂.taken
    omega
  size := h₂.size.trans h₁.size
  code := by rw [h₂.code, h₁.code, List.append_assoc]

/-- Two runs in a row need what the first needs, and what the second needs
beside the registers the first keeps. -/
theorem GenEnds.bind {a b n m : Nat} {ns ms : List (ExprNode V)} {gv : GenVisitor V}
    {r : Res (GenVisitor V)} {f : GenVisitor V → Res (GenVisitor V)}
    (h₁ : GenEnds a n ns gv r) (h₂ : ∀ gv₁, GenDone n ns gv gv₁ → GenEnds b m ms gv₁ (f gv₁)) :
    GenEnds (max a (n + b)) (n + m) (ns ++ ms) gv (r >>= f) where
  done := by
    intro hneed
    obtain ⟨gv₁, rfl, hdone₁⟩ := h₁.done (by omega)
    have htaken := hdone₁.taken
    obtain ⟨gv₂, hrun, hdone₂⟩ := (h₂ gv₁ hdone₁).done (by omega)
    exact ⟨gv₂, hrun, hdone₁.trans hdone₂⟩
  dies := by
    intro hneed
    by_cases ha : a ≤ gv.agvReg.rP
    · obtain ⟨gv₁, rfl, hdone₁⟩ := h₁.done ha
      have htaken := hdone₁.taken
      exact (h₂ gv₁ hdone₁).dies (by omega)
    · rw [h₁.dies (by omega), error_bind]

theorem reglistGet_dies {r : Reglist} (h : r.rP = 0) :
    reglistGet r = .error (.die "reglist_get: stack underflow") := if_pos h

theorem reglistGet_takes {r : Reglist} (h : 0 < r.rP) :
    reglistGet r = .ok (r.rP - 1, { r with rP := r.rP - 1 }) := if_neg (by omega)

/-- prim_gen takes one register and keeps it. -/
theorem prim_ends (p : Prim V) (gv : GenVisitor V) (hsize : gv.agvReg.rRegs.length = REG_COUNT)
    (htop : gv.agvReg.rP ≤ REG_COUNT) : GenEnds 1 1 [.inl p] gv (primGen p gv) where
  done := by
    intro hneed
    have hi : gv.agvReg.rP - 1 < gv.agvReg.rRegs.length := by omega
    simp only [primGen, reglistGet_takes hneed, ok_bind, load_lt hi]
    refine ⟨_, rfl, ?_, rfl, ?_⟩
    · exact Nat.sub_add_cancel hneed
    · simp [GenVisitor.emit, Instr.node]
  dies := by
    intro hneed
    rw [primGen, reglistGet_dies (by omega), error_bind]

/-- bin_op_gen takes a register that it gives back, once its operands hold two. -/
theorem emit_ends (t : BinOpType) (gv : GenVisitor V)
    (hsize : gv.agvReg.rRegs.length = REG_COUNT) (htop : gv.agvReg.rP + 2 ≤ REG_COUNT) :
    GenEnds 1 0 [.inr t] gv (binOpEmit t gv) := by
  have hne : gv.agvReg.rP ≠ REG_COUNT := by omega
  have hs : gv.agvReg.rP + 1 < gv.agvReg.rRegs.length := by omega
  have hlast : reglistLast gv.agvReg = .ok (gv.agvReg.rP + 1) := if_neg hne
  constructor
  case done =>
    intro hneed
    have hi : gv.agvReg.rP - 1 < gv.agvReg.rRegs.length := by omega
    have hput : gv.agvReg.rP - 1 ≠ REG_COUNT := by omega
    simp only [binOpEmit, hlast, reglistGet_takes hneed, GenVisitor.emit, reglistPut,
      if_neg hput, load_lt hi, load_lt hs, ok_bind, store_lt hi]
    refine ⟨_, rfl, ?_, by simp, by simp [Instr.node]⟩
    exact Nat.sub_add_cancel hneed
  case dies =>
    intro hneed
    rw [binOpEmit, hlast, ok_bind, reglistGet_dies (by omega), error_bind]

theorem Ast.prims_pos {t : Ast V} (ht : t.IsExpr) : 1 ≤ t.prims := by
  induction t with
  | binOp t l r ihl _ => exact Nat.le_add_right_of_le (ihl ht.1)
  | prim p => exact Nat.le_refl 1
  | varDef => exact ht.elim
  | varDefInit => exact ht.elim

theorem Ast.registers_le (t : Ast V) : t.registers ≤ t.prims + 1 := by
  cases t <;> simp [Ast.registers, Ast.prims]

theorem visit_ends {t : Ast V} (ht : t.IsExpr) (gv : GenVisitor V)
    (hsize : gv.agvReg.rRegs.length = REG_COUNT) (htop : gv.agvReg.rP ≤ REG_COUNT) :
    GenEnds t.registers t.prims t.postorder gv (genVisit t gv) := by
  induction t generalizing gv with
  | binOp t l r ihl ihr =>
    have hl1 := Ast.prims_pos ht.1
    have hr1 := Ast.prims_pos ht.2
    have hright : ∀ gl, GenDone l.prims l.postorder gv gl →
        GenEnds (max r.registers (r.prims + 1)) (r.prims + 0) (r.postorder ++ [.inr t]) gl
          (genVisit r gl >>= binOpEmit t) := by
      intro gl hl
      have htop' := hl.taken
      refine (ihr ht.2 gl (hl.size.trans hsize) (by omega)).bind fun gr hr => ?_
      have htop'' := hr.taken
      exact emit_ends t gr (hr.size.trans (hl.size.trans hsize)) (by omega)
    have hends := (ihl ht.1 gv hsize htop).bind hright
    -- one register more than the operands keep is the most at a time
    have hneed : max l.registers (l.prims + max r.registers (r.prims + 1)) =
        (Ast.binOp t l r).registers := by
      have hl := l.registers_le
      have hr := r.registers_le
      show _ = l.prims + r.prims + 1
      omega
    rw [hneed, ← List.append_assoc] at hends
    exact hends
  | prim p => exact prim_ends p gv hsize htop
  | varDef => exact ht.elim
  | varDefInit => exact ht.elim

theorem visits_end {ts : List (Ast V)} (hts : ∀ t ∈ ts, t.IsExpr) (gv : GenVisitor V)
    (hsize : gv.agvReg.rRegs.length = REG_COUNT) (htop : gv.agvReg.rP ≤ REG_COUNT) :
    GenEnds (registersAll ts) (primsAll ts) (ts.flatMap Ast.postorder) gv (genAll ts gv) := by
  induction ts generalizing gv with
  | nil => exact ⟨fun _ => ⟨gv, rfl, .refl gv⟩, fun h => absurd h (Nat.not_lt_zero _)⟩
  | cons t ts ih =>
    obtain ⟨ht, hts⟩ := List.forall_mem_cons.mp hts
    refine (visit_ends ht gv hsize htop).bind fun gt hdone => ?_
    have htaken := hdone.taken
    exact ih hts gt (hdone.size.trans hsize) (by omega)

/-- A new visitor serves expressions one after the other as long as three
registers are enough, one kept for every prim node so far and one more inside
a bin_op: then it prints one instruction for each node, operands first. The
first visit that needs a fourth register dies in reglist_get. -/
theorem gen_serves (ts : List (Ast V)) (hts : ∀ t ∈ ts, t.IsExpr) :
    (registersAll ts ≤ REG_COUNT ∧ ∃ gv, genAll ts (genVisitorInit V) = .ok gv ∧
      gv.agvReg.rP + primsAll ts = REG_COUNT ∧
      gv.agvFp.map Instr.node = ts.flatMap Ast.postorder) ∨
    (REG_COUNT < registersAll ts ∧
      genAll ts (genVisitorInit V) = .error (.die "reglist_get: stack underflow")) := by
  have hends := visits_end hts (genVisitorInit V) rfl (Nat.le_refl _)
  rcases Nat.lt_or_ge REG_COUNT (registersAll ts) with hlt | hle
  · exact .inr ⟨hlt, hends.dies hlt⟩
  · obtain ⟨gv, hrun, hdone⟩ := hends.done hle
    exact .inl ⟨hle, gv, hrun, hdone.taken, hdone.code⟩

end

/-- An addition and a number after it take all three registers. -/
def genTwo : List (Ast Int) := [.binOp .add (.prim ⟨.int, 1⟩) (.prim ⟨.int, 2⟩), .prim ⟨.int, 3⟩]

theorem gen_serves_one : ∃ gv, genAll genTwo (genVisitorInit Int) = .ok gv ∧
    gv.agvReg.rP + primsAll genTwo = REG_COUNT ∧
    gv.agvFp.map Instr.node = genTwo.flatMap Ast.postorder := by
  rcases gen_serves genTwo (by simp [genTwo, Ast.IsExpr]) with ⟨-, hserved⟩ | ⟨hlt, -⟩
  · exact hserved
  · exact absurd hlt (by decide)

end Mepl
