import Mepl.Ast.Dump

namespace Mepl.AstIdea

/-- ap_type -/
inductive PrimType where
  | int
  | long
  | float
deriving DecidableEq, Repr

/-- A node of ideas/ast.c with its a_dump. -/
inductive Ast (V : Type) where
  | binOp (aboType : BinOpType) (aboLeft aboRight : Ast V)
  | prim (apType : PrimType) (val : V)
deriving DecidableEq, Repr

def AST_PRIM_NAMES : PrimType → Text
  | .int => chars "ast_int\x7b\x7d"
  | .long => chars "ast_long\x7b\x7d"
  | .float => chars "ast_float\x7b\x7d"

/-- The conversions of AST_PRIM_DUMP_SWITCH_DEF. -/
def PrimType.fmt : PrimType → Text
  | .int => chars "%d"
  | .long => chars "%ld"
  | .float => chars "%f"

/-- From a negative width space-- does not come to 0 before it leaves int. -/
def indent (space : Int) : Res Text :=
  if 0 ≤ space then pure (List.replicate space.toNat 32#8) else .error .fault

def line (space : Int) (text : Text) : Res Text := do
  let blanks ← indent space
  pure (blanks ++ text)

section
variable {V : Type} (conv : Text → V → Text)

/-- ast_bin_op_dump and ast_prim_dump: what they print. The operand after
.right is left again. -/
def dump : Ast V → Int → Res Text
  | .binOp t l _, space => do
    let start ← line space (chars "\x7b\n")
    let type ← line (← intAdd space 2)
      (chars ".type = " ++ AST_BIN_OP_NAME t ++ chars "\x7b\x7d,\n")
    let left ← dump l (← intAdd space 2)
    let right ← dump l (← intAdd space 2)
    let stop ← line space (chars "\x7d,\n")
    pure (start ++ type ++ chars ".left = " ++ left ++ chars ".right = " ++ right ++ stop)
  | .prim t v, space => do
    let start ← line space (chars "\x7b\n")
    let type ← line (← intAdd space 2)
      (chars ".type = " ++ AST_PRIM_NAMES t ++ chars "\x7b\x7d,\n")
    let val ← line (← intAdd space 2) (chars ".val  = ")
    let stop ← line space (chars "\x7d,\n")
    pure (start ++ type ++ val ++ conv t.fmt v ++ chars ",\n" ++ stop)

end

/-- The operators on the way down to the left, and the prim at its end. -/
structure Spine (V : Type) where
  ops : List BinOpType
  apType : PrimType
  val : V
deriving DecidableEq, Repr

section
variable {V : Type} (conv : Text → V → Text)

def Ast.spine : Ast V → Spine V
  | .binOp t l _ => { l.spine with ops := t :: l.spine.ops }
  | .prim t v => ⟨[], t, v⟩

def blanks (space : Nat) : Text := List.replicate space 32#8

/-- What a dump prints, by the spine alone. -/
def spineText (p : PrimType) (v : V) : List BinOpType → Nat → Text
  | [], space =>
    blanks space ++ chars "\x7b\n" ++
      (blanks (space + 2) ++ (chars ".type = " ++ AST_PRIM_NAMES p ++ chars "\x7b\x7d,\n")) ++
      (blanks (space + 2) ++ chars ".val  = ") ++ conv p.fmt v ++ chars ",\n" ++
      (blanks space ++ chars "\x7d,\n")
  | t :: ops, space =>
    blanks space ++ chars "\x7b\n" ++
      (blanks (space + 2) ++ (chars ".type = " ++ AST_BIN_OP_NAME t ++ chars "\x7b\x7d,\n")) ++
      chars ".left = " ++ spineText p v ops (space + 2) ++
      chars ".right = " ++ spineText p v ops (space + 2) ++ (blanks space ++ chars "\x7d,\n")

variable {conv}

theorem line_ok (space : Nat) (text : Text) :
    line (space : Int) text = .ok (blanks space ++ text) := by
  simp [line, indent, blanks]

theorem add_ok {space : Nat} (h : (space : Int) + 2 ≤ INT_MAX) :
    intAdd (space : Int) 2 = .ok ((space + 2 : Nat) : Int) := by
  rw [int_add_ok]
  simp only [INT_MIN, INT_MAX] at h ⊢
  omega

theorem dump_text (t : Ast V) (space : Nat)
    (h : (space : Int) + 2 * (t.spine.ops.length + 1) ≤ INT_MAX) :
    dump conv t (space : Int) =
      .ok (spineText conv t.spine.apType t.spine.val t.spine.ops space) := by
  induction t generalizing space with
  | binOp o l r ihl _ =>
    simp only [Ast.spine, List.length_cons] at h
    have hroom : (space : Int) + 2 ≤ INT_MAX := by omega
    have hleft := ihl (space + 2) (by omega)
    simp only [dump, line_ok, add_ok hroom, ok_bind, hleft]
    rfl
  | prim p v =>
    simp only [Ast.spine, List.length_nil] at h
    have hroom : (space : Int) + 2 ≤ INT_MAX := by omega
    simp only [dump, line_ok, add_ok hroom, ok_bind]
    rfl

theorem count_blanks (n : Nat) : (blanks n).count 123#8 = 0 := by
  rw [blanks, List.count_replicate]
  rfl

/-- Three braces open in the record of a prim, whose name has a pair of its own,
two in that of a bin_op, and all that is below comes twice. -/
theorem count_spineText (p : PrimType) (v : V) (h : 123#8 ∉ conv p.fmt v)
    (ops : List BinOpType) (space : Nat) :
    (spineText conv p v ops space).count 123#8 =
      3 * 2 ^ ops.length + 2 * (2 ^ ops.length - 1) := by
  induction ops generalizing space with
  | nil =>
    have hprim : (AST_PRIM_NAMES p).count 123#8 = 1 := by
      cases p <;> decide
    have hval : (conv p.fmt v).count 123#8 = 0 := List.count_eq_zero.mpr h
    simp only [spineText, List.count_append, count_blanks, hprim, hval]
    decide
  | cons o ops ih =>
    have hop : (AST_BIN_OP_NAME o).count 123#8 = 0 := by
      cases o <;> decide
    have hopen : (chars "\x7b\n").count 123#8 = 1 := by decide
    have hclose : (chars "\x7d,\n").count 123#8 = 0 := by decide
    have htype : (chars ".type = ").count 123#8 = 0 := by decide
    have hbraces : (chars "\x7b\x7d,\n").count 123#8 = 1 := by decide
    have hleft : (chars ".left = ").count 123#8 = 0 := by decide
    have hright : (chars ".right = ").count 123#8 = 0 := by decide
    have hpos : 1 ≤ 2 ^ ops.length := Nat.one_le_two_pow
    simp only [spineText, List.count_append, count_blanks, hop, hopen, hclose, htype, hbraces,
      hleft, hright, ih, List.length_cons]
    rw [Nat.pow_succ]
    omega

/-- A dump shows the spine of a tree and nothing else: every right operand is
the left one again, so that n operators on the way down to the left make the
records of 2 ^ n prims and 2 ^ n - 1 bin_ops, whatever is on the right. -/
theorem dump_spine (conv : Text → V → Text) (hconv : ∀ fmt v, 123#8 ∉ conv fmt v) (t : Ast V)
    (space : Nat) (h : (space : Int) + 2 * (t.spine.ops.length + 1) ≤ INT_MAX) :
    ∃ text, (∀ u : Ast V, u.spine = t.spine → dump conv u (space : Int) = .ok text) ∧
      text.count 123#8 = 3 * 2 ^ t.spine.ops.length + 2 * (2 ^ t.spine.ops.length - 1) := by
  refine ⟨spineText conv t.spine.apType t.spine.val t.spine.ops space, ?_,
    count_spineText _ _ (hconv _ _) _ _⟩
  intro u hu
  rw [← hu] at h ⊢
  exact dump_text u space h

end

/-- add(1, 2) dumps as add(1, 1) does. -/
theorem dump_spine_add :
    ∃ text, (∀ u : Ast Bool,
        u.spine = (Ast.binOp .add (.prim .int true) (.prim .int false)).spine →
        dump (fun _ v => chars (if v then "1" else "2")) u (0 : Nat) = .ok text) ∧
      text.count 123#8 = 3 * 2 ^ 1 + 2 * (2 ^ 1 - 1) :=
  dump_spine (fun _ v => chars (if v then "1" else "2"))
    (fun _ v => by cases v <;> decide) (.binOp .add (.prim .int true) (.prim .int false)) 0
    (by decide)

end Mepl.AstIdea
