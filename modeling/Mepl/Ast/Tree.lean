import Mepl.C.Machine

namespace Mepl

/-- abo_type -/
inductive BinOpType where
  | add
  | sub
  | div
  | mod
  | mul
deriving DecidableEq, Repr

/-- ap_type -/
inductive PrimType where
  | int
  | long
  | float
  | double
  | char
  | cstr
deriving DecidableEq, Repr

/-- A primitive: its type, and the member of the union that type selects. -/
structure Prim (V : Type) where
  apType : PrimType
  val : V
deriving DecidableEq, Repr

/-- A node with a_visit and the nodes below it; avd_init may be NULL. -/
inductive Ast (V : Type) where
  | binOp (aboType : BinOpType) (aboLeft aboRight : Ast V)
  | prim (p : Prim V)
  | varDef (avdDtype avdName : List Byte)
  | varDefInit (avdDtype avdName : List Byte) (avdInit : Ast V)
deriving Repr

/-- A tree of bin_op and prim nodes. -/
def Ast.IsExpr {V : Type} : Ast V → Prop
  | .binOp _ l r => l.IsExpr ∧ r.IsExpr
  | .prim _ => True
  | .varDef _ _ => False
  | .varDefInit _ _ _ => False

end Mepl
