import Mathlib.Algebra.Order.Ring.Nat
import Mepl.Ast.Tree
import Mepl.C.Chars

namespace Mepl

abbrev Text := List Byte

def INT_MIN : Int := -2 ^ 31

def INT_MAX : Int := 2 ^ 31 - 1

/-- `a + b` of two ints -/
def intAdd (a b : Int) : Res Int :=
  if INT_MIN ≤ a + b ∧ a + b ≤ INT_MAX then pure (a + b) else .error .fault

/-- FILE * -/
inductive FileStream where
  | stdout
  | stderr
  | file (n : Nat)
deriving DecidableEq, Repr

/-- What one fprintf() writes. -/
structure Printed where
  stream : FileStream
  text : Text
deriving DecidableEq, Repr

/-- The visitor, with all that has been printed so far. -/
structure DumpVisitor where
  advFp : FileStream
  advSpace : Int
  out : List Printed
deriving DecidableEq, Repr

def dumpVisitorInit (fp : FileStream) (start : Int) : DumpVisitor where
  advFp := fp
  advSpace := start
  out := []

def AST_BIN_OP_NAME : BinOpType → Text
  | .add => chars "ast_add"
  | .sub => chars "ast_sub"
  | .div => chars "ast_div"
  | .mod => chars "ast_mod"
  | .mul => chars "ast_mul"

def AST_PRIM_NAME : PrimType → Text
  | .int => chars "ast_int"
  | .long => chars "ast_long"
  | .float => chars "ast_float"
  | .double => chars "ast_double"
  | .char => chars "ast_char"
  | .cstr => chars "ast_cstr"

def AST_PRIM_CONV_SPECS : PrimType → Text
  | .int => chars "%d"
  | .long => chars "%ld"
  | .float => chars "%f"
  | .double => chars "%f"
  | .char => chars "%c"
  | .cstr => chars "\"%s\""

def DumpVisitor.fprintf (dv : DumpVisitor) (fp : FileStream) (s : Text) : DumpVisitor :=
  { dv with out := dv.out ++ [⟨fp, s⟩] }

/-- A negative width is its absolute value, flushed left. -/
def indent (dv : DumpVisitor) (space : Int) : Res DumpVisitor :=
  if INT_MIN < space then pure (dv.fprintf .stderr (List.replicate space.natAbs 32#8))
  else .error .fault

/-- indent() and the line after it, as every AST_DUMP_ macro has them. -/
def dumpLine (dv : DumpVisitor) (space : Int) (line : Text) : Res DumpVisitor := do
  let dv ← indent dv space
  pure (dv.fprintf dv.advFp line)

def AST_DUMP_START (dv : DumpVisitor) : Res DumpVisitor := dumpLine dv dv.advSpace (chars "\x7b\n")

def AST_DUMP_END (dv : DumpVisitor) : Res DumpVisitor := dumpLine dv dv.advSpace (chars "\x7d,\n")

/-- AST_DUMP_FIELD, and the lines that are printed with arguments. -/
def AST_DUMP_FIELD (dv : DumpVisitor) (line : Text) : Res DumpVisitor := do
  dumpLine dv (← intAdd dv.advSpace 2) line

def AST_DUMP_TYPE (dv : DumpVisitor) (type : Text) : Res DumpVisitor :=
  AST_DUMP_FIELD dv (chars ".type = " ++ type ++ chars "\x7b\x7d,\n")

def inc (dv : DumpVisitor) (amt : Int) : Res DumpVisitor := do
  let space ← intAdd dv.advSpace amt
  pure { dv with advSpace := space }

def dec (dv : DumpVisitor) (amt : Int) : Res DumpVisitor := inc dv (-amt)

section
variable {V : Type} (conv : Text → V → Text)

def primDump (p : Prim V) (dv : DumpVisitor) : Res DumpVisitor := do
  let dv ← AST_DUMP_START dv
  let dv ← AST_DUMP_TYPE dv (AST_PRIM_NAME p.apType)
  let dv ← AST_DUMP_FIELD dv (chars ".val = ")
  let dv := dv.fprintf dv.advFp (conv (AST_PRIM_CONV_SPECS p.apType) p.val)
  let dv := dv.fprintf .stdout (chars ",\n")
  AST_DUMP_END dv

/-- var_def_dump up to the visit of avd_init. -/
def varDefHead (dtype name : Text) (dv : DumpVisitor) : Res DumpVisitor := do
  let dv ← AST_DUMP_START dv
  let dv ← AST_DUMP_TYPE dv (chars "ast_var_def")
  let dv ← AST_DUMP_FIELD dv (chars ".dtype = " ++ dtype ++ chars "\n")
  AST_DUMP_FIELD dv (chars ".name = " ++ name ++ chars "\n")

/-- a_visit with a dump visitor; conv is what fprintf() makes of a conversion
and a value. -/
def dumpVisit : Ast V → DumpVisitor → Res DumpVisitor
  | .binOp t l r, dv => do
    let dv ← AST_DUMP_START dv
    let dv ← AST_DUMP_TYPE dv (AST_BIN_OP_NAME t)
    let dv ← AST_DUMP_FIELD dv (chars ".left = \n")
    let dv ← inc dv 4
    let dv ← dumpVisit l dv
    let dv ← dec dv 4
    let dv ← AST_DUMP_FIELD dv (chars ".right = \n")
    let dv ← inc dv 4
    let dv ← dumpVisit r dv
    let dv ← dec dv 4
    AST_DUMP_END dv
  | .prim p, dv => primDump conv p dv
  | .varDef dtype name, dv => do
    let dv ← varDefHead dtype name dv
    AST_DUMP_END dv
  | .varDefInit dtype name expr, dv => do
    let dv ← varDefHead dtype name dv
    let dv ← inc dv 4
    let dv ← dumpVisit expr dv
    let dv ← dec dv 4
    AST_DUMP_END dv

end

/-- What has gone to a stream. -/
def sentTo (fp : FileStream) (out : List Printed) : Text :=
  (out.filter (fun w => w.stream == fp)).flatMap Printed.text

/-- Where records are opened and closed. -/
def braces (lines : List Text) : List Text :=
  lines.filter (fun line => line == chars "\x7b\n" || line == chars "\x7d,\n")

/-- Lines with these fields among them, where records open and close so. -/
structure Part (marks fields lines : List Text) : Prop where
  marks : braces lines = marks
  fields : ∀ field ∈ fields, field ∈ lines

section
variable {V : Type} (conv : Text → V → Text)

/-- The lines are the record of a tree: one opened and closed for each node,
with its own fields, those of the nodes below it in their order inside. -/
def IsRecord : Ast V → List Text → Prop
  | .binOp t l r, lines => ∃ start left between right stop,
      lines = start ++ left ++ between ++ right ++ stop ∧
      Part [chars "\x7b\n"] [chars ".type = " ++ AST_BIN_OP_NAME t ++ chars "\x7b\x7d,\n",
        chars ".left = \n"] start ∧
      IsRecord l left ∧ Part [] [chars ".right = \n"] between ∧ IsRecord r right ∧
      Part [chars "\x7d,\n"] [] stop
  | .prim p, lines => ∃ start stop, lines = start ++ stop ∧
      Part [chars "\x7b\n"] [chars ".type = " ++ AST_PRIM_NAME p.apType ++ chars "\x7b\x7d,\n",
        chars ".val = ", conv (AST_PRIM_CONV_SPECS p.apType) p.val] start ∧
      Part [chars "\x7d,\n"] [] stop
  | .varDef dtype name, lines => ∃ start stop, lines = start ++ stop ∧
      Part [chars "\x7b\n"] [chars ".type = ast_var_def\x7b\x7d,\n",
        chars ".dtype = " ++ dtype ++ chars "\n", chars ".name = " ++ name ++ chars "\n"] start ∧
      Part [chars "\x7d,\n"] [] stop
  | .varDefInit dtype name expr, lines => ∃ start init stop, lines = start ++ init ++ stop ∧
      Part [chars "\x7b\n"] [chars ".type = ast_var_def\x7b\x7d,\n",
        chars ".dtype = " ++ dtype ++ chars "\n", chars ".name = " ++ name ++ chars "\n"] start ∧
      IsRecord expr init ∧ Part [chars "\x7d,\n"] [] stop

/-- The dump of t from indentation s on: a record on fp and nothing on other
streams, with adv_space back at s. -/
def Dumps (fp : FileStream) (s : Int) (t : Ast V) : Prop :=
  ∃ dv, dumpVisit conv t (dumpVisitorInit fp s) = .ok dv ∧
    (∀ other, other ≠ fp → sentTo other dv.out = []) ∧
    IsRecord conv t (dv.out.map Printed.text) ∧ dv.advSpace = s

end

def DumpVisitor.emit (dv : DumpVisitor) (ws : List Printed) : DumpVisitor :=
  { dv with out := dv.out ++ ws }

/-- dv with another indentation. -/
def DumpVisitor.at (dv : DumpVisitor) (space : Int) : DumpVisitor := { dv with advSpace := space }

def blank (space : Int) : Printed := ⟨.stderr, List.replicate space.natAbs 32#8⟩

/-- A line, as it is printed at an indentation. -/
def printedLine (fp : FileStream) (space : Int) (line : Text) : List Printed :=
  [blank space, ⟨fp, line⟩]

def printedType (fp : FileStream) (s : Int) (type : Text) : List Printed :=
  printedLine fp s (chars "\x7b\n") ++
    printedLine fp (s + 2) (chars ".type = " ++ type ++ chars "\x7b\x7d,\n")

def printedVarDef (fp : FileStream) (s : Int) (dtype name : Text) : List Printed :=
  printedType fp s (chars "ast_var_def") ++
    printedLine fp (s + 2) (chars ".dtype = " ++ dtype ++ chars "\n") ++
    printedLine fp (s + 2) (chars ".name = " ++ name ++ chars "\n")

def printedEnd (fp : FileStream) (s : Int) : List Printed := printedLine fp s (chars "\x7d,\n")

section
variable {V : Type} (conv : Text → V → Text)

/-- All that a visit prints. -/
def dumped (fp : FileStream) (s : Int) : Ast V → List Printed
  | .binOp t l r =>
    printedType fp s (AST_BIN_OP_NAME t) ++ printedLine fp (s + 2) (chars ".left = \n") ++
      dumped fp (s + 4) l ++ printedLine fp (s + 2) (chars ".right = \n") ++
      dumped fp (s + 4) r ++ printedEnd fp s
  | .prim p =>
    printedType fp s (AST_PRIM_NAME p.apType) ++ printedLine fp (s + 2) (chars ".val = ") ++
      [⟨fp, conv (AST_PRIM_CONV_SPECS p.apType) p.val⟩, ⟨.stdout, chars ",\n"⟩] ++ printedEnd fp s
  | .varDef dtype name => printedVarDef fp s dtype name ++ printedEnd fp s
  | .varDefInit dtype name expr =>
    printedVarDef fp s dtype name ++ dumped fp (s + 4) expr ++ printedEnd fp s

/-- How far below the root the deepest node is. -/
def Ast.height : Ast V → Nat
  | .binOp _ l r => max l.height r.height + 1
  | .prim _ => 0
  | .varDef _ _ => 0
  | .varDefInit _ _ expr => expr.height + 1

def Ast.NoPrim : Ast V → Prop
  | .binOp _ l r => l.NoPrim ∧ r.NoPrim
  | .prim _ => False
  | .varDef _ _ => True
  | .varDefInit _ _ expr => expr.NoPrim

/-- The indentations of one node are ints. -/
def HasRoom (s : Int) : Prop := INT_MIN < s ∧ s + 2 ≤ INT_MAX

/-- No indentation of the dump leaves the range of int. -/
def Ast.FitsInt (s : Int) (t : Ast V) : Prop := INT_MIN < s ∧ s + 4 * t.height + 2 ≤ INT_MAX

end

section
variable {V : Type} {conv : Text → V → Text} {dv dv' : DumpVisitor} {fp : FileStream} {s amt : Int}
  {t : Ast V} {line type : Text} {ws ws' : List Printed}

@[simp] theorem emit_space : (dv.emit ws).advSpace = dv.advSpace := rfl

@[simp] theorem emit_fp : (dv.emit ws).advFp = dv.advFp := rfl

@[simp] theorem emit_emit : (dv.emit ws).emit ws' = dv.emit (ws ++ ws') := by
  simp [DumpVisitor.emit]

@[simp] theorem at_space : (dv.at s).advSpace = s := rfl

theorem fprintf_fprintf {fp' : FileStream} {line' : Text} :
    (dv.fprintf fp line).fprintf fp' line' = dv.emit [⟨fp, line⟩, ⟨fp', line'⟩] := by
  simp [DumpVisitor.fprintf, DumpVisitor.emit]

theorem at_back : ((((dv.at (dv.advSpace + 4)).emit ws).at
    (((dv.at (dv.advSpace + 4)).emit ws).advSpace + -4))) = dv.emit ws := by
  rw [emit_space, at_space, show dv.advSpace + 4 + -4 = dv.advSpace by omega]
  rfl

theorem int_add_ok {a b c : Int} :
    intAdd a b = .ok c ↔ (INT_MIN ≤ a + b ∧ a + b ≤ INT_MAX) ∧ c = a + b := by
  unfold intAdd
  split
  · simp [*, eq_comm]
  · simp [*]

theorem line_ok : dumpLine dv s line = .ok dv' ↔
    INT_MIN < s ∧ dv' = dv.emit (printedLine dv.advFp s line) := by
  unfold dumpLine indent
  split
  · simp [*, DumpVisitor.fprintf, DumpVisitor.emit, printedLine, blank, eq_comm]
  · simp [*]

theorem start_ok : AST_DUMP_START dv = .ok dv' ↔ INT_MIN < dv.advSpace ∧
    dv' = dv.emit (printedLine dv.advFp dv.advSpace (chars "\x7b\n")) := line_ok

theorem end_ok : AST_DUMP_END dv = .ok dv' ↔ INT_MIN < dv.advSpace ∧
    dv' = dv.emit (printedEnd dv.advFp dv.advSpace) := line_ok

theorem field_ok : AST_DUMP_FIELD dv line = .ok dv' ↔
    (INT_MIN < dv.advSpace + 2 ∧ dv.advSpace + 2 ≤ INT_MAX) ∧
      dv' = dv.emit (printedLine dv.advFp (dv.advSpace + 2) line) := by
  simp only [AST_DUMP_FIELD, bind_ok, int_add_ok, line_ok]
  constructor
  · rintro ⟨_, ⟨⟨-, hmax⟩, rfl⟩, hmin, h⟩
    exact ⟨⟨hmin, hmax⟩, h⟩
  · rintro ⟨⟨hmin, hmax⟩, h⟩
    exact ⟨_, ⟨⟨Int.le_of_lt hmin, hmax⟩, rfl⟩, hmin, h⟩

theorem inc_ok : inc dv amt = .ok dv' ↔
    (INT_MIN ≤ dv.advSpace + amt ∧ dv.advSpace + amt ≤ INT_MAX) ∧
      dv' = dv.at (dv.advSpace + amt) := by
  simp only [inc, bind_ok, int_add_ok, pure_ok, Except.ok.injEq]
  constructor
  · rintro ⟨_, ⟨h, rfl⟩, rfl⟩
    exact ⟨h, rfl⟩
  · rintro ⟨h, rfl⟩
    exact ⟨_, ⟨h, rfl⟩, rfl⟩

/-- A record up to its first field. -/
theorem head_ok {f : DumpVisitor → Res DumpVisitor} :
    (AST_DUMP_START dv >>= fun dv => AST_DUMP_TYPE dv type >>= f) = .ok dv' ↔
      HasRoom dv.advSpace ∧ f (dv.emit (printedType dv.advFp dv.advSpace type)) = .ok dv' := by
  simp only [bind_ok, start_ok, AST_DUMP_TYPE, field_ok]
  constructor
  · rintro ⟨_, ⟨hmin, rfl⟩, _, ⟨⟨-, hmax⟩, rfl⟩, h⟩
    exact ⟨⟨hmin, hmax⟩, by simpa [printedType] using h⟩
  · rintro ⟨⟨hmin, hmax⟩, h⟩
    refine ⟨_, ⟨hmin, rfl⟩, _, ⟨⟨?_, hmax⟩, rfl⟩, by simpa [printedType] using h⟩
    simp only [emit_space]
    omega

/-- A field, where the indentation has room for one. -/
theorem field_bind_ok (dv : DumpVisitor) {f : DumpVisitor → Res DumpVisitor}
    (h : HasRoom dv.advSpace) : (AST_DUMP_FIELD dv line >>= f) = .ok dv' ↔
      f (dv.emit (printedLine dv.advFp (dv.advSpace + 2) line)) = .ok dv' := by
  obtain ⟨hmin, hmax⟩ := h
  have hrun : AST_DUMP_FIELD dv line =
      .ok (dv.emit (printedLine dv.advFp (dv.advSpace + 2) line)) :=
    field_ok.mpr ⟨⟨by omega, hmax⟩, rfl⟩
  rw [hrun, ok_bind]

/-- The visit of a node below, and the indentation back where it was. -/
theorem below_ok (dv : DumpVisitor) {f : DumpVisitor → Res DumpVisitor}
    (hroom : HasRoom dv.advSpace) (hvisit : ∀ dv dv', dumpVisit conv t dv = .ok dv' ↔
      t.FitsInt dv.advSpace ∧ dv' = dv.emit (dumped conv dv.advFp dv.advSpace t)) :
    (do
      let dv ← inc dv 4
      let dv ← dumpVisit conv t dv
      let dv ← dec dv 4
      f dv) = .ok dv' ↔ t.FitsInt (dv.advSpace + 4) ∧
        f (dv.emit (dumped conv dv.advFp (dv.advSpace + 4) t)) = .ok dv' := by
  obtain ⟨hmin, -⟩ := hroom
  simp only [bind_ok, inc_ok, hvisit, dec]
  constructor
  · rintro ⟨_, ⟨-, rfl⟩, _, ⟨hfits, rfl⟩, _, ⟨-, rfl⟩, h⟩
    rw [at_back] at h
    exact ⟨hfits, h⟩
  · rintro ⟨hfits, h⟩
    obtain ⟨hmin', hmax'⟩ := hfits
    refine ⟨_, ⟨⟨by omega, by omega⟩, rfl⟩, _, ⟨⟨hmin', hmax'⟩, rfl⟩, _, ⟨⟨?_, ?_⟩, rfl⟩, ?_⟩
    · simp only [emit_space, at_space]
      omega
    · simp only [emit_space, at_space]
      omega
    · rw [at_back]
      exact h

theorem fits_leaf (h : t.height = 0) : t.FitsInt s ↔ HasRoom s := by
  simp only [Ast.FitsInt, HasRoom, h]
  omega

theorem fits_bin_op {o : BinOpType} {l r : Ast V} : (Ast.binOp o l r).FitsInt s ↔
    HasRoom s ∧ l.FitsInt (s + 4) ∧ r.FitsInt (s + 4) := by
  simp only [Ast.FitsInt, Ast.height, HasRoom]
  omega

theorem fits_init {dtype name : Text} : (Ast.varDefInit dtype name t).FitsInt s ↔
    HasRoom s ∧ t.FitsInt (s + 4) := by
  simp only [Ast.FitsInt, Ast.height, HasRoom]
  omega

theorem var_def_head_ok {dtype name : Text} {f : DumpVisitor → Res DumpVisitor} :
    (varDefHead dtype name dv >>= f) = .ok dv' ↔ HasRoom dv.advSpace ∧
      f (dv.emit (printedVarDef dv.advFp dv.advSpace dtype name)) = .ok dv' := by
  simp only [varDefHead, bind_assoc, head_ok]
  apply and_congr_right
  intro hroom
  rw [field_bind_ok (dv.emit _) hroom, emit_emit, field_bind_ok (dv.emit _) hroom, emit_emit]
  rfl

/-- A visit returns where its indentations are ints, and has then printed what
it has to. -/
theorem dump_visit_ok (t : Ast V) : ∀ dv dv', dumpVisit conv t dv = .ok dv' ↔
    t.FitsInt dv.advSpace ∧ dv' = dv.emit (dumped conv dv.advFp dv.advSpace t) := by
  induction t with
  | binOp o l r ihl ihr =>
    intro dv dv'
    rw [dumpVisit, head_ok, fits_bin_op, and_assoc]
    apply and_congr_right
    intro hroom
    rw [field_bind_ok (dv.emit _) hroom, emit_emit, below_ok (dv.emit _) hroom ihl, emit_emit,
      and_assoc]
    apply and_congr_right
    intro _
    rw [field_bind_ok (dv.emit _) hroom, emit_emit, below_ok (dv.emit _) hroom ihr, emit_emit]
    apply and_congr_right
    intro _
    rw [end_ok, emit_emit]
    exact and_iff_right hroom.1
  | prim p =>
    intro dv dv'
    rw [dumpVisit, primDump, head_ok, fits_leaf rfl]
    apply and_congr_right
    intro hroom
    rw [field_bind_ok (dv.emit _) hroom, emit_emit]
    show AST_DUMP_END (((dv.emit _).fprintf _ _).fprintf _ _) = .ok dv' ↔ _
    rw [fprintf_fprintf, emit_emit, end_ok, emit_emit]
    exact and_iff_right hroom.1
  | varDef dtype name =>
    intro dv dv'
    rw [dumpVisit, var_def_head_ok, fits_leaf rfl]
    apply and_congr_right
    intro hroom
    rw [end_ok, emit_emit]
    exact and_iff_right hroom.1
  | varDefInit dtype name expr ih =>
    intro dv dv'
    rw [dumpVisit, var_def_head_ok, fits_init, and_assoc]
    apply and_congr_right
    intro hroom
    rw [below_ok (dv.emit _) hroom ih, emit_emit]
    apply and_congr_right
    intro _
    rw [end_ok, emit_emit]
    exact and_iff_right hroom.1

theorem sent_nil {other : FileStream} :
    sentTo other ws = [] ↔ ∀ w ∈ ws, w.stream = other → w.text = [] := by
  simp [sentTo, List.flatMap_eq_nil_iff]

theorem mem_line {w : Printed} : w ∈ printedLine fp s line ↔ w = blank s ∨ w = ⟨fp, line⟩ := by
  simp [printedLine]

/-- On stderr nothing but the separator of a prim goes astray. -/
theorem dumped_stderr (t : Ast V) (h : t.NoPrim) :
    ∀ w ∈ dumped conv .stderr s t, w.stream = .stderr := by
  have hline : ∀ s line, ∀ w ∈ printedLine .stderr s line, w.stream = .stderr := by
    intro s line w hw
    rcases mem_line.mp hw with rfl | rfl
    · rfl
    · rfl
  induction t generalizing s with
  | binOp o l r ihl ihr =>
    simp only [dumped, printedType, printedEnd, List.forall_mem_append]
    exact ⟨⟨⟨⟨⟨⟨hline _ _, hline _ _⟩, hline _ _⟩, ihl h.1⟩, hline _ _⟩, ihr h.2⟩, hline _ _⟩
  | prim p => exact h.elim
  | varDef dtype name =>
    simp only [dumped, printedVarDef, printedType, printedEnd, List.forall_mem_append]
    exact ⟨⟨⟨⟨hline _ _, hline _ _⟩, hline _ _⟩, hline _ _⟩, hline _ _⟩
  | varDefInit dtype name expr ih =>
    simp only [dumped, printedVarDef, printedType, printedEnd, List.forall_mem_append]
    exact ⟨⟨⟨⟨⟨hline _ _, hline _ _⟩, hline _ _⟩, hline _ _⟩, ih h⟩, hline _ _⟩

theorem dumped_head (conv : Text → V → Text) (fp : FileStream) (s : Int) (t : Ast V) :
    ∃ type rest, dumped conv fp s t = printedType fp s type ++ rest := by
  cases t with
  | binOp o l r => exact ⟨AST_BIN_OP_NAME o, _, by simp only [dumped, List.append_assoc]; rfl⟩
  | prim p => exact ⟨AST_PRIM_NAME p.apType, _, by simp only [dumped, List.append_assoc]; rfl⟩
  | varDef dtype name =>
    exact ⟨chars "ast_var_def", _, by simp only [dumped, printedVarDef, List.append_assoc]; rfl⟩
  | varDefInit dtype name expr =>
    exact ⟨chars "ast_var_def", _, by simp only [dumped, printedVarDef, List.append_assoc]; rfl⟩

/-- Every dump has indentation, and indentation is for stderr. -/
theorem dumped_to_stderr (conv : Text → V → Text) (fp : FileStream) (s : Int) (t : Ast V) :
    ∃ w ∈ dumped conv fp s t, w.stream = .stderr ∧ w.text ≠ [] := by
  obtain ⟨type, rest, hhead⟩ := dumped_head conv fp s t
  rw [hhead]
  by_cases hs : s = 0
  · refine ⟨blank (s + 2), by simp [printedType, printedLine], rfl, ?_⟩
    simp [blank, hs]
  · refine ⟨blank s, by simp [printedType, printedLine], rfl, ?_⟩
    simpa [blank] using hs

theorem dumped_to_stdout (conv : Text → V → Text) (fp : FileStream) (s : Int) (t : Ast V)
    (h : ¬ t.NoPrim) :
    ∃ w ∈ dumped conv fp s t, w.stream = .stdout ∧ w.text ≠ [] := by
  induction t generalizing s with
  | binOp o l r ihl ihr =>
    rcases not_and_or.mp h with hl | hr
    · obtain ⟨w, hw, hstream⟩ := ihl (s + 4) hl
      exact ⟨w, by simp [dumped, hw], hstream⟩
    · obtain ⟨w, hw, hstream⟩ := ihr (s + 4) hr
      exact ⟨w, by simp [dumped, hw], hstream⟩
  | prim p => exact ⟨⟨.stdout, chars ",\n"⟩, by simp [dumped], rfl, by decide⟩
  | varDef dtype name => exact absurd trivial h
  | varDefInit dtype name expr ih =>
    obtain ⟨w, hw, hstream⟩ := ih (s + 4) h
    exact ⟨w, by simp [dumped, hw], hstream⟩

theorem braces_line (fp : FileStream) (s : Int) (line : Text) :
    braces ((printedLine fp s line).map Printed.text) = braces [line] := by
  have hblank : ∀ n rest, List.replicate n 32#8 ≠ (123#8 :: rest) ∧
      List.replicate n 32#8 ≠ (125#8 :: rest) := by
    intro n rest
    cases n <;> simp [List.replicate_succ]
  have hopen := (hblank s.natAbs [10#8]).1
  have hclose := (hblank s.natAbs [44#8, 10#8]).2
  have hskip : (List.replicate s.natAbs 32#8 == chars "\x7b\n" ||
      List.replicate s.natAbs 32#8 == chars "\x7d,\n") = false := by
    simp only [Bool.or_eq_false_iff, beq_eq_false_iff_ne]
    exact ⟨hopen, hclose⟩
  simp [printedLine, braces, blank, hskip]

/-- The lines of fields start with a dot. -/
theorem braces_field (rest : Text) : braces [46#8 :: rest] = [] := by
  simp [braces, chars]

theorem part_line {marks : List Text} (fp : FileStream) (s : Int) (line : Text)
    (h : braces [line] = marks) : Part marks [line] ((printedLine fp s line).map Printed.text) :=
  ⟨(braces_line fp s line).trans h, by simp [printedLine]⟩

theorem Part.append {m m' f f' x y : List Text} (h : Part m f x) (h' : Part m' f' y) :
    Part (m ++ m') (f ++ f') (x ++ y) where
  marks := (List.filter_append x y).trans (congrArg₂ _ h.marks h'.marks)
  fields := by
    intro field hf
    rcases List.mem_append.mp hf with hf | hf
    · exact List.mem_append_left y (h.fields field hf)
    · exact List.mem_append_right x (h'.fields field hf)

theorem Part.of_subset {m f f' x : List Text} (h : Part m f x) (hf : f' ⊆ f) : Part m f' x :=
  ⟨h.marks, fun field hfield => h.fields field (hf hfield)⟩

theorem type_part (fp : FileStream) (s : Int) (type : Text) :
    Part [chars "\x7b\n"] [chars ".type = " ++ type ++ chars "\x7b\x7d,\n"]
      ((printedType fp s type).map Printed.text) := by
  have hopen := part_line fp s (chars "\x7b\n") rfl
  have htype := part_line fp (s + 2) (chars ".type = " ++ type ++ chars "\x7b\x7d,\n")
    (braces_field _)
  rw [printedType, List.map_append]
  exact (hopen.append htype).of_subset (List.subset_append_right _ _)

theorem var_def_part (fp : FileStream) (s : Int) (dtype name : Text) :
    Part [chars "\x7b\n"] [chars ".type = ast_var_def\x7b\x7d,\n",
        chars ".dtype = " ++ dtype ++ chars "\n", chars ".name = " ++ name ++ chars "\n"]
      ((printedVarDef fp s dtype name).map Printed.text) := by
  have htype := type_part fp s (chars "ast_var_def")
  have hdtype := part_line fp (s + 2) (chars ".dtype = " ++ dtype ++ chars "\n") (braces_field _)
  have hname := part_line fp (s + 2) (chars ".name = " ++ name ++ chars "\n") (braces_field _)
  rw [printedVarDef, List.map_append, List.map_append]
  exact (htype.append hdtype).append hname

theorem end_part (fp : FileStream) (s : Int) :
    Part [chars "\x7d,\n"] [] ((printedEnd fp s).map Printed.text) :=
  (part_line fp s (chars "\x7d,\n") rfl).of_subset (List.nil_subset _)

/-- Whatever the streams, the lines together are the record of the tree. -/
theorem dumped_record (t : Ast V) (s : Int) (h : t.NoPrim) :
    IsRecord conv t ((dumped conv fp s t).map Printed.text) := by
  induction t generalizing s with
  | binOp o l r ihl ihr =>
    have hstart := (type_part fp s (AST_BIN_OP_NAME o)).append
      (part_line fp (s + 2) (chars ".left = \n") (braces_field _))
    have hbetween := part_line fp (s + 2) (chars ".right = \n") (braces_field _)
    have hleft := ihl (s + 4) h.1
    have hright := ihr (s + 4) h.2
    refine ⟨_, _, _, _, _, ?_, hstart, hleft, hbetween, hright, end_part fp s⟩
    simp only [dumped, List.map_append]
  | prim p => exact h.elim
  | varDef dtype name =>
    refine ⟨_, _, ?_, var_def_part fp s dtype name, end_part fp s⟩
    simp only [dumped, List.map_append]
  | varDefInit dtype name expr ih =>
    refine ⟨_, _, _, ?_, var_def_part fp s dtype name, ih (s + 4) h, end_part fp s⟩
    simp only [dumped, List.map_append]

end

section
variable {V : Type}

/-- The dump is right on stderr alone, of a tree without prim nodes, whose
indentations are ints. -/
theorem dumps_iff (conv : Text → V → Text) (fp : FileStream) (s : Int) (t : Ast V) :
    Dumps conv fp s t ↔ fp = .stderr ∧ t.NoPrim ∧ t.FitsInt s := by
  constructor
  · rintro ⟨dv, hrun, hsent, -, -⟩
    obtain ⟨hfits, rfl⟩ := (dump_visit_ok t _ _).mp hrun
    obtain ⟨w, hw, hstderr, htext⟩ := dumped_to_stderr conv fp s t
    have hfp : fp = .stderr := by
      by_contra hne
      exact htext (sent_nil.mp (hsent .stderr (Ne.symm hne)) w hw hstderr)
    refine ⟨hfp, ?_, hfits⟩
    by_contra hprim
    obtain ⟨w, hw, hstdout, htext⟩ := dumped_to_stdout conv fp s t hprim
    have hne : FileStream.stdout ≠ fp := by
      rw [hfp]
      decide
    exact htext (sent_nil.mp (hsent .stdout hne) w hw hstdout)
  · rintro ⟨rfl, hprim, hfits⟩
    refine ⟨_, (dump_visit_ok t _ _).mpr ⟨hfits, rfl⟩, ?_, dumped_record t s hprim, rfl⟩
    intro other hne
    apply sent_nil.mpr
    intro w hw hother
    exact absurd ((dumped_stderr t hprim w hw).symm.trans hother).symm hne

/-- int n, dumped to stdout as main.c dumps its var_def: the indentation goes to
stderr. -/
theorem dump_stray :
    ¬ Dumps (fun _ (_ : Int) => []) .stdout 0 (.varDef (chars "int") (chars "n")) := by
  rintro ⟨dv, hrun, hsent, -⟩
  obtain ⟨-, rfl⟩ := (dump_visit_ok _ _ _).mp hrun
  exact absurd (hsent .stderr (by decide)) (by decide)

end

end Mepl
