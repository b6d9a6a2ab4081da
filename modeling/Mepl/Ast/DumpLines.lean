import Mepl.Ast.Dump

namespace Mepl

section
variable {V : Type} (conv : Text → V → Text)

/-- The a_visit calls of a caller, one tree after the other. -/
def dumpAll : List (Ast V) → DumpVisitor → Res DumpVisitor
  | [], dv => pure dv
  | t :: ts, dv => do
    let dv ← dumpVisit conv t dv
    dumpAll ts dv

/-- A tree with the text of each value in its place. -/
def Ast.shown : Ast V → Ast Text
  | .binOp t l r => .binOp t l.shown r.shown
  | .prim p => .prim ⟨p.apType, conv (AST_PRIM_CONV_SPECS p.apType) p.val⟩
  | .varDef dtype name => .varDef dtype name
  | .varDefInit dtype name expr => .varDefInit dtype name expr.shown

/-- No name and no printed value has a newline. -/
def Ast.OneLine : Ast V → Prop
  | .binOp _ l r => l.OneLine ∧ r.OneLine
  | .prim p => 10#8 ∉ conv (AST_PRIM_CONV_SPECS p.apType) p.val
  | .varDef dtype name => 10#8 ∉ dtype ∧ 10#8 ∉ name
  | .varDefInit dtype name expr => (10#8 ∉ dtype ∧ 10#8 ∉ name) ∧ expr.OneLine

end

/-- The functions of a visitor that print a record. -/
inductive RecordType where
  | binOp (t : BinOpType)
  | prim (t : PrimType)
  | varDef
deriving DecidableEq, Repr

def RecordType.text : RecordType → Text
  | .binOp t => AST_BIN_OP_NAME t
  | .prim t => AST_PRIM_NAME t
  | .varDef => chars "ast_var_def"

def Ast.recordType {V : Type} : Ast V → RecordType
  | .binOp t _ _ => .binOp t
  | .prim p => .prim p.apType
  | .varDef _ _ => .varDef
  | .varDefInit _ _ _ => .varDef

/-- What indent() puts before a line of fp. -/
def pad (fp : FileStream) (s : Int) : Text :=
  if fp = .stderr then List.replicate s.natAbs 32#8 else []

def headLines (fp : FileStream) (s : Int) (type : RecordType) : List Text :=
  [pad fp s ++ chars "\x7b", pad fp (s + 2) ++ (chars ".type = " ++ type.text ++ chars "\x7b\x7d,")]

def fieldLine (fp : FileStream) (s : Int) (field : Text) : Text := pad fp (s + 2) ++ field

def endLine (fp : FileStream) (s : Int) : Text := pad fp s ++ chars "\x7d,"

/-- The line of a value ends where its separator comes out, else with the record. -/
def valLines (fp : FileStream) (s : Int) (val : Text) : List Text :=
  if fp = .stdout then [fieldLine fp s (chars ".val = " ++ val ++ chars ","), endLine fp s]
  else [fieldLine fp s (chars ".val = " ++ val ++ endLine fp s)]

section
variable {V : Type} (conv : Text → V → Text)

/-- The lines of a record behind its type. -/
def bodyLines (fp : FileStream) (s : Int) : Ast V → List Text
  | .binOp _ l r =>
    fieldLine fp s (chars ".left = ") ::
      (headLines fp (s + 4) l.recordType ++ bodyLines fp (s + 4) l ++
        fieldLine fp s (chars ".right = ") ::
          (headLines fp (s + 4) r.recordType ++ bodyLines fp (s + 4) r ++ [endLine fp s]))
  | .prim p => valLines fp s (conv (AST_PRIM_CONV_SPECS p.apType) p.val)
  | .varDef dtype name =>
    [fieldLine fp s (chars ".dtype = " ++ dtype), fieldLine fp s (chars ".name = " ++ name),
      endLine fp s]
  | .varDefInit dtype name expr =>
    fieldLine fp s (chars ".dtype = " ++ dtype) :: fieldLine fp s (chars ".name = " ++ name) ::
      (headLines fp (s + 4) expr.recordType ++ bodyLines fp (s + 4) expr ++ [endLine fp s])

def recordLines (fp : FileStream) (s : Int) (t : Ast V) : List Text :=
  headLines fp s t.recordType ++ bodyLines conv fp s t

end

def endLines (lines : List Text) : Text := lines.flatMap (fun line => line ++ [10#8])

theorem endLines_append (a b : List Text) : endLines (a ++ b) = endLines a ++ endLines b :=
  List.flatMap_append

/-- A text is no other lines than those it was made of. -/
theorem endLines_splitOn {lines : List Text} (h : ∀ line ∈ lines, 10#8 ∉ line) :
    (endLines lines).splitOn 10#8 = lines ++ [[]] := by
  induction lines with
  | nil => rfl
  | cons line lines ih =>
    obtain ⟨hline, hlines⟩ := List.forall_mem_cons.mp h
    have hcons : endLines (line :: lines) = line ++ 10#8 :: endLines lines := by
      simp [endLines]
    rw [hcons, List.splitOn_append_cons_self_of_not_mem hline, ih hlines]
    rfl

theorem endLines_inj {a b : List Text} (ha : ∀ line ∈ a, 10#8 ∉ line)
    (hb : ∀ line ∈ b, 10#8 ∉ line) (h : endLines a = endLines b) : a = b := by
  have hsplit := congrArg (List.splitOn 10#8) h
  rw [endLines_splitOn ha, endLines_splitOn hb] at hsplit
  exact List.append_cancel_right hsplit

section
variable {V : Type} {conv : Text → V → Text} {fp : FileStream} {s : Int}

theorem sentTo_append (a b : List Printed) :
    sentTo fp (a ++ b) = sentTo fp a ++ sentTo fp b := by
  simp [sentTo]

theorem sentTo_line (line : Text) : sentTo fp (printedLine fp s line) = pad fp s ++ line := by
  unfold pad
  split
  · rename_i hfp
    simp [sentTo, printedLine, blank, hfp]
  · rename_i hfp
    have hblank : (FileStream.stderr == fp) = false := beq_eq_false_iff_ne.mpr (Ne.symm hfp)
    simp [sentTo, printedLine, blank, hblank]

theorem sentTo_type (type : RecordType) :
    sentTo fp (printedType fp s type.text) = endLines (headLines fp s type) := by
  rw [printedType, sentTo_append, sentTo_line, sentTo_line]
  simp [headLines, endLines, chars]

theorem sentTo_end : sentTo fp (printedEnd fp s) = endLines [endLine fp s] := by
  rw [printedEnd, sentTo_line]
  simp [endLine, endLines, chars]

theorem sentTo_field (field : Text) :
    sentTo fp (printedLine fp (s + 2) (field ++ chars "\n")) =
      endLines [fieldLine fp s field] := by
  rw [sentTo_line]
  simp [fieldLine, endLines, chars]

theorem sentTo_varDef (dtype name : Text) :
    sentTo fp (printedVarDef fp s dtype name) = endLines (headLines fp s .varDef ++
      [fieldLine fp s (chars ".dtype = " ++ dtype),
        fieldLine fp s (chars ".name = " ++ name)]) := by
  have htype : sentTo fp (printedType fp s (chars "ast_var_def")) = _ := sentTo_type .varDef
  rw [printedVarDef, sentTo_append, sentTo_append, htype, sentTo_field, sentTo_field,
    ← endLines_append, ← endLines_append, List.append_assoc]
  rfl

/-- The separator of a value comes out on stdout. -/
theorem sentTo_val (val : Text) :
    sentTo fp (printedLine fp (s + 2) (chars ".val = ") ++
      [⟨fp, val⟩, ⟨.stdout, chars ",\n"⟩] ++ printedEnd fp s) = endLines (valLines fp s val) := by
  rw [sentTo_append, sentTo_append, sentTo_line, sentTo_end]
  unfold valLines
  split
  · rename_i hfp
    simp [sentTo, hfp, fieldLine, endLines, chars]
  · rename_i hfp
    have hstdout : (FileStream.stdout == fp) = false := beq_eq_false_iff_ne.mpr (Ne.symm hfp)
    simp [sentTo, hstdout, fieldLine, endLines]

/-- What goes to fp of a dump, by its lines. -/
theorem sentTo_dumped (t : Ast V) (s : Int) :
    sentTo fp (dumped conv fp s t) = endLines (recordLines conv fp s t) := by
  induction t generalizing s with
  | binOp o l r ihl ihr =>
    have htype : sentTo fp (printedType fp s (AST_BIN_OP_NAME o)) = _ := sentTo_type (.binOp o)
    have hleft : sentTo fp (printedLine fp (s + 2) (chars ".left = \n")) = _ :=
      sentTo_field (chars ".left = ")
    have hright : sentTo fp (printedLine fp (s + 2) (chars ".right = \n")) = _ :=
      sentTo_field (chars ".right = ")
    simp only [dumped, sentTo_append, htype, hleft, hright, sentTo_end, ihl, ihr,
      ← endLines_append, recordLines, bodyLines, List.append_assoc, List.cons_append,
      List.nil_append]
    rfl
  | prim p =>
    have htype : sentTo fp (printedType fp s (AST_PRIM_NAME p.apType)) = _ :=
      sentTo_type (.prim p.apType)
    rw [dumped, List.append_assoc, List.append_assoc, sentTo_append, htype, ← List.append_assoc,
      sentTo_val, ← endLines_append]
    rfl
  | varDef dtype name =>
    rw [dumped, sentTo_append, sentTo_varDef, sentTo_end, ← endLines_append, List.append_assoc]
    rfl
  | varDefInit dtype name expr ih =>
    rw [dumped, sentTo_append, sentTo_append, sentTo_varDef, sentTo_end, ih, ← endLines_append,
      ← endLines_append]
    simp only [recordLines, bodyLines, List.append_assoc, List.cons_append, List.nil_append]
    rfl

/-- A visitor serves trees as long as its indentations are ints. -/
theorem dumpAll_ok {ts : List (Ast V)} (h : ∀ t ∈ ts, t.FitsInt s) (dv : DumpVisitor)
    (hs : dv.advSpace = s) : dumpAll conv ts dv =
      .ok (dv.emit (ts.flatMap (dumped conv dv.advFp s))) := by
  induction ts generalizing dv with
  | nil => simp [dumpAll, DumpVisitor.emit]
  | cons t ts ih =>
    obtain ⟨ht, hts⟩ := List.forall_mem_cons.mp h
    have hrun : dumpVisit conv t dv = .ok (dv.emit (dumped conv dv.advFp dv.advSpace t)) :=
      (dump_visit_ok t dv _).mpr ⟨hs ▸ ht, rfl⟩
    rw [dumpAll, hrun, ok_bind, ih hts (dv.emit _) hs, emit_emit, hs]
    rfl

/-- The dump of a tree shows no more of its values than their texts. -/
theorem recordLines_shown (t : Ast V) (s : Int) :
    recordLines conv fp s t = recordLines (fun _ text => text) fp s (t.shown conv) := by
  induction t generalizing s with
  | binOp o l r ihl ihr =>
    have hl := ihl (s + 4)
    have hr := ihr (s + 4)
    simp only [recordLines] at hl hr
    simp only [recordLines, bodyLines, Ast.shown, hl, hr]
    rfl
  | prim p => rfl
  | varDef dtype name => rfl
  | varDefInit dtype name expr ih =>
    have hexpr := ih (s + 4)
    simp only [recordLines] at hexpr
    simp only [recordLines, bodyLines, Ast.shown, hexpr]
    rfl

end

theorem RecordType.text_inj {a b : RecordType} (h : a.text = b.text) : a = b := by
  revert h
  rcases a with (_ | _ | _ | _ | _) | (_ | _ | _ | _ | _ | _) | _ <;>
    rcases b with (_ | _ | _ | _ | _) | (_ | _ | _ | _ | _ | _) | _ <;> decide

section
variable {fp : FileStream} {s : Int} {x y : List Text}

theorem headLines_inj {a b : RecordType} (h : headLines fp s a ++ x = headLines fp s b ++ y) :
    a = b ∧ x = y := by
  obtain ⟨htype, hrest⟩ := List.cons.inj (List.cons.inj h).2
  have htext := List.append_cancel_left (List.append_cancel_right (List.append_cancel_left htype))
  exact ⟨RecordType.text_inj htext, hrest⟩

theorem fieldLine_inj {name a b : Text}
    (h : fieldLine fp s (name ++ a) = fieldLine fp s (name ++ b)) : a = b :=
  List.append_cancel_left (List.append_cancel_left h)

theorem valLines_inj {a b : Text} (h : valLines fp s a ++ x = valLines fp s b ++ y) :
    a = b ∧ x = y := by
  unfold valLines at h
  split at h
  · obtain ⟨hval, hrest⟩ := List.cons.inj h
    exact ⟨by simpa [fieldLine] using hval, (List.cons.inj hrest).2⟩
  · obtain ⟨hval, hrest⟩ := List.cons.inj h
    exact ⟨by simpa [fieldLine] using hval, hrest⟩

/-- No line both ends a record and starts one. -/
theorem endLine_ne_start (s' : Int) : endLine fp s ≠ pad fp s' ++ chars "\x7b" := by
  intro h
  have hlast := congrArg List.getLast? h
  simp [endLine, chars] at hlast

theorem body_binOp {V : Type} (conv : Text → V → Text) (fp : FileStream) (s : Int)
    (o : BinOpType) (l r : Ast V) (x : List Text) :
    bodyLines conv fp s (.binOp o l r) ++ x = fieldLine fp s (chars ".left = ") ::
      (recordLines conv fp (s + 4) l ++ fieldLine fp s (chars ".right = ") ::
        (recordLines conv fp (s + 4) r ++ endLine fp s :: x)) := by
  simp [bodyLines, recordLines]

theorem body_init {V : Type} (conv : Text → V → Text) (fp : FileStream) (s : Int)
    (dtype name : Text) (expr : Ast V) (x : List Text) :
    bodyLines conv fp s (.varDefInit dtype name expr) ++ x =
      fieldLine fp s (chars ".dtype = " ++ dtype) :: fieldLine fp s (chars ".name = " ++ name) ::
        (recordLines conv fp (s + 4) expr ++ endLine fp s :: x) := by
  simp [bodyLines, recordLines]

/-- A record is read off the lines that start with it, up to its end. -/
theorem recordLines_inj {t u : Ast Text}
    (h : recordLines (fun _ text => text) fp s t ++ x =
      recordLines (fun _ text => text) fp s u ++ y) : t = u ∧ x = y := by
  induction t generalizing u s x y with
  | binOp o l r ihl ihr =>
    simp only [recordLines, List.append_assoc] at h
    obtain ⟨htype, hbody⟩ := headLines_inj h
    cases u with
    | binOp o' l' r' =>
      obtain rfl := RecordType.binOp.inj htype
      rw [body_binOp, body_binOp] at hbody
      obtain ⟨rfl, hright⟩ := ihl (List.cons.inj hbody).2
      obtain ⟨rfl, hend⟩ := ihr (List.cons.inj hright).2
      exact ⟨rfl, (List.cons.inj hend).2⟩
    | prim => cases htype
    | varDef => cases htype
    | varDefInit => cases htype
  | prim p =>
    simp only [recordLines, List.append_assoc] at h
    obtain ⟨htype, hbody⟩ := headLines_inj h
    cases u with
    | binOp => cases htype
    | prim q =>
      obtain ⟨hval, hrest⟩ := valLines_inj hbody
      have hprim : p = q := by
        cases p
        cases q
        simp_all [Ast.recordType]
      exact ⟨congrArg Ast.prim hprim, hrest⟩
    | varDef => cases htype
    | varDefInit => cases htype
  | varDef dtype name =>
    simp only [recordLines, List.append_assoc] at h
    obtain ⟨htype, hbody⟩ := headLines_inj h
    cases u with
    | binOp => cases htype
    | prim => cases htype
    | varDef dtype' name' =>
      obtain ⟨hdtype, hnames⟩ := List.cons.inj hbody
      obtain ⟨hname, hend⟩ := List.cons.inj hnames
      obtain rfl := fieldLine_inj hdtype
      obtain rfl := fieldLine_inj hname
      exact ⟨rfl, (List.cons.inj hend).2⟩
    | varDefInit dtype' name' expr' =>
      rw [body_init] at hbody
      have hstart := (List.cons.inj (List.cons.inj (List.cons.inj hbody).2).2).1
      exact absurd hstart (endLine_ne_start _)
  | varDefInit dtype name expr ih =>
    simp only [recordLines, List.append_assoc] at h
    obtain ⟨htype, hbody⟩ := headLines_inj h
    cases u with
    | binOp => cases htype
    | prim => cases htype
    | varDef dtype' name' =>
      rw [body_init] at hbody
      have hstart := (List.cons.inj (List.cons.inj (List.cons.inj hbody).2).2).1
      exact absurd hstart.symm (endLine_ne_start _)
    | varDefInit dtype' name' expr' =>
      rw [body_init, body_init] at hbody
      obtain ⟨hdtype, hnames⟩ := List.cons.inj hbody
      obtain ⟨hname, hexpr⟩ := List.cons.inj hnames
      obtain rfl := fieldLine_inj hdtype
      obtain rfl := fieldLine_inj hname
      obtain ⟨rfl, hend⟩ := ih hexpr
      exact ⟨rfl, (List.cons.inj hend).2⟩

theorem records_inj {ts us : List (Ast Text)}
    (h : ts.flatMap (recordLines (fun _ text => text) fp s) =
      us.flatMap (recordLines (fun _ text => text) fp s)) : ts = us := by
  induction ts generalizing us with
  | nil =>
    cases us with
    | nil => rfl
    | cons u us => cases h
  | cons t ts ih =>
    cases us with
    | nil => cases h
    | cons u us =>
      rw [List.flatMap_cons, List.flatMap_cons] at h
      obtain ⟨rfl, hrest⟩ := recordLines_inj h
      rw [ih hrest]

end

section
variable {V : Type} {conv : Text → V → Text}

theorem pad_no_newline (fp : FileStream) (s : Int) : 10#8 ∉ pad fp s := by
  unfold pad
  split
  · intro h
    exact absurd (List.eq_of_mem_replicate h) (by decide)
  · exact List.not_mem_nil

theorem text_no_newline (type : RecordType) : 10#8 ∉ type.text := by
  rcases type with (_ | _ | _ | _ | _) | (_ | _ | _ | _ | _ | _) | _ <;> decide

theorem head_no_newline (fp : FileStream) (s : Int) (type : RecordType) :
    ∀ line ∈ headLines fp s type, 10#8 ∉ line := by
  have hopen : 10#8 ∉ chars "\x7b" := by decide
  have htype : 10#8 ∉ chars ".type = " := by decide
  have hclose : 10#8 ∉ chars "\x7b\x7d," := by decide
  simp [headLines, pad_no_newline, text_no_newline, hopen, htype, hclose]

theorem record_no_newline {t : Ast V} (ht : t.OneLine conv) (fp : FileStream) (s : Int) :
    ∀ line ∈ recordLines conv fp s t, 10#8 ∉ line := by
  have hfield : ∀ s {field : Text}, 10#8 ∉ field → 10#8 ∉ fieldLine fp s field := by
    intro s field h
    simp [fieldLine, pad_no_newline, h]
  have hend : ∀ s, 10#8 ∉ endLine fp s := by
    have hclose : 10#8 ∉ chars "\x7d," := by decide
    intro s
    simp [endLine, pad_no_newline, hclose]
  have hnamed : ∀ {a b : Text}, 10#8 ∉ a → 10#8 ∉ b → 10#8 ∉ a ++ b := by
    intro a b ha hb
    simp [ha, hb]
  induction t generalizing s with
  | binOp o l r ihl ihr =>
    have hbody := body_binOp conv fp s o l r []
    rw [List.append_nil] at hbody
    rw [recordLines, hbody]
    simp only [List.forall_mem_append, List.forall_mem_cons]
    exact ⟨head_no_newline fp s _, hfield s (by decide), ihl ht.1 _, hfield s (by decide),
      ihr ht.2 _, hend s, by simp⟩
  | prim p =>
    rw [recordLines, List.forall_mem_append]
    refine ⟨head_no_newline fp s _, ?_⟩
    simp only [bodyLines, valLines]
    have hval : 10#8 ∉ chars ".val = " ++ conv (AST_PRIM_CONV_SPECS p.apType) p.val :=
      hnamed (by decide) ht
    split
    · simpa [hend] using hfield s (hnamed hval (by decide : 10#8 ∉ chars ","))
    · simpa using hfield s (hnamed hval (hend s))
  | varDef dtype name =>
    rw [recordLines, List.forall_mem_append]
    refine ⟨head_no_newline fp s _, ?_⟩
    simp only [bodyLines, List.forall_mem_cons]
    exact ⟨hfield s (hnamed (by decide) ht.1), hfield s (hnamed (by decide) ht.2), hend s, by simp⟩
  | varDefInit dtype name expr ih =>
    have hbody := body_init conv fp s dtype name expr []
    rw [List.append_nil] at hbody
    rw [recordLines, hbody]
    simp only [List.forall_mem_append, List.forall_mem_cons]
    exact ⟨head_no_newline fp s _, hfield s (hnamed (by decide) ht.1.1),
      hfield s (hnamed (by decide) ht.1.2), ih ht.2 _, hend s, by simp⟩

/-- Whatever the stream, and although the separators of values go to stdout and
all indentation to stderr: the text that a visitor leaves on its own stream
tells the trees it was given, in their order, each with its operators, types
and names and with the text of every value. -/
theorem dump_tells (conv : Text → V → Text) (fp : FileStream) (s : Int) (ts us : List (Ast V))
    (hts : ∀ t ∈ ts, t.FitsInt s ∧ t.OneLine conv)
    (hus : ∀ u ∈ us, u.FitsInt s ∧ u.OneLine conv) :
    ∃ dt du, dumpAll conv ts (dumpVisitorInit fp s) = .ok dt ∧
      dumpAll conv us (dumpVisitorInit fp s) = .ok du ∧
      (sentTo fp dt.out = sentTo fp du.out ↔
        ts.map (Ast.shown conv) = us.map (Ast.shown conv)) := by
  have hsent : ∀ ts : List (Ast V), sentTo fp (ts.flatMap (dumped conv fp s)) =
      endLines (ts.flatMap (recordLines conv fp s)) := by
    intro ts
    induction ts with
    | nil => rfl
    | cons t ts ih =>
      rw [List.flatMap_cons, List.flatMap_cons, sentTo_append, endLines_append, sentTo_dumped, ih]
  have hshown : ∀ ts : List (Ast V), ts.flatMap (recordLines conv fp s) =
      (ts.map (Ast.shown conv)).flatMap (recordLines (fun _ text => text) fp s) := by
    intro ts
    rw [List.flatMap_map]
    exact congrArg (ts.flatMap ·) (funext fun t => recordLines_shown t s)
  have hline : ∀ ts : List (Ast V), (∀ t ∈ ts, t.FitsInt s ∧ t.OneLine conv) →
      ∀ line ∈ ts.flatMap (recordLines conv fp s), 10#8 ∉ line := by
    intro ts hts line hmem
    obtain ⟨t, ht, hmem⟩ := List.mem_flatMap.mp hmem
    exact record_no_newline (hts t ht).2 fp s line hmem
  refine ⟨_, _, dumpAll_ok (fun t ht => (hts t ht).1) _ rfl,
    dumpAll_ok (fun u hu => (hus u hu).1) _ rfl, ?_⟩
  show sentTo fp ([] ++ ts.flatMap (dumped conv fp s)) =
    sentTo fp ([] ++ us.flatMap (dumped conv fp s)) ↔ _
  rw [List.nil_append, List.nil_append, hsent, hsent]
  constructor
  · intro h
    have hlines := endLines_inj (hline ts hts) (hline us hus) h
    rw [hshown, hshown] at hlines
    exact records_inj hlines
  · intro h
    rw [hshown, hshown, h]

theorem dump_tells_one :
    ∃ dt du, dumpAll (fun _ (_ : Int) => chars "1") [.prim ⟨.int, 1⟩]
        (dumpVisitorInit (.file 3) 0) = .ok dt ∧
      dumpAll (fun _ (_ : Int) => chars "1") [.varDef (chars "int") (chars "n")]
        (dumpVisitorInit (.file 3) 0) = .ok du ∧
      (sentTo (.file 3) dt.out = sentTo (.file 3) du.out ↔
        [Ast.prim ⟨.int, (1 : Int)⟩].map (Ast.shown (fun _ _ => chars "1")) =
          [Ast.varDef (chars "int") (chars "n")].map (Ast.shown (fun _ (_ : Int) => chars "1"))) :=
  dump_tells (fun _ _ => chars "1") (.file 3) 0 [.prim ⟨.int, 1⟩]
    [.varDef (chars "int") (chars "n")]
    (by simp [Ast.FitsInt, Ast.height, Ast.OneLine, INT_MIN, INT_MAX, chars])
    (by simp [Ast.FitsInt, Ast.height, Ast.OneLine, INT_MIN, INT_MAX, chars])

end

end Mepl
